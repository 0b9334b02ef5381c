import QueryBlocks.Proofs.Position
import QueryBlocks.Proofs.Script.Newline
import QueryBlocks.Proofs.Script.Progress
import QueryBlocks.Proofs.Script.Sound

/-!
Line ends. A script reads the same whether its lines end in LF or in CR LF. Every gap passes over a
CR, so at the end of a line one reader may still stand before it and the other behind: that is all
the two texts are ever apart.
-/
namespace QueryBlocks

open QueryBlocks.Token

/-- The text with CR LF for every LF. -/
def crlf (s : List Char) : List Char := s.flatMap fun c => if c = '\n' then ['\r', '\n'] else [c]

/-- The text behind a CR at its front, if there is one. -/
def behindReturn : List Char → List Char
  | '\r' :: s => s
  | s => s

variable {c : Char} {s u text : List Char} {good : Char → Bool}

@[simp] theorem crlf_nil : crlf [] = [] := rfl

@[simp] theorem crlf_newline : crlf ('\n' :: s) = '\r' :: '\n' :: crlf s := rfl

theorem crlf_cons (hc : c ≠ '\n') : crlf (c :: s) = c :: crlf s := by
  simp [crlf, hc]

theorem crlf_append (s t : List Char) : crlf (s ++ t) = crlf s ++ crlf t := List.flatMap_append

theorem length_le_crlf (s : List Char) : s.length ≤ (crlf s).length := by
  induction s with
  | nil => exact Nat.le_refl _
  | cons c s ih =>
    by_cases hc : c = '\n'
    · subst hc
      simp only [crlf_newline, List.length_cons]
      omega
    · simp only [crlf_cons hc, List.length_cons]
      omega

theorem crlf_eq_nil : crlf s = [] ↔ s = [] := by
  constructor
  · intro h
    have := length_le_crlf s
    rw [h] at this
    exact List.eq_nil_of_length_eq_zero (Nat.le_zero.mp this)
  · rintro rfl
    rfl

/-- A CR in front of the newline moves the place on by a column, which the newline then takes
back. -/
theorem Position.foldl_step_crlf (p : Position) (s : List Char) :
    (crlf s).foldl step p = s.foldl step p := by
  induction s generalizing p with
  | nil => rfl
  | cons c s ih =>
    by_cases hc : c = '\n'
    · subst hc
      exact ih (p.step '\n')
    · rw [crlf_cons hc]
      exact ih (p.step c)

theorem LineIndex.locate_crlf (hs : s <:+ text) :
    (ofText (crlf text)).locate (crlf s) = (ofText text).locate s := by
  obtain ⟨before, rfl⟩ := hs
  rw [crlf_append, locate_append, locate_append]
  exact Position.foldl_step_crlf _ before

/-- No CR, and no newline that is escaped. -/
structure Plain (s : List Char) : Prop where
  noReturn : '\r' ∉ s
  noEscape : ¬ ['\\', '\n'] <:+: s

theorem Plain.suffix (h : Plain text) (hs : s <:+ text) : Plain s where
  noReturn hr := h.noReturn (hs.subset hr)
  noEscape he := h.noEscape (he.trans hs.isInfix)

theorem Plain.tail (h : Plain (c :: s)) : Plain s := h.suffix (List.suffix_cons c s)

theorem Plain.ne_return (h : Plain (c :: s)) : c ≠ '\r' := by
  rintro rfl
  exact h.noReturn List.mem_cons_self

theorem behindReturn_cons (hc : c ≠ '\r') : behindReturn (c :: s) = c :: s := by
  unfold behindReturn
  split
  · rename_i heq
    exact absurd (List.cons.inj heq).1 hc
  · rfl

/-- Only at a newline does the text with CR LF begin with a CR. -/
theorem Plain.behindReturn_crlf (h : Plain s) (hs : s.head? ≠ some '\n') :
    behindReturn (crlf s) = crlf s := by
  cases s with
  | nil => rfl
  | cons c s =>
    have hc : c ≠ '\n' := by
      rintro rfl
      exact hs rfl
    rw [crlf_cons hc, behindReturn_cons h.ne_return]

namespace Token

theorem skip_behindReturn (hr : good '\r' = true) (u : List Char) :
    skip good (behindReturn u) = skip good u := by
  unfold behindReturn
  split
  · exact (skip_pos hr (by decide)).symm
  · rfl

theorem afterComment_crlf (s : List Char) :
    afterComment (crlf s) = (afterComment s).map crlf := by
  fun_induction afterComment s with
  | case1 rest => rfl
  | case2 c rest hend ih =>
    by_cases hc : c = '\n'
    · subst hc
      rw [← ih]
      rfl
    · rw [crlf_cons hc, ← ih, afterComment]
      rintro r rfl hr
      cases rest with
      | nil => cases hr
      | cons d rest =>
        by_cases hd : d = '\n'
        · subst hd
          cases hr
        · rw [crlf_cons hd] at hr
          exact hend rest rfl (by rw [(List.cons.inj hr).1])
  | case3 => rfl

/-- The rest of a line is dropped with the CR that ends it. -/
theorem dropWhile_crlf (s : List Char) : (crlf s).dropWhile (· != '\n') =
    behindReturn (crlf (s.dropWhile (· != '\n'))) := by
  induction s with
  | nil => rfl
  | cons c s ih =>
    by_cases hc : c = '\n'
    · subst hc
      rfl
    · rw [crlf_cons hc, List.dropWhile_cons_of_pos (by simpa using hc),
        List.dropWhile_cons_of_pos (by simpa using hc), ih]

theorem NoComment.crlf {t : List Char} (h : NoComment c t) : NoComment c (crlf t) := by
  intro hc d hd
  cases t with
  | nil => cases hd
  | cons e t =>
    by_cases he : e = '\n'
    · subst he
      cases hd
      decide
    · rw [crlf_cons he] at hd
      exact h hc d hd

/-- A gap passes over the CR of the newline that it ends at. -/
theorem skip_crlf (hr : good '\r' = true) (h : Plain s) :
    skip good (crlf s) = behindReturn (crlf (skip good s)) := by
  fun_induction skip good s with
  | case1 rest ih =>
    have hrest : Plain (rest.dropWhile (· != '\n')) :=
      h.tail.tail.suffix (List.dropWhile_suffix _)
    rw [crlf_cons (by decide), crlf_cons (by decide), skip, dropWhile_crlf,
      skip_behindReturn hr, ih hrest]
  | case2 rest after hafter ih =>
    have hrest : Plain after := h.tail.tail.suffix (afterComment_suffix hafter)
    have hcomment : afterComment (crlf rest) = some (crlf after) := by
      rw [afterComment_crlf, hafter]
      rfl
    rw [crlf_cons (by decide), crlf_cons (by decide), skip_comment hcomment, ih hrest]
  | case3 rest hopen =>
    have hcomment : afterComment (crlf rest) = none := by
      rw [afterComment_crlf, hopen]
      rfl
    rw [h.behindReturn_crlf (by simp), crlf_cons (by decide), crlf_cons (by decide)]
    exact Unclosed.skip_eq ⟨_, rfl, hcomment⟩ good
  | case4 c rest hline hblock hc ih =>
    by_cases hn : c = '\n'
    · subst hn
      rw [crlf_newline, skip_pos hr (by decide), skip_pos hc (by decide), ih h.tail]
    · rw [crlf_cons hn, (NoComment.of_ne hline hblock).crlf.skip_eq, if_pos hc, ih h.tail]
  | case5 c rest hline hblock hc =>
    by_cases hn : c = '\n'
    · subst hn
      rw [crlf_newline, skip_pos hr (by decide), skip_neg (by simpa using hc) (by decide)]
      rfl
    · rw [h.behindReturn_crlf (by simpa using hn), crlf_cons hn,
        (NoComment.of_ne hline hblock).crlf.skip_eq, if_neg hc]
  | case6 => rw [crlf_nil, skip_nil]; rfl

/-- A gap that may run over lines leaves no newline in front. -/
theorem skip_head_ne (hn : good '\n' = true) (s : List Char) :
    (skip good s).head? ≠ some '\n' := by
  rcases skip_cases good s with h | ⟨rest, h, -⟩ | ⟨c, t, h, hc, -⟩
  · simp [h]
  · simp [h]
  · rw [h]
    rintro heq
    cases heq
    rw [hn] at hc
    cases hc

end Token

theorem Text.readQuoted_crlf {mark : Char} (hmark : isLineEnd mark = false) (h : Plain s) :
    readQuoted mark (crlf s) =
      (readQuoted mark s).map fun found => (found.1, crlf found.2) := by
  have hnewline : mark ≠ '\n' := by
    rintro rfl
    cases hmark
  have hreturn : '\r' ≠ mark := by
    rintro rfl
    cases hmark
  fun_induction readQuoted mark s with
  | case1 => rfl
  | case2 c rest ih =>
    have hc : c ≠ '\n' := by
      rintro rfl
      exact h.noEscape ⟨[], rest, rfl⟩
    rw [crlf_cons (by decide), crlf_cons hc, readQuoted, ih h.tail.tail]
    cases readQuoted mark rest <;> rfl
  | case3 rest hlast =>
    rw [crlf_cons hnewline, readQuoted, if_pos rfl]
    · rfl
    · intro c t hm ht
      cases rest with
      | nil => cases ht
      | cons d rest => exact hlast d rest hm rfl
  | case4 c rest hlast hne hstop =>
    rcases hstop with rfl | rfl
    · cases rest with
      | nil => simp [crlf, readQuoted, hne]
      | cons d rest => exact absurd rfl (hlast d rest rfl)
    · simp [readQuoted, hreturn, hne]
  | case5 c rest hlast hne hstop ih =>
    have hc : c ≠ '\n' := fun hc => hstop (.inr hc)
    rw [crlf_cons hc, readQuoted, if_neg hne, if_neg hstop, ih h.tail]
    · cases readQuoted mark rest <;> rfl
    · exact fun _ _ he => absurd (.inl he) hstop

namespace Plain

/-- Two readers at the same place, or at the end of a line and one of them behind its CR. -/
def Level (text u s : List Char) : Prop :=
  s <:+ text ∧ (u = crlf s ∨ u = behindReturn (crlf s))

theorem Level.skip_eq (h : Plain text) (hu : Level text u s) (hr : good '\r' = true) :
    skip good u = behindReturn (crlf (skip good s)) := by
  have hs := skip_crlf hr (h.suffix hu.1)
  rcases hu.2 with rfl | rfl
  · exact hs
  · rw [skip_behindReturn hr, hs]

theorem Level.skip_lines (h : Plain text) (hu : Level text u s) (hr : good '\r' = true)
    (hn : good '\n' = true) : skip good s <:+ text ∧ skip good u = crlf (skip good s) := by
  have hs : skip good s <:+ text := (skip_suffix good s).trans hu.1
  rw [hu.skip_eq h hr, (h.suffix hs).behindReturn_crlf (skip_head_ne hn s)]
  exact ⟨hs, rfl⟩

/-- A newline ends a statement whether or not its CR has been passed. -/
theorem ended_behindReturn (h : Plain s) : Rules.ended (behindReturn (crlf s)) = Rules.ended s := by
  cases s with
  | nil => rfl
  | cons c s =>
    by_cases hc : c = '\n'
    · subst hc
      rfl
    · rw [h.behindReturn_crlf (by simpa using hc), crlf_cons hc]
      rfl

theorem fronts (h : Plain text) (hu : Level text u s) :
    Fronts (fun u s => s <:+ text ∧ u = crlf s) u s := by
  obtain ⟨hs, hu⟩ := hu
  have hplain := h.suffix hs
  cases s with
  | nil =>
    obtain rfl : u = [] := by rcases hu with rfl | rfl <;> rfl
    exact .nil
  | cons c s =>
    by_cases hc : c = '\n'
    · subst hc
      rcases hu with rfl | rfl
      · exact .lineEnd rfl rfl
      · exact .lineEnd rfl rfl
    · rw [hplain.behindReturn_crlf (by simpa using hc), or_self, crlf_cons hc] at hu
      subst hu
      have hend : isLineEnd c = false := by
        simp [isLineEnd, hc, hplain.ne_return]
      exact .char hend ⟨hs, (crlf_cons hc).symm⟩ ⟨(List.suffix_cons c s).trans hs, rfl⟩

/-- The text with CR LF, and the text itself. -/
def pairing (h : Plain text) : Pairing where
  aligned u s := s <:+ text ∧ u = crlf s
  loose := Level text
  loose_of_aligned hu := ⟨hu.1, .inl hu.2⟩
  fronts := h.fronts
  skip_gap {u s} hu := ⟨(skip_suffix isGap s).trans hu.1, .inr (hu.skip_eq h rfl)⟩
  ended_gap {u s} hu := by
    have hs : skip isGap s <:+ text := (skip_suffix isGap s).trans hu.1
    have hplain := h.suffix hs
    rw [hu.skip_eq h rfl, hplain.ended_behindReturn]
    refine ⟨rfl, fun hended => ⟨hs, hplain.behindReturn_crlf ?_⟩⟩
    intro hnewline
    obtain ⟨rest, hrest⟩ := List.head?_eq_some_iff.mp hnewline
    rw [hrest] at hended
    cases hended
  skip_space hu := hu.skip_lines h rfl rfl
  skip_break hu := hu.skip_lines h rfl rfl
  readQuoted := by
    rintro u s mark hmark ⟨hs, rfl⟩
    rw [Text.readQuoted_crlf hmark (h.suffix hs)]
    cases hread : Text.readQuoted mark s with
    | none => exact .none
    | some found => exact .some ⟨rfl, (Text.readQuoted_suffix hread).trans hs, rfl⟩

end Plain

namespace Rules

/-- The rules over the text with CR LF are in step with those over the text. -/
theorem inStep_crlf {text : String} (h : Plain text.toList) : InStep h.pairing id text.toList.length
    (Source.ofString (String.ofList (crlf text.toList))).rules (Source.ofString text).rules := by
  rw [Source.rules, Source.rules, nested_eq_deepened, nested_eq_deepened _ (List.length _)]
  refine inStep_deepened ?_ ?_ (Nat.le_refl _)
  · rintro u s ⟨hs, rfl⟩
    have hplace := LineIndex.locate_crlf hs
    rw [← String.toList_ofList (l := crlf text.toList)] at hplace
    exact hplace.symm
  · have hlen := length_le_crlf text.toList
    rw [← String.toList_ofList (l := crlf text.toList)] at hlen
    exact hlen

/-- What is read with CR LF is read without, and the other way round. -/
theorem script_crlf {text : String} (h : Plain text.toList) :
    ((Source.ofString (String.ofList (crlf text.toList))).rules.script (crlf text.toList)).Alike
      h.pairing.loose h.pairing.aligned (Script.map id id)
      ((Source.ofString text).rules.script text.toList) :=
  ((inStep_crlf h).script _ _ ⟨List.suffix_refl _, .inl rfl⟩ (Nat.lt_succ_self _)).1

/-- The places of a script that has been read are moved to where they are. -/
theorem script_map_id {text : String} {a : Script} {rest : List Char}
    (h : (Source.ofString text).rules.script text.toList = .ok a rest) : a.map id id = a := by
  have hself := ((inStep_self text text.toList.length).script _ _ rfl (Nat.lt_succ_self _)).1
  rw [h] at hself
  cases hself with
  | ok hb => exact hb.symm

end Rules

theorem Script.read_eq_ok {text : String} {script : Script} : Script.read text = .ok script ↔
    ∃ rest, (Source.ofString text).rules.script text.toList = .ok script rest ∧
      skip isBreak rest = [] := by
  constructor
  · exact Source.finish_eq_ok
  · rintro ⟨rest, hrun, hrest⟩
    change (Source.ofString text).finish ((Source.ofString text).rules.script text.toList) = _
    rw [hrun, Source.finish, hrest]

/-- Line ends do not matter: with CR LF for every newline a text is a script if and only if it was
one before, and the script is the same, with the same places. -/
theorem Script.read_crlf {text : String} (hreturn : '\r' ∉ text.toList)
    (hescape : ¬ ['\\', '\n'] <:+: text.toList) (script : Script) :
    Script.read (String.ofList (crlf text.toList)) = .ok script ↔
      Script.read text = .ok script := by
  have hplain : Plain text.toList := ⟨hreturn, hescape⟩
  have halike := Rules.script_crlf hplain
  rw [Script.read_eq_ok, Script.read_eq_ok]
  constructor
  · rintro ⟨rest, hrun, hrest⟩
    have hid := Rules.script_map_id hrun
    rw [String.toList_ofList] at hrun
    rw [hrun] at halike
    generalize (Source.ofString text).rules.script text.toList = o at halike
    cases halike with
    | @ok _ _ _ rest' hb haligned =>
      have hskip := hplain.pairing.skip_break (hplain.pairing.loose_of_aligned haligned)
      rw [hrest] at hskip
      exact ⟨rest', by rw [hb, hid], crlf_eq_nil.mp hskip.2.symm⟩
  · rintro ⟨rest, hrun, hrest⟩
    rw [hrun] at halike
    generalize hwide : (Source.ofString (String.ofList (crlf text.toList))).rules.script
      (crlf text.toList) = o at halike
    rw [String.toList_ofList, hwide]
    cases halike with
    | @ok a _ rest' _ hb haligned =>
      have hid : a.map id id = a := Rules.script_map_id (by rw [String.toList_ofList, hwide])
      have hskip := hplain.pairing.skip_break (hplain.pairing.loose_of_aligned haligned)
      rw [hrest] at hskip
      exact ⟨rest', by rw [hb, hid], hskip.2⟩

/-- A comment, a value that does not follow its `return`, and a call that goes on below. -/
theorem Script.read_crlf_lines : ∃ script,
    Script.read "return // x\nf('y')\n  .g()" = .ok script ∧
      Script.read "return // x\r\nf('y')\r\n  .g()" = .ok script := by
  have hread : (Script.read "return // x\nf('y')\n  .g()").toOption.isSome = true := by
    decide +kernel
  cases h : Script.read "return // x\nf('y')\n  .g()" with
  | error e =>
    rw [h] at hread
    cases hread
  | ok script =>
    have hcrlf : "return // x\r\nf('y')\r\n  .g()" =
        String.ofList (crlf "return // x\nf('y')\n  .g()".toList) := by decide
    refine ⟨script, rfl, ?_⟩
    rw [hcrlf, Script.read_crlf (by decide) (by decide)]
    exact h

end QueryBlocks
