import QueryBlocks.Proofs.Parser.Append
import QueryBlocks.Proofs.Script.Follow
import QueryBlocks.Proofs.Script.Places

/-!
Lexical rules on a text with another line below it. Words, numbers and operators end at the newline,
so they are firm. A gap is not: it may run on into the line below if it reaches the end of the text,
and a comment that is not closed in the text may be closed there.
-/
namespace QueryBlocks

open QueryBlocks.Parser

theorem Text.readQuoted_append {mark : Char} {s text after : List Char} (hmark : mark ≠ '\\')
    (h : readQuoted mark s = some (text, after)) (more : List Char) :
    readQuoted mark (s ++ more) = some (text, after ++ more) := by
  fun_induction readQuoted mark s generalizing text with
  | case1 => cases h
  | case2 c rest ih =>
    obtain ⟨⟨t, a⟩, ht, he⟩ := Option.map_eq_some_iff.mp h
    cases he
    rw [List.cons_append, List.cons_append, readQuoted, ih ht]
    rfl
  | case3 rest =>
    cases h
    rw [List.cons_append, readQuoted, if_pos rfl]
    exact fun _ _ he => absurd he hmark
  | case4 => cases h
  | case5 c rest _ hne hstop ih =>
    obtain ⟨⟨t, a⟩, ht, he⟩ := Option.map_eq_some_iff.mp h
    cases he
    rw [List.cons_append, readQuoted, if_neg hne, if_neg hstop, ih ht]
    · rfl
    · exact fun _ _ he => absurd (.inl he) hstop

namespace Token

variable {g h : Char → Bool} {s rest v : List Char} {n : Nat} {α β : Type}

/-! ### Gaps -/

/-- A block comment begins that the text does not close. -/
def Unclosed (s : List Char) : Prop := ∃ rest, s = '/' :: '*' :: rest ∧ afterComment rest = none

/-- A gap that ends here also ends here with more text behind. -/
def Settled (s : List Char) : Prop := s ≠ [] ∧ ¬ Unclosed s

/-- No comment begins with `c`, if `t` comes behind it. -/
def NoComment (c : Char) (t : List Char) : Prop := c = '/' → ∀ d ∈ t.head?, d ≠ '/' ∧ d ≠ '*'

/-- Something other than a gap or a comment begins here. -/
def Solid (g : Char → Bool) (s : List Char) : Prop :=
  ∃ c t, s = c :: t ∧ g c = false ∧ NoComment c t

theorem NoComment.append {c : Char} {t : List Char} (hc : NoComment c t) (v : List Char) :
    NoComment c (t ++ '\n' :: v) := by
  intro he d hd
  cases t with
  | nil =>
    cases hd
    decide
  | cons e t => exact hc he d hd

theorem NoComment.of_ne {c : Char} {t : List Char} (hline : ∀ r, c = '/' → t = '/' :: r → False)
    (hblock : ∀ r, c = '/' → t = '*' :: r → False) : NoComment c t := by
  intro he d hd
  obtain ⟨r, rfl⟩ := List.head?_eq_some_iff.mp hd
  constructor
  · rintro rfl
    exact hline r he rfl
  · rintro rfl
    exact hblock r he rfl

theorem NoComment.skip_eq {c : Char} {t : List Char} (hc : NoComment c t) :
    skip g (c :: t) = if g c then skip g t else c :: t := by
  rw [skip]
  · rintro r he rfl
    exact (hc he '/' rfl).1 rfl
  · rintro r he rfl
    exact (hc he '*' rfl).2 rfl

theorem skip_comment (hs : afterComment s = some rest) :
    skip g ('/' :: '*' :: s) = skip g rest := by
  rw [skip]
  split
  · rename_i h
    rw [hs] at h
    cases h
    rfl
  · rename_i h
    rw [hs] at h
    cases h

theorem Solid.skip_eq (hs : Solid g s) : skip g s = s := by
  obtain ⟨c, t, rfl, hc, hcomment⟩ := hs
  simp [hcomment.skip_eq, hc]

theorem Solid.settled (hs : Solid g s) : Settled s := by
  obtain ⟨c, t, rfl, -, hcomment⟩ := hs
  refine ⟨List.cons_ne_nil c t, ?_⟩
  rintro ⟨rest, he, -⟩
  cases he
  exact (hcomment rfl '*' rfl).2 rfl

theorem Unspaced.solid (hg : ∀ c, g c = true → isBreak c = true) (hs : Unspaced s) :
    Solid g s := by
  obtain ⟨c, t, rfl, hc, hne⟩ := hs
  refine ⟨c, t, rfl, ?_, fun he => absurd he hne⟩
  by_contra hgc
  exact absurd (hg c (Bool.not_eq_false _ ▸ hgc)) (by simp [hc])

theorem Unspaced.settled (hs : Unspaced s) : Settled s := (hs.solid fun _ h => h).settled

theorem Unclosed.skip_eq (hs : Unclosed s) (g : Char → Bool) : skip g s = s := by
  obtain ⟨rest, rfl, hopen⟩ := hs
  rw [skip]
  split
  · rename_i after h
    rw [hopen] at h
    cases h
  · rfl

/-- What a gap leaves. -/
theorem skip_cases (g : Char → Bool) (s : List Char) :
    skip g s = [] ∨ Unclosed (skip g s) ∨ Solid g (skip g s) := by
  fun_induction skip g s with
  | case1 rest ih => exact ih
  | case2 rest after h ih => exact ih
  | case3 rest h => exact .inr (.inl ⟨rest, rfl, h⟩)
  | case4 c rest _ _ _ ih => exact ih
  | case5 c rest hline hblock hc =>
    exact .inr (.inr ⟨c, rest, rfl, by simpa using hc, .of_ne hline hblock⟩)
  | case6 => exact .inl rfl

/-- A wider gap goes on where a narrower one has ended. -/
theorem skip_skip (hgh : ∀ c, g c = true → h c = true) (s : List Char) :
    skip h (skip g s) = skip h s := by
  fun_induction skip g s with
  | case1 rest ih => rw [ih, skip]
  | case2 rest after hafter ih => rw [ih, skip_comment hafter]
  | case3 => rfl
  | case4 c rest hline hblock hc ih =>
    rw [ih, (NoComment.of_ne hline hblock).skip_eq, if_pos (hgh c hc)]
  | case5 => rfl
  | case6 => rfl

theorem isSpace_of_isGap (c : Char) (hc : isGap c = true) : isSpace c = true := by
  simp [isSpace, hc]

theorem settled_of_skip (hs : Settled (skip g s)) : Settled s := by
  constructor
  · rintro rfl
    exact hs.1 skip_nil
  · intro hopen
    rw [hopen.skip_eq g] at hs
    exact hs.2 hopen

theorem afterComment_append (h : afterComment s = some rest) (more : List Char) :
    afterComment (s ++ more) = some (rest ++ more) := by
  fun_induction afterComment s with
  | case1 r =>
    cases h
    rfl
  | case2 c r hne ih =>
    rw [List.cons_append, afterComment, ih h]
    intro t hc ht
    cases r with
    | nil => cases h
    | cons d r =>
      rw [List.cons_append] at ht
      cases ht
      exact hne r hc rfl
  | case3 => cases h

theorem dropWhile_append_newline {p : Char → Bool} (hp : p '\n' = false) (s v : List Char) :
    (s ++ '\n' :: v).dropWhile p = s.dropWhile p ++ '\n' :: v := by
  rw [List.dropWhile_append]
  split
  · rename_i h
    rw [List.isEmpty_iff.mp h, List.dropWhile_cons, hp]
    rfl
  · rfl

theorem takeWhile_append_newline {p : Char → Bool} (hp : p '\n' = false) (s v : List Char) :
    (s ++ '\n' :: v).takeWhile p = s.takeWhile p := by
  have hsplit : s ++ '\n' :: v = s.takeWhile p ++ (s.dropWhile p ++ '\n' :: v) := by
    rw [← List.append_assoc, List.takeWhile_append_dropWhile]
  rw [hsplit]
  refine takeWhile_append_stop List.all_takeWhile fun c hc => ?_
  rw [← dropWhile_append_newline hp] at hc
  exact head?_dropWhile _ c hc

/-- A gap that ends in the text still ends there; otherwise it goes on below. -/
theorem skip_append (hs : ¬ Unclosed (skip g s)) (v : List Char) :
    skip g (s ++ '\n' :: v) =
      if skip g s = [] then skip g ('\n' :: v) else skip g s ++ '\n' :: v := by
  fun_induction skip g s with
  | case1 rest ih =>
    rw [← ih hs, ← dropWhile_append_newline (by decide), List.cons_append, List.cons_append, skip]
  | case2 rest after h ih =>
    rw [← ih hs, List.cons_append, List.cons_append, skip_comment (afterComment_append h _)]
  | case3 rest h => exact absurd ⟨rest, rfl, h⟩ hs
  | case4 c rest hline hblock hc ih =>
    have hcomment : NoComment c rest := .of_ne hline hblock
    rw [← ih hs, List.cons_append, (hcomment.append v).skip_eq, if_pos hc]
  | case5 c rest hline hblock hc =>
    have hcomment : NoComment c rest := .of_ne hline hblock
    rw [if_neg (List.cons_ne_nil c rest), List.cons_append, (hcomment.append v).skip_eq, if_neg hc]
  | case6 => rfl

theorem skip_append_settled (hs : Settled (skip g s)) (v : List Char) :
    skip g (s ++ '\n' :: v) = skip g s ++ '\n' :: v := by
  rw [skip_append hs.2, if_neg hs.1]

theorem skip_append_nil (hs : skip g s = []) (v : List Char) :
    skip g (s ++ '\n' :: v) = skip g ('\n' :: v) := by
  have hopen : ¬ Unclosed (skip g s) := by
    rintro ⟨rest, he, -⟩
    rw [hs] at he
    cases he
  rw [skip_append hopen, if_pos hs]

/-- A gap inside a line ends at the newline. -/
theorem skip_isGap_append (hs : ¬ Unclosed (skip isGap s)) (v : List Char) :
    skip isGap (s ++ '\n' :: v) = skip isGap s ++ '\n' :: v := by
  rw [skip_append hs]
  split
  · rename_i he
    rw [he, skip_neg (by decide) (by decide)]
    rfl
  · rfl

/-! ### Words, numbers and operators -/

section firm

variable (v)

theorem firm_satisfy {good : Char → Bool} (hgood : good '\n' = false) :
    Firm ('\n' :: v) (satisfy good) := by
  refine Firm.satisfy fun c hc => ?_
  cases hc
  exact hgood

theorem firm_char {c : Char} (hc : c ≠ '\n') : Firm ('\n' :: v) (char c) :=
  firm_satisfy v (by simpa using hc.symm)

theorem firm_exactly {k : String} (hk : '\n' ∉ k.toList) : Firm ('\n' :: v) (exactly k) where
  ok h := by
    rw [exactly_eq_ok] at h ⊢
    rw [h, List.append_assoc]
  failed {s} h := by
    rcases exactly_cases k (s ++ '\n' :: v) with ⟨rest, hs, -⟩ | hfail
    · -- the word would be in the text, or go over its end
      rcases List.append_eq_append_iff.mp hs with ⟨t, hkt, ht⟩ | ⟨t, rfl, -⟩
      · cases t with
        | nil =>
          rw [List.append_nil] at hkt
          rw [exactly_eq_ok.mpr (show s = k.toList ++ [] by rw [hkt, List.append_nil])] at h
          exact h.elim
        | cons c t =>
          cases ht
          exact absurd (by simp [hkt]) hk
      · rw [exactly_append] at h
        exact h.elim
    · simp [hfail]

theorem firm_keyword {k : String} (hk : '\n' ∉ k.toList) : Firm ('\n' :: v) (keyword k) :=
  (firm_exactly v hk).bind fun _ => (firm_satisfy v (by decide)).notNext

theorem firm_wordRest : Firm ('\n' :: v) wordRest where
  ok {s a rest} h := by
    cases h
    rw [wordRest, takeWhile_append_newline (by decide), dropWhile_append_newline (by decide)]
  failed h := h.elim

theorem firm_identifier : Firm ('\n' :: v) identifier :=
  (firm_satisfy v (by decide)).bind fun _ => (firm_wordRest v).bind fun _ => .pure _

theorem firm_name : Firm ('\n' :: v) name := (firm_identifier v).verify

theorem firm_qualifiedName : Firm ('\n' :: v) qualifiedName :=
  (firm_identifier v).bind fun _ =>
    ((firm_char v (by decide)).bind fun _ => firm_identifier v).many.bind fun _ => .pure _

theorem firm_digits : Firm ('\n' :: v) digits where
  ok {s a rest} h := by
    unfold digits at h ⊢
    rw [takeWhile_append_newline (by decide), dropWhile_append_newline (by decide)]
    split at h
    · cases h
    · rename_i found hfound
      cases h
      rfl
  failed {s} h := by
    unfold digits at h ⊢
    rw [takeWhile_append_newline (by decide)]
    split at h
    · trivial
    · exact h.elim

theorem firm_number : Firm ('\n' :: v) number := by
  refine Firm.verify ((firm_digits v).bind fun whole => ?_)
  refine (Firm.optional ((firm_char v (by decide)).bind fun _ => firm_digits v)).bind fun
    fraction => ?_
  refine (firm_satisfy v (by decide)).notNext.bind fun _ => ?_
  cases fraction with
  | none => exact .pure _
  | some fraction => exact .pure _

theorem firm_wordLiteral : Firm ('\n' :: v) wordLiteral :=
  ((firm_keyword v (by decide)).bind fun _ => .pure _).orElse
    (((firm_keyword v (by decide)).bind fun _ => .pure _).orElse
      ((firm_keyword v (by decide)).bind fun _ => .pure _))

theorem firm_startsArgument : Firm ('\n' :: v) startsArgument :=
  ((firm_keyword v (by decide)).orElse ((firm_keyword v (by decide)).orElse
    (firm_keyword v (by decide)))).notNext.bind fun _ => (firm_satisfy v (by decide)).ahead

/-- A sign that certain characters must not follow. -/
theorem firm_sign {c : Char} {good : Char → Bool} (hc : c ≠ '\n') (hgood : good '\n' = false)
    (op : BinOp) : Firm ('\n' :: v) (do let _ ← char c; notNext (satisfy good); return op) :=
  (firm_char v hc).bind fun _ => (firm_satisfy v hgood).notNext.bind fun _ => .pure _

theorem firm_token {k : String} (hk : '\n' ∉ k.toList) (op : BinOp) :
    Firm ('\n' :: v) (do exactly k; return op) := (firm_exactly v hk).bind fun _ => .pure _

theorem firm_assignOp : Firm ('\n' :: v) assignOp :=
  (firm_token v (by decide) _).orElse ((firm_token v (by decide) _).orElse
    (firm_sign v (by decide) (by decide) _))

theorem firm_relationOp : Firm ('\n' :: v) relationOp :=
  (firm_token v (by decide) _).orElse ((firm_token v (by decide) _).orElse
    ((firm_sign v (by decide) (by decide) _).orElse
      (((firm_char v (by decide)).bind fun _ => .pure _).orElse
        (((firm_keyword v (by decide)).bind fun _ => .pure _).orElse
          ((firm_keyword v (by decide)).bind fun _ => .pure _)))))

theorem firm_ladder {op : Parser BinOp} (h : op ∈ ladder) : Firm ('\n' :: v) op := by
  simp only [ladder, List.mem_cons, List.not_mem_nil, or_false] at h
  rcases h with rfl | rfl | rfl | rfl | rfl | rfl | rfl
  · exact firm_token v (by decide) _
  · exact firm_token v (by decide) _
  · exact (firm_token v (by decide) _).orElse (firm_token v (by decide) _)
  · exact firm_relationOp v
  · exact (firm_exactly v (by decide)).bind fun _ =>
      (firm_char v (by decide)).notNext.bind fun _ => .pure _
  · exact (firm_sign v (by decide) (by decide) _).orElse (firm_sign v (by decide) (by decide) _)
  · exact (firm_sign v (by decide) (by decide) _).orElse
      ((firm_sign v (by decide) (by decide) _).orElse (firm_sign v (by decide) (by decide) _))

theorem firm_declaredType : Firm ('\n' :: v) Rules.declaredType := by
  refine ((firm_keyword v (by decide)).bind fun _ => .pure _).orElse ?_
  refine (firm_qualifiedName v).verify.bind fun type => (firm_exactly v (by decide)).optional.bind
    fun array => ?_
  cases array with
  | none => exact .pure _
  | some _ => exact .pure _

theorem firm_here : Firm ('\n' :: v) Rules.bare.here where
  ok h := by
    cases h
    rfl
  failed h := h.elim

end firm

theorem carries_stringLiteral {C : List Char → Prop} (more : List Char) :
    Carries more n C stringLiteral := by
  have hfinish {mark : Char} {s rest : List Char} {a : String} (hmark : mark ≠ '\\')
      (h : stringLiteral.finish mark s = .ok a rest) :
      stringLiteral.finish mark (s ++ more) = .ok a (rest ++ more) := by
    unfold stringLiteral.finish at h ⊢
    split at h
    · rename_i text after hread
      cases h
      rw [Text.readQuoted_append hmark hread]
    · cases h
  intro s a rest _ h _
  unfold stringLiteral at h
  split at h
  · exact hfinish (by decide) h
  · exact hfinish (by decide) h
  · cases h

theorem carries_skip (g : Char → Bool) : Carries ('\n' :: v) n Settled (skipping (skip g)) := by
  intro s _ rest _ h hrest
  cases h
  rw [skipping, skip_append_settled hrest]

theorem stillFails_gap1 : StillFails ('\n' :: v) gap1 :=
  .bind (firm_satisfy v (by decide)) fun _ => .skipping _

/-- Unlike other gaps, one inside a line may also end with the text. -/
theorem gap1_append {t : List Char} (h : gap1 s = .ok () t) (ht : ¬ Unclosed t) :
    gap1 (s ++ '\n' :: v) = .ok () (t ++ '\n' :: v) := by
  rw [gap1, run_bind, Outcome.andThen_eq_ok] at h
  obtain ⟨c, mid, hc, h⟩ := h
  cases h
  rw [gap1, run_bind, (firm_satisfy v (by decide)).ok hc, Outcome.andThen_ok, run_gap,
    skip_isGap_append ht]

theorem carries_gap1 : Carries ('\n' :: v) n Settled gap1 :=
  .bind_firm (firm_satisfy v (by decide)) (Advances.satisfy _) fun _ =>
    carries_skip isGap

/-! ### Where a gap has ended -/

theorem settled_cons {c : Char} (hc : c ≠ '/') : Settled (c :: s) := by
  refine ⟨List.cons_ne_nil c s, ?_⟩
  rintro ⟨rest, he, -⟩
  cases he
  exact hc rfl

theorem needs_satisfy (good : Char → Bool) :
    Needs (fun s => ∃ c t, s = c :: t ∧ good c = true) (satisfy good) := by
  refine .of_failed fun s hs => ?_
  cases s with
  | nil => trivial
  | cons c s =>
    have hc : good c = false := by
      by_contra hgood
      exact hs ⟨c, s, rfl, Bool.not_eq_false _ ▸ hgood⟩
    simp [satisfy, hc]

theorem settled_char {c : Char} (hc : c ≠ '/') : Needs Settled (char c) := by
  refine (needs_satisfy _).mono ?_
  rintro s ⟨d, t, rfl, hd⟩
  obtain rfl := eq_of_beq hd
  exact settled_cons hc

theorem unspaced_keyword {k : String} (hk : isIdentifier k = true) :
    Needs Unspaced (keyword k) := by
  intro s _ rest h
  obtain ⟨rfl, -⟩ := keyword_eq_ok h
  exact (Unspaced.of_identifier hk).append rest

theorem settled_keyword {k : String} (hk : isIdentifier k = true) : Needs Settled (keyword k) :=
  (unspaced_keyword hk).mono fun _ => Unspaced.settled

theorem unspaced_identifier : Needs Unspaced identifier := by
  intro s w rest h
  obtain ⟨rfl, hw, -⟩ := identifier_eq_ok h
  exact (Unspaced.of_identifier hw).append rest

theorem settled_qualifiedName : Needs Settled qualifiedName :=
  (unspaced_identifier.mono fun _ => Unspaced.settled).bind

theorem needs_after_here {P : List Char → Prop} {f : Position → Parser β}
    (hf : ∀ pos, Needs P (f pos)) : Needs P (Rules.bare.here >>= f) := fun _ _ _ h => hf _ h

/-- Where a rule may begin with a gap, its gap ends. -/
theorem settled_after_skip {f : Unit → Parser β} (hf : Needs Settled (f ())) :
    Needs Settled (skipping (skip g) >>= f) := fun _ _ _ h => settled_of_skip (hf h)

section

variable {f : Unit → Parser β} {C : List Char → Prop}

theorem carries_after_skip (hf : Carries ('\n' :: v) n C (f ())) (hneeds : Needs Settled (f ())) :
    Carries ('\n' :: v) n C (skipping (skip g) >>= f) :=
  (carries_skip g).bind (.skipping (skip_suffix g)) (fun _ => hf) fun _ _ _ _ h _ => hneeds h

theorem carries_after_gap1 (hf : Carries ('\n' :: v) n C (f ())) (hneeds : Needs Settled (f ())) :
    Carries ('\n' :: v) n C (gap1 >>= f) :=
  carries_gap1.bind advances_gap1 (fun _ => hf) fun _ _ _ _ h _ => hneeds h

end

end Token

end QueryBlocks
