import QueryBlocks.Proofs.Script.Lead

/-! Texts of several lines. Each line is read up to its end, and what comes below is not taken for a
part of it: no `else` and no dot stands there. -/
namespace QueryBlocks

open QueryBlocks.Parser QueryBlocks.Token QueryBlocks.Rules

/-- Where an expression begins, no list of statements is over. -/
theorem Begins.not_closed {k : Nat} {t : List Char} (h : Begins k t) : closed t = false := by
  obtain ⟨c, s, rfl, hc, -⟩ := h
  rw [closed, beq_eq_false_iff_ne]
  rintro rfl
  exact absurd hc (by decide)

/-- The end of a line that nothing below continues. -/
def EndsLine (r : List Char) : Prop :=
  ∃ s, r = '\n' :: s ∧ (skip isSpace s).head? ≠ some '.' ∧
    (keyword "else" (skip isSpace s)).Failed

namespace EndsLine

variable {r : List Char}

theorem follows (h : EndsLine r) (k : Nat) : Follows k r := by
  obtain ⟨s, rfl, hdot, -⟩ := h
  refine Follows.of_stop (by tauto) ?_
  rwa [skip_pos (by decide) (by decide)]

theorem tail (h : EndsLine r) : Tail r := by
  obtain ⟨s, rfl, -⟩ := h
  exact .stop

theorem elseWord_failed (h : EndsLine r) : (elseWord r).Failed := by
  obtain ⟨s, rfl, -, helse⟩ := h
  rw [elseWord, run_bind, run_space, skip_pos (by decide) (by decide), Outcome.andThen_ok,
    run_bind]
  exact helse.andThen

theorem statementEnd_ok (h : EndsLine r) : statementEnd r = .ok () r := by
  obtain ⟨s, rfl, -⟩ := h
  have hgap : gap ('\n' :: s) = .ok () ('\n' :: s) := by
    rw [run_gap, skip_neg (by decide) (by decide)]
  simp only [statementEnd, run_bind, hgap, Outcome.andThen_ok, remaining, ended]
  rfl

end EndsLine

/-- The end of the lines of a block: a closing brace, or the end of the text. -/
structure EndsBlock (r rest : List Char) : Prop where
  space : skip isSpace r = rest
  breaks : skip isBreak r = rest
  closed : rest = [] ∨ ∃ s, rest = '\x7d' :: s

namespace EndsBlock

variable {r rest : List Char}

theorem nil : EndsBlock [] [] := ⟨skip_nil, skip_nil, .inl rfl⟩

theorem brace (d : Nat) (s : List Char) :
    EndsBlock ((Print.indent d).toList ++ '\x7d' :: s) ('\x7d' :: s) where
  space := by
    rw [Print.indent, String.toList_ofList, skip_spaces (by decide),
      skip_neg (by decide) (by decide)]
  breaks := by
    rw [Print.indent, String.toList_ofList, skip_spaces (by decide),
      skip_neg (by decide) (by decide)]
  closed := .inr ⟨s, rfl⟩

theorem skip_rest (h : EndsBlock r rest) (g : Char → Bool)
    (hg : ∀ c, g c = true → isBreak c = true) : skip g rest = rest := by
  rcases h.closed with rfl | ⟨s, rfl⟩
  · exact skip_nil
  · exact skip_unspaced hg ⟨_, _, rfl, by decide, by decide⟩

theorem endsLine (h : EndsBlock r rest) : EndsLine ('\n' :: r) := by
  refine ⟨r, rfl, ?_, ?_⟩
  · rw [h.space]
    rcases h.closed with rfl | ⟨s, rfl⟩ <;> simp
  · rw [h.space]
    rcases h.closed with rfl | ⟨s, rfl⟩ <;> trivial

end EndsBlock

variable {α ι : Type} {p : Parser α}

/-- The text is one line, or begins and ends as one, and is read as `a`. -/
structure Line (p : Parser α) (t : List Char) (a : α) : Prop where
  begins : Begins 0 t
  noElse : ∀ r, EndsLine r → (keyword "else" (t ++ r)).Failed
  run : ∀ r, EndsLine r → p (t ++ r) = .ok a r

section

variable {lead core : ι → List Char} {value : ι → α} {is : List ι} {r rest : List Char}

/-- The text of some lines, each with its indentation. -/
def lines (lead core : ι → List Char) (is : List ι) : List Char :=
  is.flatMap fun i => lead i ++ (core i ++ ['\n'])

theorem lines_cons (i : ι) : lines lead core (i :: is) ++ r =
    lead i ++ (core i ++ '\n' :: (lines lead core is ++ r)) := by
  simp [lines]

theorem lines_append (is js : List ι) :
    lines lead core (is ++ js) = lines lead core is ++ lines lead core js := List.flatMap_append

variable (hlead : ∀ i ∈ is, ∀ c ∈ lead i, isSpace c = true)
  (hline : ∀ i ∈ is, Line p (core i) (value i)) (hr : EndsBlock r rest)

theorem skip_lead {g : Char → Bool} {l s : List Char} (hg : ∀ c, isSpace c = true → g c = true)
    (hl : ∀ c ∈ l, isSpace c = true) : skip g (l ++ s) = skip g s := by
  induction l with
  | nil => rfl
  | cons c l ih =>
    have hc := hl c List.mem_cons_self
    rw [List.cons_append, skip_pos (hg c hc), ih fun d hd => hl d (List.mem_cons_of_mem c hd)]
    rintro rfl
    cases hc

include hlead hline

/-- All gaps in front of the lines are the same: they end at the first line. -/
theorem skip_lines {g : Char → Bool} (hg : ∀ c, isSpace c = true → g c = true)
    (hb : ∀ c, g c = true → isBreak c = true) (hrest : skip g r = rest) :
    skip g (lines lead core is ++ r) =
      match is with
      | [] => rest
      | i :: more => core i ++ '\n' :: (lines lead core more ++ r) := by
  cases is with
  | nil => exact hrest
  | cons i more =>
    rw [lines_cons, skip_lead hg (hlead i List.mem_cons_self)]
    exact skip_unspaced hb ((hline i List.mem_cons_self).begins.unspaced.append _)

/-- No line is continued by the one below it, and the last one not by what comes after the lines. -/
theorem endsLine_lines_append (hends : EndsLine ('\n' :: r)) :
    EndsLine ('\n' :: (lines lead core is ++ r)) := by
  induction is with
  | nil => exact hends
  | cons i more ih =>
    have hrec := ih (fun j hj => hlead j (List.mem_cons_of_mem i hj))
      fun j hj => hline j (List.mem_cons_of_mem i hj)
    have hfirst := hline i List.mem_cons_self
    have hskip := skip_lines (r := r) hlead hline (fun _ h => h) isBreak_of_isSpace rfl
    refine ⟨_, rfl, ?_, ?_⟩
    · rw [hskip]
      exact hfirst.begins.head?_ne (by decide) _
    · rw [hskip]
      exact hfirst.noElse _ hrec

/-- The lines are read one by one, and then what comes after them. -/
theorem manyUntil_lines_append (hends : EndsLine ('\n' :: r)) :
    manyUntil closed (do let a ← p; statementEnd; breaks; return a)
        (skip isBreak (lines lead core is ++ r)) =
      (manyUntil closed (do let a ← p; statementEnd; breaks; return a) (skip isBreak r)).map
        (is.map value ++ ·) := by
  induction is with
  | nil => exact (Outcome.map_id _).symm
  | cons i more ih =>
    have hlead' : ∀ j ∈ more, ∀ c ∈ lead j, isSpace c = true :=
      fun j hj => hlead j (List.mem_cons_of_mem i hj)
    have hline' : ∀ j ∈ more, Line p (core j) (value j) :=
      fun j hj => hline j (List.mem_cons_of_mem i hj)
    have hfirst := hline i List.mem_cons_self
    have hends := endsLine_lines_append hlead' hline' hends
    have hopen : closed (core i ++ '\n' :: (lines lead core more ++ r)) = false :=
      (hfirst.begins.append _).not_closed
    have hstep : (do let a ← p; statementEnd; breaks; return a : Parser α)
        (core i ++ '\n' :: (lines lead core more ++ r)) =
          .ok (value i) (skip isBreak (lines lead core more ++ r)) := by
      simp only [run_bind, hfirst.run _ hends, hends.statementEnd_ok, Outcome.andThen_ok,
        run_breaks, skip_pos (g := isBreak) (c := '\n') (by decide) (by decide), run_pure]
    have hlen := (skip_suffix isBreak (lines lead core more ++ r)).length_le
    rw [skip_lines (r := r) hlead hline isBreak_of_isSpace (fun _ h => h) rfl,
      manyUntil_ok hopen hstep, ih hlead' hline', Outcome.map_map]
    · rfl
    · simp only [List.length_append, List.length_cons] at hlen ⊢
      omega

/-- A line that is not read, below others that are. -/
theorem sequence_lines_failed {u : List Char} (hbegins : Begins 0 u)
    (helse : (keyword "else" u).Failed) (hu : (p u).Failed) :
    (Rules.sequence p (lines lead core is ++ u)).Failed := by
  have hskip {g : Char → Bool} (hg : ∀ c, g c = true → isBreak c = true) : skip g u = u :=
    skip_unspaced hg hbegins.unspaced
  have hends : EndsLine ('\n' :: u) := by
    refine ⟨u, rfl, ?_, ?_⟩
    · rw [hskip isBreak_of_isSpace]
      simpa using hbegins.head?_ne (c := '.') (by decide) []
    · rwa [hskip isBreak_of_isSpace]
  have hfail : (manyUntil closed (do let a ← p; statementEnd; breaks; return a) u).Failed := by
    refine manyUntil_failed hbegins.not_closed ?_
    rw [run_bind]
    exact hu.andThen
  rw [Rules.sequence, run_bind, run_breaks, Outcome.andThen_ok,
    manyUntil_lines_append hlead hline hends, hskip fun _ h => h]
  exact hfail.map

include hr

theorem endsLine_lines : EndsLine ('\n' :: (lines lead core is ++ r)) :=
  endsLine_lines_append hlead hline hr.endsLine

theorem manyUntil_lines :
    manyUntil closed (do let a ← p; statementEnd; breaks; return a)
      (skip isBreak (lines lead core is ++ r)) = .ok (is.map value) rest := by
  have hclosed : closed rest = true := by
    rcases hr.closed with rfl | ⟨s, rfl⟩ <;> rfl
  rw [manyUntil_lines_append hlead hline hr.endsLine, hr.breaks, manyUntil_done hclosed]
  simp

theorem sequence_lines : Rules.sequence p (lines lead core is ++ r) = .ok (is.map value) rest := by
  rw [Rules.sequence, run_bind, run_breaks, Outcome.andThen_ok, manyUntil_lines hlead hline hr]

/-- The gap before the first line may have been skipped already. -/
theorem sequence_skip_lines :
    Rules.sequence p (skip isSpace (lines lead core is ++ r)) = .ok (is.map value) rest := by
  have hsame : skip isBreak (skip isSpace (lines lead core is ++ r)) =
      skip isBreak (lines lead core is ++ r) := by
    rw [skip_lines hlead hline (fun _ h => h) isBreak_of_isSpace hr.space,
      skip_lines hlead hline isBreak_of_isSpace (fun _ h => h) hr.breaks]
    cases is with
    | nil => exact hr.skip_rest isBreak fun _ h => h
    | cons i more =>
      exact skip_unspaced (fun _ h => h) ((hline i List.mem_cons_self).begins.unspaced.append _)
  rw [Rules.sequence, run_bind, run_breaks, Outcome.andThen_ok, hsame,
    manyUntil_lines hlead hline hr]

end

end QueryBlocks
