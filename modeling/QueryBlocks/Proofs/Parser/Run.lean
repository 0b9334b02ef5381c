import QueryBlocks.Parser

/-! Running a parser step by step. The outcome of a combinator is written with the outcomes of its
parts, so that a run on a known text unfolds by rewriting. -/
namespace QueryBlocks

variable {α β : Type}

namespace Outcome

/-- Go on from a success. -/
def andThen : Outcome α → (α → Parser β) → Outcome β
  | ok a rest, f => f a rest
  | fail place, _ => fail place
  | stop place, _ => stop place

/-- Fall back to another outcome from a failure. -/
def or : Outcome α → Outcome α → Outcome α
  | fail _, other => other
  | outcome, _ => outcome

/-- Another alternative may still be tried. -/
def Failed : Outcome α → Prop
  | fail _ => True
  | _ => False

variable {a : α} {rest place : List Char} {o o' : Outcome α} {f : α → Parser β}

@[simp] theorem andThen_ok : (ok a rest).andThen f = f a rest := rfl

@[simp] theorem andThen_fail : (fail place : Outcome α).andThen f = fail place := rfl

@[simp] theorem andThen_stop : (stop place : Outcome α).andThen f = stop place := rfl

@[simp] theorem or_ok : (ok a rest).or o = ok a rest := rfl

@[simp] theorem or_fail : (fail place).or o = o := rfl

@[simp] theorem or_stop : (stop place).or o = stop place := rfl

@[simp] theorem map_ok {f : α → β} : (ok a rest).map f = ok (f a) rest := rfl

@[simp] theorem map_fail {f : α → β} : (fail place).map f = fail place := rfl

@[simp] theorem map_stop {f : α → β} : (stop place).map f = stop place := rfl

@[simp] theorem failed_fail : (fail place : Outcome α).Failed := trivial

@[simp] theorem not_failed_ok : ¬ (ok a rest).Failed := id

@[simp] theorem not_failed_stop : ¬ (stop place : Outcome α).Failed := id

theorem Failed.exists (h : o.Failed) : ∃ place, o = fail place := by
  cases o with
  | ok => exact h.elim
  | fail place => exact ⟨place, rfl⟩
  | stop => exact h.elim

theorem Failed.ne_ok (h : o.Failed) : o ≠ .ok a rest := by
  rintro rfl
  exact h

theorem Failed.or (h : o.Failed) : o.or o' = o' := by
  obtain ⟨place, rfl⟩ := h.exists
  rfl

theorem Failed.andThen (h : o.Failed) : (o.andThen f).Failed := by
  obtain ⟨place, rfl⟩ := h.exists
  exact trivial

theorem Failed.map {f : α → β} (h : o.Failed) : (o.map f).Failed := by
  obtain ⟨place, rfl⟩ := h.exists
  exact trivial

theorem map_id (o : Outcome α) : o.map id = o := by cases o <;> rfl

theorem map_map {γ : Type} (f : α → β) (g : β → γ) (o : Outcome α) :
    (o.map f).map g = o.map (g ∘ f) := by
  cases o <;> rfl

end Outcome

namespace Parser

variable {a : α} {s rest : List Char} {p q : Parser α} {f : α → Parser β}

@[simp] theorem run_pure : (pure a : Parser α) s = .ok a s := rfl

@[simp] theorem run_bind (p : Parser α) (f : α → Parser β) (s : List Char) :
    (p >>= f) s = (p s).andThen f := by
  change Parser.bind p f s = _
  unfold Parser.bind
  cases p s <;> rfl

@[simp] theorem run_orElse (p q : Parser α) (s : List Char) :
    (p <|> q) s = (p s).or (q s) := by
  change Parser.orElse p (fun _ => q) s = _
  unfold Parser.orElse
  cases p s <;> rfl

theorem optional_ok (h : p s = .ok a rest) : optional p s = .ok (some a) rest := by
  simp [optional, h]

theorem optional_failed (h : (p s).Failed) : optional p s = .ok none s := by
  obtain ⟨place, hp⟩ := h.exists
  simp [optional, hp]

theorem notNext_failed (h : (p s).Failed) : notNext p s = .ok () s := by
  obtain ⟨place, hp⟩ := h.exists
  simp [notNext, hp]

theorem ahead_failed (h : (p s).Failed) : (ahead p s).Failed := by
  rw [ahead, notNext, notNext_failed h]
  trivial

theorem ahead_ok (h : p s = .ok a rest) : ahead p s = .ok () s := by
  have hnot : notNext p s = .fail s := by simp [notNext, h]
  rw [ahead, notNext, hnot]

theorem verify_failed {good : α → Bool} (h : (p s).Failed) : (verify p good s).Failed := by
  obtain ⟨place, hp⟩ := h.exists
  simp [verify, hp]

theorem verify_refused {good : α → Bool} (h : p s = .ok a rest) (hg : good a = false) :
    (verify p good s).Failed := by
  simp [verify, h, hg]

theorem verify_ok {good : α → Bool} (h : p s = .ok a rest) (hg : good a = true) :
    verify p good s = .ok a rest := by
  simp [verify, h, hg]

theorem many_failed (h : (p s).Failed) : many p s = .ok [] s := by
  obtain ⟨place, hp⟩ := h.exists
  rw [many, hp]

theorem many_ok (h : p s = .ok a rest) (hl : rest.length < s.length) :
    many p s = (many p rest).map (a :: ·) := by
  rw [many, h]
  simp [hl]

theorem manyUntil_done {done : List Char → Bool} (h : done s = true) :
    manyUntil done p s = .ok [] s := by
  rw [manyUntil, if_pos h]

theorem manyUntil_ok {done : List Char → Bool} (hd : done s = false) (h : p s = .ok a rest)
    (hl : rest.length < s.length) :
    manyUntil done p s = (manyUntil done p rest).map (a :: ·) := by
  rw [manyUntil, h]
  simp [hd, hl]

theorem manyUntil_failed {done : List Char → Bool} (hd : done s = false) (h : (p s).Failed) :
    (manyUntil done p s).Failed := by
  obtain ⟨place, hp⟩ := h.exists
  rw [manyUntil, hp]
  simp [hd]

theorem extend_none {step : α → Parser (Option α)} (h : step a s = .ok none rest) :
    extend step a s = .ok a rest := by
  rw [extend, h]

theorem extend_some {step : α → Parser (Option α)} {b : α} (h : step a s = .ok (some b) rest)
    (hl : rest.length < s.length) : extend step a s = extend step b rest := by
  rw [extend, h]
  simp [hl]

theorem extend_failed {step : α → Parser (Option α)} (h : (step a s).Failed) :
    (extend step a s).Failed := by
  obtain ⟨place, hs⟩ := h.exists
  rw [extend, hs]
  trivial

section items

variable {ι : Type} {separator : Parser β} {item : ι → List Char} {value : ι → α}
  {glue : List Char} {follow : List Char → Prop}

theorem follow_items (item : ι → List Char) (hnext : ∀ r, follow (glue ++ r))
    (hrest : follow rest) (more : List ι) :
    follow ((more.flatMap fun i => glue ++ item i) ++ rest) := by
  cases more with
  | nil => exact hrest
  | cons i more =>
    rw [List.flatMap_cons, List.append_assoc, List.append_assoc]
    exact hnext _

theorem many_run {more : List ι}
    (hitem : ∀ i ∈ more, ∀ r, follow r → p (item i ++ r) = .ok (value i) r)
    (hsep : ∀ i ∈ more, ∀ r, ∃ b, separator (glue ++ (item i ++ r)) = .ok b (item i ++ r))
    (hglue : glue ≠ []) (hnext : ∀ r, follow (glue ++ r)) (hrest : follow rest)
    (hstop : (separator rest).Failed) :
    many (do let _ ← separator; p) ((more.flatMap fun i => glue ++ item i) ++ rest) =
      .ok (more.map value) rest := by
  induction more with
  | nil =>
    refine many_failed ?_
    rw [run_bind]
    exact hstop.andThen
  | cons i more ih =>
    have hfollow := follow_items item hnext hrest more
    have hrun : (do let _ ← separator; p : Parser α)
        (((i :: more).flatMap fun i => glue ++ item i) ++ rest) =
          .ok (value i) ((more.flatMap fun i => glue ++ item i) ++ rest) := by
      obtain ⟨b, hb⟩ := hsep i List.mem_cons_self
        ((more.flatMap fun i => glue ++ item i) ++ rest)
      rw [List.flatMap_cons, List.append_assoc, List.append_assoc, run_bind, hb]
      exact hitem i List.mem_cons_self _ hfollow
    have hlen := List.length_pos_iff.mpr hglue
    rw [many_ok hrun (by simp only [List.flatMap_cons, List.length_append]; omega),
      ih (fun j hj => hitem j (List.mem_cons_of_mem _ hj))
        (fun j hj => hsep j (List.mem_cons_of_mem _ hj))]
    rfl

/-- Items with the text `glue` between them. Behind an item stands the next glue or the rest, so
`follow` has to hold of both. -/
theorem sepBy1_run {first : ι} {more : List ι}
    (hitem : ∀ i ∈ first :: more, ∀ r, follow r → p (item i ++ r) = .ok (value i) r)
    (hsep : ∀ i ∈ first :: more, ∀ r, ∃ b,
      separator (glue ++ (item i ++ r)) = .ok b (item i ++ r))
    (hglue : glue ≠ []) (hnext : ∀ r, follow (glue ++ r)) (hrest : follow rest)
    (hstop : (separator rest).Failed) :
    sepBy1 separator p (item first ++ ((more.flatMap fun i => glue ++ item i) ++ rest)) =
      .ok ((first :: more).map value) rest := by
  have hfirst := hitem first List.mem_cons_self _
    (follow_items item hnext hrest more)
  have hmore := many_run (fun i hi => hitem i (List.mem_cons_of_mem _ hi))
    (fun i hi => hsep i (List.mem_cons_of_mem _ hi)) hglue hnext hrest hstop
  rw [sepBy1, run_bind, hfirst, Outcome.andThen_ok, run_bind, hmore]
  rfl

/-- The texts of some items with `glue` between them. -/
def joined (glue : List Char) (item : ι → List Char) : List ι → List Char
  | [] => []
  | first :: more => item first ++ more.flatMap fun i => glue ++ item i

theorem sepBy_run {is : List ι}
    (hitem : ∀ i ∈ is, ∀ r, follow r → p (item i ++ r) = .ok (value i) r)
    (hsep : ∀ i ∈ is, ∀ r, ∃ b, separator (glue ++ (item i ++ r)) = .ok b (item i ++ r))
    (hglue : glue ≠ []) (hnext : ∀ r, follow (glue ++ r)) (hrest : follow rest)
    (hstop : (separator rest).Failed) (hempty : (p rest).Failed) :
    sepBy separator p (joined glue item is ++ rest) = .ok (is.map value) rest := by
  rw [sepBy, run_orElse]
  cases is with
  | nil =>
    have hfail : (sepBy1 separator p rest).Failed := by
      rw [sepBy1, run_bind]
      exact hempty.andThen
    exact hfail.or
  | cons first more =>
    rw [joined, List.append_assoc, sepBy1_run hitem hsep hglue hnext hrest hstop]
    rfl

end items

end Parser

end QueryBlocks
