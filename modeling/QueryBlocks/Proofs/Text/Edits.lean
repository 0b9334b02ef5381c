import QueryBlocks.Text.Distance
import Mathlib.Order.Lattice.Nat

/-!
The distance of two texts is the length of the shortest chain of edits from one to the other. The
rows of the computation are compared with the recursion on the first characters, and the recursion
with the chains.
-/
namespace QueryBlocks.Text

/-- One character is put in, left out or replaced. -/
inductive Edit : List Char → List Char → Prop
  | insert (before after : List Char) (c : Char) : Edit (before ++ after) (before ++ c :: after)
  | delete (before after : List Char) (c : Char) : Edit (before ++ c :: after) (before ++ after)
  | replace (before after : List Char) (c d : Char) :
    Edit (before ++ c :: after) (before ++ d :: after)

/-- A chain of `n` edits from one text to another. -/
inductive Edits : Nat → List Char → List Char → Prop
  | refl (s : List Char) : Edits 0 s s
  | step {n : Nat} {s t u : List Char} (h : Edits n s t) (e : Edit t u) : Edits (n + 1) s u

/-- The fewest edits from one text to another. -/
noncomputable def editDistance (a b : String) : Nat := sInf {n | Edits n a.toList b.toList}

theorem Edit.cons {s t : List Char} (c : Char) (h : Edit s t) : Edit (c :: s) (c :: t) := by
  cases h with
  | insert before after d => exact .insert (c :: before) after d
  | delete before after d => exact .delete (c :: before) after d
  | replace before after d e => exact .replace (c :: before) after d e

theorem Edit.reverse {s t : List Char} (h : Edit s t) : Edit s.reverse t.reverse := by
  cases h with
  | insert before after c => simpa using Edit.insert after.reverse before.reverse c
  | delete before after c => simpa using Edit.delete after.reverse before.reverse c
  | replace before after c d => simpa using Edit.replace after.reverse before.reverse c d

namespace Edits

variable {n m : Nat} {s t u : List Char}

theorem cons (c : Char) (h : Edits n s t) : Edits n (c :: s) (c :: t) := by
  induction h with
  | refl => exact .refl _
  | step _ e ih => exact ih.step (e.cons c)

theorem reverse (h : Edits n s t) : Edits n s.reverse t.reverse := by
  induction h with
  | refl => exact .refl _
  | step _ e ih => exact ih.step e.reverse

theorem reverse_iff : Edits n s.reverse t.reverse ↔ Edits n s t :=
  ⟨fun h => by simpa using h.reverse, reverse⟩

theorem insert (c : Char) (h : Edits n s t) : Edits (n + 1) s (c :: t) := h.step (.insert [] t c)

theorem replace (c d : Char) (h : Edits n s t) : Edits (n + 1) (c :: s) (d :: t) :=
  (h.cons c).step (.replace [] t c d)

theorem delete (c : Char) (h : Edits n s t) : Edits (n + 1) (c :: s) t :=
  (h.cons c).step (.delete [] t c)

/-- Without an edit nothing changes. -/
theorem eq_of_zero (h : Edits 0 s t) : s = t := by
  cases h
  rfl

end Edits

/-- The fewest edits that treat the two first characters together, or one of them alone. -/
def fewest : List Char → List Char → Nat
  | [], t => t.length
  | s, [] => s.length
  | c :: s, d :: t =>
    min (min (fewest (c :: s) t + 1) (fewest s (d :: t) + 1))
      (fewest s t + if c = d then 0 else 1)

section fewest

variable {s t u : List Char} {n : Nat}

@[simp] theorem fewest_nil_left (t : List Char) : fewest [] t = t.length := by rw [fewest]

@[simp] theorem fewest_nil_right (s : List Char) : fewest s [] = s.length := by
  cases s <;> simp [fewest]

theorem fewest_cons_cons (c d : Char) (s t : List Char) :
    fewest (c :: s) (d :: t) = min (min (fewest (c :: s) t + 1) (fewest s (d :: t) + 1))
      (fewest s t + if c = d then 0 else 1) := by
  rw [fewest]

theorem edits_fewest (s t : List Char) : Edits (fewest s t) s t := by
  fun_induction fewest s t with
  | case1 t =>
    induction t with
    | nil => exact .refl []
    | cons d t ih => exact ih.insert d
  | case2 s hs =>
    clear hs
    induction s with
    | nil => exact .refl []
    | cons c s ih => exact ih.delete c
  | case3 c s d t ihInsert ihDelete ihBoth =>
    have hboth : Edits (fewest s t + if c = d then 0 else 1) (c :: s) (d :: t) := by
      split
      · subst d
        exact ihBoth.cons c
      · exact ihBoth.replace c d
    rcases min_choice (fewest (c :: s) t + 1) (fewest s (d :: t) + 1) with h | h
    · rcases min_choice (fewest (c :: s) t + 1) (fewest s t + if c = d then 0 else 1) with h' | h'
      · rw [h, h']
        exact ihInsert.insert d
      · rw [h, h']
        exact hboth
    · rcases min_choice (fewest s (d :: t) + 1) (fewest s t + if c = d then 0 else 1) with h' | h'
      · rw [h, h']
        exact ihDelete.delete c
      · rw [h, h']
        exact hboth

/-- One more character on the left costs one edit at most. -/
theorem fewest_cons_left_le (c : Char) (s t : List Char) : fewest (c :: s) t ≤ fewest s t + 1 := by
  cases t with
  | nil => simp
  | cons d t =>
    rw [fewest_cons_cons]
    omega

theorem fewest_insert_le (c : Char) (s t : List Char) : fewest s (c :: t) ≤ fewest s t + 1 := by
  cases s with
  | nil => simp
  | cons d s =>
    rw [fewest_cons_cons]
    omega

theorem fewest_delete_le (c : Char) (s t : List Char) : fewest s t ≤ fewest s (c :: t) + 1 := by
  induction s with
  | nil =>
    simp only [fewest_nil_left, List.length_cons]
    omega
  | cons d s ih =>
    have hleft := fewest_cons_left_le d s t
    rw [fewest_cons_cons]
    omega

theorem fewest_replace_le (c d : Char) (s t : List Char) :
    fewest s (d :: t) ≤ fewest s (c :: t) + 1 := by
  induction s with
  | nil => simp
  | cons e s ih =>
    rw [fewest_cons_cons, fewest_cons_cons]
    split <;> omega

/-- What is near from everywhere is as near behind one more character. -/
theorem fewest_cons_le (c : Char) (h : ∀ s, fewest s u ≤ fewest s t + 1) (s : List Char) :
    fewest s (c :: u) ≤ fewest s (c :: t) + 1 := by
  induction s with
  | nil =>
    have hnil := h []
    simp only [fewest_nil_left, List.length_cons] at hnil ⊢
    omega
  | cons d s ih =>
    have hright := h (d :: s)
    have hboth := h s
    rw [fewest_cons_cons, fewest_cons_cons]
    omega

theorem fewest_edit_le (e : Edit t u) (s : List Char) : fewest s u ≤ fewest s t + 1 := by
  -- the edit lies behind a common part, and each of its characters keeps the bound
  have hbehind (before : List Char) {t u : List Char} (h : ∀ s, fewest s u ≤ fewest s t + 1) :
      ∀ s, fewest s (before ++ u) ≤ fewest s (before ++ t) + 1 := by
    induction before with
    | nil => exact h
    | cons c before ih => exact fewest_cons_le c ih
  cases e with
  | insert before after c => exact hbehind before (fun s => fewest_insert_le c s after) s
  | delete before after c => exact hbehind before (fun s => fewest_delete_le c s after) s
  | replace before after c d => exact hbehind before (fun s => fewest_replace_le c d s after) s

theorem fewest_self (s : List Char) : fewest s s = 0 := by
  induction s with
  | nil => simp
  | cons c s ih => simp [fewest_cons_cons, ih]

theorem fewest_le_of_edits (h : Edits n s t) : fewest s t ≤ n := by
  induction h with
  | refl s => exact (fewest_self s).le
  | step _ e ih =>
    have := fewest_edit_le e
    exact (this _).trans (Nat.succ_le_succ ih)

end fewest

section rows

/-- The distances from `s` to every further part of `word`, where `seen` has been passed. Both
texts are kept in reverse, so that a row grows at their ends. -/
def fewestRow (s seen : List Char) : List Char → List Nat
  | [] => [fewest s seen]
  | d :: word => fewest s seen :: fewestRow s (d :: seen) word

variable (s seen word : List Char)

theorem headD_fewestRow : (fewestRow s seen word).headD 0 = fewest s seen := by
  cases word <;> rfl

theorem getLastD_fewestRow (last : Nat) :
    (fewestRow s seen word).getLastD last = fewest s (word.reverse ++ seen) := by
  induction word generalizing seen last with
  | nil => rfl
  | cons d word ih =>
    rw [fewestRow, List.getLastD_cons, ih, List.reverse_cons, List.append_assoc]
    rfl

theorem fewestRow_nil : fewestRow [] seen word = List.range' seen.length (word.length + 1) := by
  induction word generalizing seen with
  | nil => simp [fewestRow]
  | cons d word ih =>
    simp only [fewestRow, ih, fewest_nil_left, List.length_cons, List.range'_succ]

/-- One more character of the text: the new row comes from the old one. -/
theorem nextRow_fewestRow (c : Char) :
    nextRow c (fewest (c :: s) seen) (fewest s seen) word (fewestRow s seen word).tail =
      (fewestRow (c :: s) seen word).tail := by
  induction word generalizing seen with
  | nil => rfl
  | cons d word ih =>
    have hrow (r : List Char) : fewestRow r (d :: seen) word =
        fewest r (d :: seen) :: (fewestRow r (d :: seen) word).tail := by
      cases word <;> rfl
    have hbest : min (min (fewest (c :: s) seen + 1) (fewest s (d :: seen) + 1))
        (fewest s seen + if c = d then 0 else 1) = fewest (c :: s) (d :: seen) := by
      rw [fewest_cons_cons]
    simp only [fewestRow, List.tail_cons]
    rw [hrow s, hrow (c :: s), nextRow, hbest, ih]

theorem distances_fewestRow (rest : List Char) :
    distances word rest (fewestRow s [] word) = fewestRow (rest.reverse ++ s) [] word := by
  induction rest generalizing s with
  | nil => rfl
  | cons c rest ih =>
    have hhead : (fewestRow s [] word).headD 0 + 1 = fewest (c :: s) [] := by
      rw [headD_fewestRow, fewest_nil_right, fewest_nil_right, List.length_cons]
    have hrow : fewest (c :: s) [] :: (fewestRow (c :: s) [] word).tail =
        fewestRow (c :: s) [] word := by
      cases word <;> rfl
    rw [distances, hhead, headD_fewestRow, nextRow_fewestRow, hrow, ih]
    simp

theorem distance_eq_fewest (a b : String) :
    distance a b = fewest a.toList.reverse b.toList.reverse := by
  have hstart : List.range (b.toList.length + 1) = fewestRow [] [] b.toList := by
    rw [fewestRow_nil, List.range_eq_range', List.length_nil]
  simp only [distance, hstart, distances_fewestRow, getLastD_fewestRow, List.append_nil]

end rows

theorem edits_distance (a b : String) : Edits (distance a b) a.toList b.toList := by
  rw [distance_eq_fewest, ← Edits.reverse_iff]
  exact edits_fewest _ _

theorem distance_le_of_edits {a b : String} {n : Nat} (h : Edits n a.toList b.toList) :
    distance a b ≤ n := by
  rw [distance_eq_fewest]
  exact fewest_le_of_edits h.reverse

theorem distance_eq_editDistance (a b : String) : distance a b = editDistance a b := by
  have hmem : distance a b ∈ {n | Edits n a.toList b.toList} := edits_distance a b
  apply Nat.le_antisymm
  · exact distance_le_of_edits (Nat.sInf_mem ⟨_, hmem⟩)
  · exact Nat.sInf_le hmem

/-- Only a text itself is without distance. -/
theorem distance_eq_zero {a b : String} : distance a b = 0 ↔ a = b := by
  constructor
  · intro h
    have hedits := edits_distance a b
    rw [h] at hedits
    exact String.toList_injective hedits.eq_of_zero
  · rintro rfl
    have := distance_le_of_edits (.refl a.toList)
    omega

end QueryBlocks.Text
