import QueryBlocks.Proofs.Text.Edits
import QueryBlocks.Schema.FieldSet
import Mathlib.Data.Prod.Lex
import Mathlib.Data.String.Basic

/-!
Which field is suggested for a word that names none. The declared fields are kept sorted, so the
first of the nearest ones is the least in the order of strings, however they were declared.
-/
namespace QueryBlocks

section insertSorted

variable {word other : String} {names : List String}

theorem mem_insertSorted : other ∈ insertSorted word names ↔ other = word ∨ other ∈ names := by
  induction names with
  | nil => simp [insertSorted]
  | cons first more ih =>
    unfold insertSorted
    split
    · simp
    · split
      · subst word
        simp
      · simp only [List.mem_cons, ih]
        tauto

theorem pairwise_insertSorted (h : names.Pairwise (· < ·)) :
    (insertSorted word names).Pairwise (· < ·) := by
  induction names with
  | nil => simp [insertSorted]
  | cons first more ih =>
    obtain ⟨hfirst, hmore⟩ := List.pairwise_cons.mp h
    unfold insertSorted
    split
    · rename_i hlt
      refine List.pairwise_cons.mpr ⟨?_, h⟩
      intro other hother
      rcases List.mem_cons.mp hother with rfl | hother
      · exact hlt
      · exact lt_trans hlt (hfirst other hother)
    · rename_i hlt
      split
      · exact h
      · rename_i hne
        refine List.pairwise_cons.mpr ⟨?_, ih hmore⟩
        intro other hother
        rcases mem_insertSorted.mp hother with rfl | hother
        · exact lt_of_le_of_ne (not_lt.mp hlt) (Ne.symm hne)
        · exact hfirst other hother

end insertSorted

namespace FieldSet

variable {word found : String} {names fields : List String}

/-- The names of a set are the declared ones, and they are sorted. -/
theorem names_ofList (typeName : String) (fields : List String) :
    (∀ name, name ∈ (ofList typeName fields).names ↔ name ∈ fields) ∧
      (ofList typeName fields).names.Pairwise (· < ·) := by
  -- the fold starts from any sorted list, to which the declared names are added
  have hfold (names : List String) (h : names.Pairwise (· < ·)) :
      (∀ name, name ∈ fields.foldl (fun names field => insertSorted field names) names ↔
        name ∈ fields ∨ name ∈ names) ∧
      (fields.foldl (fun names field => insertSorted field names) names).Pairwise (· < ·) := by
    induction fields generalizing names with
    | nil => simpa using h
    | cons field more ih =>
      obtain ⟨hmem, hsorted⟩ := ih (insertSorted field names) (pairwise_insertSorted h)
      refine ⟨fun name => ?_, hsorted⟩
      rw [List.foldl_cons, hmem, mem_insertSorted, List.mem_cons]
      tauto
  simpa [ofList] using hfold [] .nil

/-- A name with its distance. Names at the same distance are in the order of strings. -/
noncomputable def rank (word name : String) : Nat ×ₗ String :=
  toLex (Text.editDistance word name, name)

theorem rank_injective (word : String) : Function.Injective (rank word) := by
  intro a b h
  exact congrArg (fun r => (ofLex r).2) h

theorem nearest_eq_none : nearest word names = none ↔ names = [] := by
  cases names with
  | nil => simp [nearest]
  | cons name more =>
    unfold nearest
    split
    · split <;> simp
    · simp

theorem nearest_cons_cases (name : String) :
    nearest word (name :: names) = some found →
      found = name ∧ (∀ other, nearest word names = some other →
        Text.editDistance word name ≤ Text.editDistance word other) ∨
      nearest word names = some found ∧
        Text.editDistance word found < Text.editDistance word name := by
  intro h
  unfold nearest at h
  simp only [Text.distance_eq_editDistance] at h
  split at h
  · rename_i other hother
    split at h
    · rename_i hle
      cases h
      refine .inl ⟨rfl, fun other' hother' => ?_⟩
      rw [hother] at hother'
      cases hother'
      exact hle
    · rename_i hlt
      cases h
      exact .inr ⟨hother, Nat.lt_of_not_le hlt⟩
  · rename_i hnone
    cases h
    refine .inl ⟨rfl, fun other hother => ?_⟩
    rw [hnone] at hother
    cases hother

/-- Of sorted names the one of least rank is chosen. -/
theorem nearest_least (hsorted : names.Pairwise (· < ·)) (h : nearest word names = some found) :
    found ∈ names ∧ ∀ other ∈ names, rank word found ≤ rank word other := by
  induction names generalizing found with
  | nil => simp [nearest] at h
  | cons name more ih =>
    obtain ⟨hfirst, hmore⟩ := List.pairwise_cons.mp hsorted
    rcases nearest_cons_cases name h with ⟨rfl, hle⟩ | ⟨hfound, hlt⟩
    · refine ⟨List.mem_cons_self, fun other hother => ?_⟩
      rcases List.mem_cons.mp hother with rfl | hother
      · exact le_rfl
      · -- the nearest of the others is at least as far, and comes later in the order
        have hne : nearest word more ≠ none := by
          rw [Ne, nearest_eq_none]
          exact List.ne_nil_of_mem hother
        obtain ⟨best, hbest⟩ := Option.ne_none_iff_exists'.mp hne
        obtain ⟨hmem, hleast⟩ := ih hmore hbest
        have hfront : rank word found ≤ rank word best := by
          rw [rank, rank, Prod.Lex.toLex_le_toLex]
          rcases (hle best hbest).lt_or_eq with hlt | heq
          · exact .inl hlt
          · exact .inr ⟨heq, (hfirst best hmem).le⟩
        exact hfront.trans (hleast other hother)
    · obtain ⟨hmem, hleast⟩ := ih hmore hfound
      refine ⟨List.mem_cons_of_mem name hmem, fun other hother => ?_⟩
      rcases List.mem_cons.mp hother with rfl | hother
      · rw [rank, rank, Prod.Lex.toLex_le_toLex]
        exact .inl hlt
      · exact hleast other hother

/-- Near enough to be suggested: up to two bytes a word must match exactly, up to five it may be
two edits away, and beyond that three. -/
def Near (word field : String) : Prop :=
  Text.editDistance word field ≤
    if 5 < word.utf8ByteSize then 3 else if 2 < word.utf8ByteSize then 2 else 0

theorem near_iff {field : String} :
    Near word field ↔ Text.distance word field ≤ tolerance word := by
  have htolerance : tolerance word =
      if 5 < word.utf8ByteSize then 3 else if 2 < word.utf8ByteSize then 2 else 0 := by
    unfold tolerance
    split_ifs <;> omega
  rw [Near, Text.distance_eq_editDistance, htolerance]

/-- The declared field that is near enough and of least rank among those that are. -/
structure Suggested (fields : List String) (word found : String) : Prop where
  declared : found ∈ fields
  near : Near word found
  least : ∀ other ∈ fields, Near word other → rank word found ≤ rank word other

theorem Suggested.unique {other : String} (h : Suggested fields word found)
    (hother : Suggested fields word other) : found = other :=
  rank_injective word (le_antisymm (h.least other hother.declared hother.near)
    (hother.least found h.declared h.near))

theorem Suggested.of_mem_iff {others : List String}
    (hmem : ∀ field, field ∈ others ↔ field ∈ fields)
    (h : Suggested fields word found) : Suggested others word found where
  declared := (hmem found).mpr h.declared
  near := h.near
  least other hother hnear := h.least other ((hmem other).mp hother) hnear

/-- A declared word has no rival: nothing else is without distance. -/
theorem suggested_self (h : word ∈ fields) : Suggested fields word word where
  declared := h
  near := by
    rw [near_iff, Text.distance_eq_zero.mpr rfl]
    exact Nat.zero_le _
  least other _ _ := by
    have hself := Text.distance_eq_zero.mpr (rfl : word = word)
    rw [rank, rank, Prod.Lex.toLex_le_toLex, ← Text.distance_eq_editDistance,
      ← Text.distance_eq_editDistance, hself]
    rcases (Nat.zero_le (Text.distance word other)).lt_or_eq with hlt | heq
    · exact .inl hlt
    · exact .inr ⟨heq, (Text.distance_eq_zero.mp heq.symm).le⟩

theorem suggest_eq_none (typeName : String) (fields : List String) (word : String) :
    (ofList typeName fields).suggest word = none ↔ ∀ field ∈ fields, ¬ Near word field := by
  rw [suggest, nearest_eq_none, List.filter_eq_nil_iff]
  simp only [decide_eq_true_eq, ← near_iff, (names_ofList typeName fields).1]

theorem suggested_of_suggest {typeName : String}
    (h : (ofList typeName fields).suggest word = some found) : Suggested fields word found := by
  obtain ⟨hmem, hsorted⟩ := names_ofList typeName fields
  obtain ⟨hfound, hleast⟩ := nearest_least (hsorted.filter _) h
  simp only [List.mem_filter, decide_eq_true_eq, ← near_iff, hmem] at hfound hleast
  exact ⟨hfound.1, hfound.2, fun other hother hnear => hleast other ⟨hother, hnear⟩⟩

theorem suggest_eq_some (typeName : String) :
    (ofList typeName fields).suggest word = some found ↔ Suggested fields word found := by
  refine ⟨suggested_of_suggest, fun h => ?_⟩
  cases hs : (ofList typeName fields).suggest word with
  | none => exact absurd h.near ((suggest_eq_none typeName fields word).mp hs found h.declared)
  | some other => rw [h.unique (suggested_of_suggest hs)]

/-- There is a suggestion if and only if a declared field is near enough to the word, and then it is
the nearest one, the first in the order of strings among those at the same distance. How often and
in which order the fields are declared does not matter, and a declared word stands for itself. -/
theorem suggest_nearest (typeName : String) (fields : List String) (word : String) :
    ((ofList typeName fields).suggest word = none ↔ ∀ field ∈ fields, ¬ Near word field) ∧
    (∀ found, (ofList typeName fields).suggest word = some found ↔
      Suggested fields word found) ∧
    (∀ otherName others, (∀ field, field ∈ others ↔ field ∈ fields) →
      (ofList otherName others).suggest word = (ofList typeName fields).suggest word) ∧
    ((ofList typeName fields).contains word = true →
      (ofList typeName fields).suggest word = some word) := by
  refine ⟨suggest_eq_none typeName fields word, fun found => suggest_eq_some typeName, ?_, ?_⟩
  · intro otherName others hmem
    ext found
    rw [suggest_eq_some, suggest_eq_some]
    exact ⟨.of_mem_iff fun field => (hmem field).symm, .of_mem_iff hmem⟩
  · intro hcontains
    have hword : word ∈ fields :=
      ((names_ofList typeName fields).1 word).mp (List.contains_iff_mem.mp hcontains)
    exact (suggest_eq_some typeName).mpr (suggested_self hword)

/-- Two fields are one edit away, and they are declared in another order and twice. -/
theorem suggest_nearest_tied :
    (∀ field, field ∈ ["names", "name", "game", "name"] ↔ field ∈ ["game", "name", "names"]) ∧
    (ofList "Player" ["names", "name", "game", "name"]).suggest "same" =
      (ofList "Person" ["game", "name", "names"]).suggest "same" ∧
    (ofList "Person" ["game", "name", "names"]).suggest "same" = some "game" ∧
    (ofList "Person" ["game", "name", "names"]).contains "name" = true ∧
    (ofList "Person" ["game", "name", "names"]).suggest "name" = some "name" := by
  have hmem : ∀ field, field ∈ ["names", "name", "game", "name"] ↔
      field ∈ ["game", "name", "names"] := by
    intro field
    simp only [List.mem_cons, List.not_mem_nil, or_false]
    tauto
  have hcontains : (ofList "Person" ["game", "name", "names"]).contains "name" = true := by
    decide
  exact ⟨hmem, (suggest_nearest "Person" _ "same").2.2.1 "Player" _ hmem, by decide, hcontains,
    (suggest_nearest "Person" _ "name").2.2.2 hcontains⟩

end FieldSet

end QueryBlocks
