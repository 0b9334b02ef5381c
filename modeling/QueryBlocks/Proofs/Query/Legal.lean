import QueryBlocks.Proofs.Query.Category

/-!
The rules that a store has for queries, stated for a finished query. A filter or sort key is checked
against the summary of what came before it; it passes exactly if the query with it is legal.
-/
namespace QueryBlocks

/-- The operators of inequality filters. -/
def FilterOp.inequalities : List FilterOp :=
  [.lessThan, .lessThanOrEqual, .greaterThan, .greaterThanOrEqual, .notEqual]

theorem FilterOp.isInequality_iff {op : FilterOp} :
    op.isInequality = true ↔ op ∈ FilterOp.inequalities := by
  cases op <;> decide

namespace Query

def inequalities (q : Query) : List Filter := q.filters.filter (·.op ∈ FilterOp.inequalities)

/-- The rules on inequality filters and what a query with them is sorted by. -/
structure InequalityRules (sorts : List SortKey) (fs : List Filter) : Prop where
  oneField : ∀ f ∈ fs, ∀ g ∈ fs, f.field = g.field
  atMostTwo : fs.length ≤ 2
  notEqualAlone : ∀ f ∈ fs, f.op = .notEqual → fs = [f]
  sortedFirst : ∀ key ∈ sorts.head?, ∀ f ∈ fs, key.field = f.field

/-- The rules that a store has for queries. -/
structure Legal (settings : Settings) (q : Query) : Prop where
  inequality : InequalityRules q.sorts q.inequalities
  kindlessFilters : q.origin.isKindless = true → ∀ f ∈ q.filters, f.field = settings.keyProperty
  kindlessSorts : q.origin.isKindless = true →
    ∀ key ∈ q.sorts, key.field = settings.keyProperty ∧ key.direction = .ascending
  cursorFilters : q.cursor = true → ∀ f ∈ q.filters, f.op ≠ .isIn ∧ f.op ≠ .notEqual

/-- The summary of a query says what its inequality filters are, and whether it has an ancestor and
no kind. -/
structure Consistent (q : Query) : Prop where
  field : q.inequalityField = q.inequalities.head?.map Filter.field
  count : q.inequalityCount = q.inequalities.length
  notEqual : q.hasNotEqual = true ↔ ∃ f ∈ q.inequalities, f.op = .notEqual
  kindless : q.kindlessAncestor = q.origin.isKindless

variable {settings : Settings} {q : Query} {f : Filter} {key : SortKey}

theorem consistent_empty : empty.Consistent := ⟨rfl, rfl, by simp [empty, inequalities], rfl⟩

theorem inequalities_withFilter : (q.withFilter f).inequalities =
    q.inequalities ++ if f.op ∈ FilterOp.inequalities then [f] else [] := by
  unfold withFilter
  split <;> simp [inequalities, List.filter_cons]

@[simp] theorem filters_withFilter : (q.withFilter f).filters = q.filters ++ [f] := by
  unfold withFilter
  split <;> rfl

@[simp] theorem sorts_withFilter : (q.withFilter f).sorts = q.sorts := by
  unfold withFilter
  split <;> rfl

@[simp] theorem origin_withFilter : (q.withFilter f).origin = q.origin := by
  unfold withFilter
  split <;> rfl

@[simp] theorem kindlessAncestor_withFilter :
    (q.withFilter f).kindlessAncestor = q.kindlessAncestor := by
  unfold withFilter
  split <;> rfl

@[simp] theorem cursor_withFilter : (q.withFilter f).cursor = q.cursor := by
  unfold withFilter
  split <;> rfl

theorem Consistent.inequalityField_of_nil (hq : q.Consistent) (h : q.inequalities = []) :
    q.inequalityField = none := by
  rw [hq.field, h]
  rfl

theorem Consistent.inequalityField_of_cons (hq : q.Consistent) {g : Filter} {more : List Filter}
    (h : q.inequalities = g :: more) : q.inequalityField = some g.field := by
  rw [hq.field, h]
  rfl

/-- The first inequality filter is not excluded. -/
theorem Consistent.excludes_of_nil (hq : q.Consistent) (h : q.inequalities = []) :
    q.excludes f = false := by
  have hne : q.hasNotEqual = false := by
    rw [Bool.eq_false_iff, Ne, hq.notEqual, h]
    simp
  simp [excludes, hne, hq.count, h]

/-- A further one is, if it is a not-equal filter or comes behind one. -/
theorem Consistent.excludes_iff_of_cons (hq : q.Consistent) {g : Filter} {more : List Filter}
    (h : q.inequalities = g :: more) :
    q.excludes f = true ↔ f.op = .notEqual ∨ ∃ h ∈ g :: more, h.op = .notEqual := by
  rw [excludes, Bool.or_eq_true, hq.notEqual, hq.count, h]
  simp [or_comm]

theorem Consistent.withFilter (hq : q.Consistent) : (q.withFilter f).Consistent := by
  have hkindless : (q.withFilter f).kindlessAncestor = (q.withFilter f).origin.isKindless := by
    rw [kindlessAncestor_withFilter, origin_withFilter, hq.kindless]
  have heq := inequalities_withFilter (q := q) (f := f)
  by_cases hop : f.op ∈ FilterOp.inequalities
  · rw [if_pos hop] at heq
    have hop' := FilterOp.isInequality_iff.2 hop
    refine ⟨?_, ?_, ?_, hkindless⟩ <;> rw [heq] <;> simp only [Query.withFilter, hop', if_true]
    · cases hall : q.inequalities with
      | nil => simp [claim, hq.inequalityField_of_nil hall, hq.excludes_of_nil hall]
      | cons g more => simp [hq.inequalityField_of_cons hall]
    · simp [hq.count]
    · simp [hq.notEqual, or_and_right, exists_or]
  · rw [if_neg hop, List.append_nil] at heq
    have hop' := mt FilterOp.isInequality_iff.1 hop
    refine ⟨?_, ?_, ?_, hkindless⟩ <;> rw [heq] <;> simp only [Query.withFilter, hop']
    · exact hq.field
    · exact hq.count
    · exact hq.notEqual

/-- What is asked of a new inequality filter: the field and the company of those before it, or the
field of the first sort key if it is the first. -/
theorem inequalityCauses_eq_nil (hq : q.Consistent) : q.inequalityCauses f = [] ↔
    match q.inequalities with
    | [] => ∀ key ∈ q.sorts.head?, key.field = f.field
    | g :: _ => g.field = f.field ∧ f.op ≠ .notEqual ∧ ∀ h ∈ q.inequalities, h.op ≠ .notEqual := by
  cases hall : q.inequalities with
  | nil =>
    simp only [inequalityCauses, hq.inequalityField_of_nil hall, hq.excludes_of_nil hall]
    cases q.sorts <;> simp
  | cons g more =>
    have hexcludes := hq.excludes_iff_of_cons (f := f) hall
    simp only [inequalityCauses, hq.inequalityField_of_cons hall]
    by_cases hg : g.field = f.field
    · simp only [hg, ne_eq, not_true_eq_false, if_false, true_and]
      by_cases hbad : q.excludes f = true
      · have := hexcludes.1 hbad
        simp only [hbad, if_true, List.cons_ne_self]
        grind
      · have := mt hexcludes.2 hbad
        simp only [hbad]
        grind
    · simp [hg]

theorem countCauses_eq_nil : q.countCauses f = [] ↔ q.inequalityCount < 2 := by
  unfold countCauses maxInequalities
  split
  · exact iff_of_false (List.cons_ne_nil _ _) (by omega)
  · exact iff_of_true rfl (by omega)

theorem filterCauses_eq_nil : q.filterCauses settings f = [] ↔
    (f.op ∈ FilterOp.inequalities → q.inequalityCauses f = [] ∧ q.inequalityCount < 2) ∧
      (q.kindlessAncestor = true → f.field = settings.keyProperty) ∧
      (q.cursor = true → f.op ≠ .isIn ∧ f.op ≠ .notEqual) := by
  rw [filterCauses, List.append_eq_nil_iff, List.append_eq_nil_iff, and_assoc,
    ← FilterOp.isInequality_iff]
  refine and_congr ?_ (and_congr ?_ ?_)
  · rw [ite_eq_right_iff, List.append_eq_nil_iff, countCauses_eq_nil]
  · simp
  · simp

theorem sortCauses_eq_nil {first : Bool} : q.sortCauses settings first key = [] ↔
    (q.kindlessAncestor = true → key.field = settings.keyProperty ∧ key.direction = .ascending) ∧
      (first = true → ∀ field ∈ q.inequalityField, field = key.field) := by
  rw [sortCauses, List.append_eq_nil_iff]
  refine and_congr ?_ ?_
  · cases hd : key.direction <;> by_cases hkey : key.field = settings.keyProperty <;> simp [hkey]
  · cases q.inequalityField <;> simp

/-- The rules on a list of inequality filters, as they are checked when one more comes in. -/
theorem inequalityRules_append {sorts : List SortKey} {fs : List Filter} :
    InequalityRules sorts (fs ++ [f]) ↔ InequalityRules sorts fs ∧
      (match fs with
        | [] => ∀ key ∈ sorts.head?, key.field = f.field
        | g :: _ => g.field = f.field ∧ f.op ≠ .notEqual ∧ ∀ h ∈ fs, h.op ≠ .notEqual) ∧
      fs.length < 2 := by
  match fs with
  | [] =>
    refine ⟨fun h => ⟨⟨by simp, by simp, by simp, by simp⟩, ?_, by simp⟩, fun h => ?_⟩
    · simpa using h.sortedFirst
    · exact ⟨by simp, by simp, by simp, by simpa using h.2.1⟩
  | [g] =>
    constructor
    · rintro ⟨hone, -, halone, hsorted⟩
      have hg : g ∈ [g] ++ [f] := by simp
      have hf : f ∈ [g] ++ [f] := by simp
      have hfield := hone g hg f hf
      have hsort (key : SortKey) (hkey : key ∈ sorts.head?) := hsorted key hkey g hg
      refine ⟨⟨by simp, by simp, by simp, by simpa using hsort⟩, ⟨hfield, ?_, ?_⟩, by simp⟩
      · intro hop
        simpa using halone f hf hop
      · intro h hh hop
        obtain rfl := List.mem_singleton.1 hh
        simpa using halone h hg hop
    · rintro ⟨⟨-, -, -, hsorted⟩, ⟨hfield, hop, hops⟩, -⟩
      have hg := hops g (by simp)
      refine ⟨?_, by simp, ?_, ?_⟩
      · simp [hfield]
      · simp [hop, hg]
      · intro key hkey
        have hsort := hsorted key hkey g (by simp)
        simp [hsort, hfield]
  | g :: h :: more =>
    refine ⟨fun hr => ?_, fun hr => ?_⟩
    · have := hr.atMostTwo
      simp at this
    · have := hr.2.2
      simp only [List.length_cons] at this
      omega

theorem inequalityRules_withFilter (hq : q.Consistent) :
    InequalityRules q.sorts (q.withFilter f).inequalities ↔
      InequalityRules q.sorts q.inequalities ∧
        (f.op ∈ FilterOp.inequalities → q.inequalityCauses f = [] ∧ q.inequalityCount < 2) := by
  rw [inequalities_withFilter, inequalityCauses_eq_nil hq, hq.count]
  by_cases hop : f.op ∈ FilterOp.inequalities
  · simp only [hop, if_true, true_imp_iff, inequalityRules_append]
  · simp [hop]

/-- A filter that breaks no rule when it comes in is one that keeps the query legal. -/
theorem legal_withFilter (hq : q.Consistent) : (q.withFilter f).Legal settings ↔
    q.Legal settings ∧ q.filterCauses settings f = [] := by
  rw [filterCauses_eq_nil, hq.kindless]
  constructor
  · rintro ⟨hrules, hkind, hsorts, hcursor⟩
    simp only [sorts_withFilter, filters_withFilter, origin_withFilter, cursor_withFilter,
      List.forall_mem_append, List.forall_mem_singleton] at hrules hkind hsorts hcursor
    obtain ⟨hrules, hnew⟩ := (inequalityRules_withFilter hq).1 hrules
    exact ⟨⟨hrules, fun h => (hkind h).1, hsorts, fun h => (hcursor h).1⟩, hnew,
      fun h => (hkind h).2, fun h => (hcursor h).2⟩
  · rintro ⟨⟨hrules, hkind, hsorts, hcursor⟩, hnew, hkindNew, hcursorNew⟩
    constructor <;> simp only [sorts_withFilter, filters_withFilter, origin_withFilter,
      cursor_withFilter, List.forall_mem_append, List.forall_mem_singleton]
    · exact (inequalityRules_withFilter hq).2 ⟨hrules, hnew⟩
    · exact fun h => ⟨hkind h, hkindNew h⟩
    · exact hsorts
    · exact fun h => ⟨hcursor h, hcursorNew h⟩

theorem Consistent.withSort (hq : q.Consistent) : (q.withSort key).Consistent :=
  ⟨hq.field, hq.count, hq.notEqual, hq.kindless⟩

/-- The inequality filters of a legal query agree in the field, so the first speaks for all. -/
theorem forall_field_of_oneField {fs : List Filter} {field : String}
    (hone : ∀ f ∈ fs, ∀ g ∈ fs, f.field = g.field)
    (hfirst : ∀ name ∈ fs.head?.map Filter.field, name = field) : ∀ f ∈ fs, field = f.field := by
  intro f hf
  cases fs with
  | nil => cases hf
  | cons g more => rw [← hfirst g.field rfl, hone f hf g (.head _)]

/-- A sort key that breaks no rule when it comes in keeps the query legal, if the field of the
inequality filters is asked of the first key only. -/
theorem legal_withSort (hq : q.Consistent) {first : Bool} (hfirst : first = q.sorts.isEmpty) :
    (q.withSort key).Legal settings ↔
      q.Legal settings ∧ q.sortCauses settings first key = [] := by
  rw [sortCauses_eq_nil, hq.field, hq.kindless, hfirst]
  constructor
  · rintro ⟨⟨hone, htwo, halone, hsorted⟩, hkind, hsorts, hcursor⟩
    simp only [withSort, List.forall_mem_append, List.forall_mem_singleton] at hsorts
    refine ⟨⟨⟨hone, htwo, halone, ?_⟩, hkind, fun h => (hsorts h).1, hcursor⟩,
      fun h => (hsorts h).2, ?_⟩
    · intro k hk
      refine hsorted k ?_
      cases hs : q.sorts <;> simp_all [withSort]
    · intro hempty field hfield
      obtain ⟨f, hf, rfl⟩ := Option.map_eq_some_iff.1 hfield
      refine (hsorted key ?_ f (List.mem_of_mem_head? hf)).symm
      simp [withSort, List.isEmpty_iff.1 hempty]
  · rintro ⟨⟨⟨hone, htwo, halone, hsorted⟩, hkind, hsorts, hcursor⟩, hkindNew, hfield⟩
    refine ⟨⟨hone, htwo, halone, ?_⟩, hkind, ?_, hcursor⟩
    · intro k hk
      cases hs : q.sorts with
      | nil =>
        obtain rfl : key = k := by simpa [withSort, hs] using hk
        exact forall_field_of_oneField hone (hfield (by simp [hs]))
      | cons first more => exact hsorted k (by simpa [withSort, hs] using hk)
    · simp only [withSort, List.forall_mem_append, List.forall_mem_singleton]
      exact fun h => ⟨hsorts h, hkindNew h⟩

theorem Consistent.congr {p : Query} (h : q.Consistent) (hfilters : p.filters = q.filters)
    (hfield : p.inequalityField = q.inequalityField)
    (hcount : p.inequalityCount = q.inequalityCount) (hne : p.hasNotEqual = q.hasNotEqual)
    (hkindless : p.kindlessAncestor = p.origin.isKindless) : p.Consistent := by
  obtain ⟨hf, hc, hn, -⟩ := h
  refine ⟨?_, ?_, ?_, hkindless⟩ <;> simpa only [inequalities, hfilters, hfield, hcount, hne]

/-- The rules look at filters, sort keys, origin and cursor only. -/
theorem Legal.congr {p : Query} (h : q.Legal settings) (hfilters : p.filters = q.filters)
    (hsorts : p.sorts = q.sorts) (horigin : p.origin = q.origin) (hcursor : p.cursor = q.cursor) :
    p.Legal settings := by
  obtain ⟨hrules, hkind, hkeys, hcur⟩ := h
  constructor <;> simpa only [inequalities, hfilters, hsorts, horigin, hcursor]

theorem legal_of_nil (hfilters : q.filters = []) (hsorts : q.sorts = []) : q.Legal settings := by
  constructor <;> simp [inequalities, hfilters, hsorts]
  constructor <;> simp

end Query

end QueryBlocks
