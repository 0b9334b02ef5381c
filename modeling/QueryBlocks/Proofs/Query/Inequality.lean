import QueryBlocks.Proofs.Query.Reported
import Mathlib.Data.List.Basic

/-!
The problems of inequality filters. The compiler decides from a field, a number and a flag what is
wrong with a filter; here it is said in terms of the filters that stand before it. Over all
statements of a block, whatever else they hold, exactly these problems are reported.
-/
namespace QueryBlocks

/-- A filter with the place of its predicate. -/
structure Predicate where
  filter : Filter
  pos : Position

/-- The predicates among arguments that are inequality filters. -/
def Predicate.inequalities (args : List Expr) : List Predicate :=
  (args.filterMap fun arg => (Filter.read arg).toOption.map fun (f, _) => ⟨f, arg.pos⟩).filter
    (·.filter.op ∈ FilterOp.inequalities)

/-- The inequality filters that a statement adds. -/
def Stmt.inequalities (s : Stmt) : List Predicate :=
  match s.keywordCall? with
  | some (.where, args) => Predicate.inequalities args
  | _ => []

/-- What is wrong with an inequality filter after these. All are to be on the field of the first,
one with `!=` is to be the only one on it, and there may be two. -/
def inequalityBreaches : List Filter → Filter → List Cause
  | [], _ => []
  | first :: others, f =>
    (if f.field ≠ first.field then [.inequalityConflict first.field f.field] else []) ++
      (if f.field = first.field ∧
          (f.op = .notEqual ∨ ∃ g ∈ first :: others, g.op = .notEqual) then
        [.notEqualConflict] else []) ++
      (if 2 ≤ (first :: others).length then [.tooManyInequalities f.field] else [])

/-- The problems of inequality filters in the order of their predicates. -/
def inequalityProblems (ps : List Predicate) : List Diagnostic :=
  ps.zipIdx.flatMap fun (p, k) =>
    (inequalityBreaches ((ps.take k).map Predicate.filter) p.filter).map (⟨·, p.pos⟩)

/-- The causes that have to do with inequality filters alone. -/
def Cause.isInequality : Cause → Bool
  | inequalityConflict .. | notEqualConflict | tooManyInequalities .. => true
  | _ => false

theorem Cause.category_of_isInequality (cause : Cause) (h : cause.isInequality = true) :
    cause.category = .semantic := by
  cases cause <;> first | rfl | cases h

theorem inequalityProblems_concat (ps : List Predicate) (p : Predicate) :
    inequalityProblems (ps ++ [p]) = inequalityProblems ps ++
      (inequalityBreaches (ps.map Predicate.filter) p.filter).map (⟨·, p.pos⟩) := by
  rw [inequalityProblems, List.zipIdx_append, List.flatMap_append]
  congr 1
  · refine List.flatMap_congr fun x hx => ?_
    have hlt : x.2 < ps.length := by simpa using List.snd_lt_add_of_mem_zipIdx hx
    simp only [List.take_append_of_le_length (Nat.le_of_lt hlt)]
  · simp

namespace Query

variable {settings : Settings} {q : Query} {f : Filter}

/-- What is wrong with an inequality filter can be seen from the filters before it. -/
theorem filter_eq_breaches (hq : q.Consistent) :
    (q.inequalityCauses f ++ q.countCauses f).filter Cause.isInequality =
      inequalityBreaches q.inequalities f := by
  have hcounted : (q.countCauses f).filter Cause.isInequality = q.countCauses f := by
    unfold countCauses
    split <;> rfl
  rw [List.filter_append, hcounted]
  cases hall : q.inequalities with
  | nil =>
    have hcount : q.inequalityCount = 0 := by rw [hq.count, hall]; rfl
    have hnone : (q.inequalityCauses f).filter Cause.isInequality = [] := by
      simp only [inequalityCauses, hq.inequalityField_of_nil hall, hq.excludes_of_nil hall]
      cases q.sorts with
      | nil => rfl
      | cons first _ =>
        by_cases hfirst : first.field = f.field <;> simp [hfirst, Cause.isInequality]
    simp [hnone, countCauses, hcount, maxInequalities, inequalityBreaches]
  | cons g more =>
    have hcount : q.inequalityCount = more.length + 1 := by rw [hq.count, hall]; rfl
    have hcauses : q.countCauses f =
        if 2 ≤ (g :: more).length then [.tooManyInequalities f.field] else [] := by
      rw [countCauses, hcount]
      exact if_congr (by simp [maxInequalities]; omega) rfl rfl
    rw [hcauses, inequalityBreaches, inequalityCauses, hq.inequalityField_of_cons hall]
    congr 1
    simp only [hq.excludes_iff_of_cons hall]
    by_cases hg : g.field = f.field
    · simp only [hg, ne_eq, not_true_eq_false, if_false, true_and, List.nil_append]
      split <;> rfl
    · simp [hg, Ne.symm hg, Cause.isInequality]

theorem filter_sortCauses {first : Bool} {key : SortKey} :
    (q.sortCauses settings first key).filter Cause.isInequality = [] := by
  unfold sortCauses
  repeat' split
  all_goals rfl

end Query

theorem Predicate.inequalities_of_error {arg : Expr} {x : Diagnostic}
    (hread : Filter.read arg = .error x) : inequalities [arg] = [] := by
  simp [inequalities, hread, Except.toOption]

theorem Predicate.inequalities_of_ok {arg : Expr} {f : Filter} {fieldPos : Position}
    (hread : Filter.read arg = .ok (f, fieldPos)) : inequalities [arg] =
      if f.op ∈ FilterOp.inequalities then [⟨f, arg.pos⟩] else [] := by
  simp [inequalities, hread, Except.toOption, List.filter_cons]

theorem Predicate.inequalities_cons (arg : Expr) (more : List Expr) :
    inequalities (arg :: more) = inequalities [arg] ++ inequalities more := by
  rw [inequalities, ← List.singleton_append, List.filterMap_append, List.filter_append]
  rfl

namespace Draft

variable {settings : Settings} {lookup : TypeLookup} {d : Draft} {ps : List Predicate}

/-- The inequality filters of a draft are these predicates, and what is wrong with them has been
reported. -/
structure Examined (ps : List Predicate) (d : Draft) : Prop where
  consistent : d.query.Consistent
  predicates : d.query.inequalities = ps.map Predicate.filter
  raised : d.raised Cause.isInequality = inequalityProblems ps

theorem examined_empty : empty.Examined [] := ⟨Query.consistent_empty, rfl, rfl⟩

theorem Examined.congr {e : Draft} (h : d.Examined ps) (hconsistent : e.query.Consistent)
    (hfilters : e.query.filters = d.query.filters)
    (hraised : e.raised Cause.isInequality = d.raised Cause.isInequality) : e.Examined ps where
  consistent := hconsistent
  predicates := by rw [Query.inequalities, hfilters, ← Query.inequalities, h.predicates]
  raised := hraised.trans h.raised

/-- A predicate comes in as a filter, and what is wrong with it is reported. -/
theorem Examined.filter {first : Bool} {arg : Expr} (h : d.Examined ps) :
    (d.take settings (.filtering settings) first arg).1.Examined
      (ps ++ Predicate.inequalities [arg]) := by
  have hraised :
      (d.take settings (.filtering settings) first arg).1.raised Cause.isInequality = _ :=
    raised_take Cause.category_of_isInequality (Restriction.lawful_filtering settings)
  have hquery : (d.take settings (.filtering settings) first arg).1.query = _ := query_take
  cases hread : (Restriction.filtering settings).read arg with
  | error x =>
    simp only [hread] at hraised hquery
    rw [Predicate.inequalities_of_error hread, List.append_nil]
    refine h.congr ?_ (congrArg Query.filters hquery) (hraised.trans (List.append_nil _))
    rw [hquery]
    exact h.consistent
  | ok read =>
    obtain ⟨f, fieldPos⟩ := read
    simp only [hread, Restriction.causes_filtering, Restriction.add_filtering] at hraised hquery
    have hconsistent : (d.take settings (.filtering settings) first arg).1.query.Consistent := by
      rw [hquery]
      exact h.consistent.withFilter
    have hinequalities : (d.take settings (.filtering settings) first arg).1.query.inequalities =
        d.query.inequalities ++ if f.op ∈ FilterOp.inequalities then [f] else [] := by
      rw [hquery, Query.inequalities_withFilter]
    rw [Query.filter_filterCauses (fun _ => rfl) (fun _ => rfl)] at hraised
    rw [Predicate.inequalities_of_ok hread]
    by_cases hop : f.op ∈ FilterOp.inequalities
    · simp only [hop, if_true] at hraised hinequalities ⊢
      refine ⟨hconsistent, ?_, ?_⟩
      · rw [hinequalities, h.predicates, List.map_append, List.map_singleton]
      · rw [inequalityProblems_concat, ← h.predicates,
          ← Query.filter_eq_breaches h.consistent, ← h.raised, hraised]
    · simp only [hop, if_false, List.append_nil, List.map_nil] at hraised hinequalities ⊢
      exact ⟨hconsistent, hinequalities.trans h.predicates, hraised.trans h.raised⟩

theorem Examined.filters {args : List Expr} (h : d.Examined ps) :
    (d.takeAll settings (.filtering settings) true args).1.Examined
      (ps ++ Predicate.inequalities args) := by
  refine takeAll_run (R := fun args d e => ∀ ps, d.Examined ps →
    e.1.Examined (ps ++ Predicate.inequalities args)) (fun d ps h => ?_)
    (fun hfirst hrest ps h => ?_) (fun d first arg _ ps h => h.filter) ps h
  · simpa [Predicate.inequalities] using h
  · rw [Predicate.inequalities_cons, ← List.append_assoc]
    exact hrest _ (hfirst ps h)

theorem Examined.sort {first : Bool} {arg : Expr} (h : d.Examined ps) :
    (d.take settings (.sorting settings) first arg).1.Examined ps := by
  have hraised : (d.take settings (.sorting settings) first arg).1.raised Cause.isInequality = _ :=
    raised_take Cause.category_of_isInequality (Restriction.lawful_sorting settings)
  have hquery : (d.take settings (.sorting settings) first arg).1.query = _ := query_take
  cases hread : (Restriction.sorting settings).read arg with
  | error x =>
    simp only [hread] at hraised hquery
    refine h.congr ?_ (congrArg Query.filters hquery) (hraised.trans (List.append_nil _))
    rw [hquery]
    exact h.consistent
  | ok read =>
    simp only [hread, Restriction.causes_sorting, Restriction.add_sorting] at hraised hquery
    refine h.congr ?_ ?_ ?_
    · rw [hquery]
      exact h.consistent.withSort
    · rw [hquery]
      rfl
    · simp [hraised, Query.filter_sortCauses]

theorem Examined.sorts {args : List Expr} (h : d.Examined ps) :
    (d.takeAll settings (.sorting settings) true args).1.Examined ps :=
  takeAll_run (R := fun _ d e => d.Examined ps → e.1.Examined ps) (fun _ => id)
    (fun hfirst hrest h => hrest (hfirst h)) (fun _ _ _ _ h => h.sort) h

theorem Examined.withClause {clause : Clause} (h : d.Examined ps) :
    (d.withClause clause).Examined ps :=
  h.congr (h.consistent.congr rfl rfl rfl rfl h.consistent.kindless) rfl rfl

theorem Examined.statement {s : Stmt} (h : d.Examined ps) :
    (d.statement settings lookup s).Examined (ps ++ s.inequalities) := by
  rcases statement_cases settings lookup d s with
    ⟨hcall, causes, pos, hs, hcauses⟩ | ⟨word, args, pos, hcall, hs⟩
  · rw [hs, Stmt.inequalities, hcall, List.append_nil]
    exact h.congr h.consistent rfl
      (raised_report_of_vocabulary Cause.category_of_isInequality hcauses)
  · rw [hs, Stmt.inequalities, hcall]
    have hother (hword : word ≠ .where ∧ word ≠ .orderBy) :
        (d.keyword settings lookup pos args word).Examined ps := by
      exact h.congr (consistent_keyword hword h.consistent) (filters_keyword hword.1)
        (raised_keyword Cause.category_of_isInequality hword)
    cases word with
    | «where» => exact h.filters.withClause
    | orderBy =>
      rw [List.append_nil]
      exact h.sorts.withClause
    | select | cursor | «from» | fetchOptions => simpa using hother (by simp)

end Draft

/-- Over all statements of a block, exactly these problems of inequality filters are reported. -/
theorem compile_inequality_problems (settings : Settings) (lookup : TypeLookup)
    (statements : List Stmt) :
    (compile settings lookup statements).1.inequalities =
        (statements.flatMap Stmt.inequalities).map Predicate.filter ∧
      (compile settings lookup statements).2.filter (fun x => x.cause.isInequality) =
        inequalityProblems (statements.flatMap Stmt.inequalities) := by
  have hrun (d : Draft) (ps : List Predicate) (h : d.Examined ps) :
      (statements.foldl (Draft.statement settings lookup) d).Examined
        (ps ++ statements.flatMap Stmt.inequalities) := by
    induction statements generalizing d ps with
    | nil => simpa using h
    | cons s more ih =>
      rw [List.foldl_cons, List.flatMap_cons, ← List.append_assoc]
      exact ih _ _ h.statement
  have hexamined := hrun .empty [] Draft.examined_empty
  exact ⟨hexamined.predicates, hexamined.raised⟩

end QueryBlocks
