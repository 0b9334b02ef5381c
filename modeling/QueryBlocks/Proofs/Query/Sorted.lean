import QueryBlocks.Proofs.Query.Order
import QueryBlocks.Proofs.Query.Reported

/-!
Inequality filters and the first sort key. A query that has both is sorted by the field of the
filters first. The rule is asked in two places: of the first key of an `orderBy`, and of the sort
that is there when the first inequality filter comes in. What is reported of it and whether the
query breaks it stay in balance through both.
-/
namespace QueryBlocks

/-- The problem that a sort does not begin with the field of the inequality filters. -/
def Cause.isSortOrder : Cause → Bool
  | sortBeforeInequality .. => true
  | _ => false

theorem Cause.category_of_isSortOrder (cause : Cause) (h : cause.isSortOrder = true) :
    cause.category = .semantic := by
  cases cause <;> first | rfl | cases h

/-- The first key of an `orderBy`. -/
def Stmt.leadingKey? (s : Stmt) : Option Expr :=
  match s.keywordCall? with
  | some (.orderBy, args) => args.head?
  | _ => none

namespace Query

/-- A query with inequality filters that is sorted is sorted by their field first. -/
def WellSorted (q : Query) : Prop :=
  ∀ field ∈ q.inequalityField, ∀ key ∈ q.sorts.head?, key.field = field

instance (q : Query) : Decidable q.WellSorted :=
  inferInstanceAs (Decidable (∀ field ∈ q.inequalityField, _))

/-- How often a query breaks the rule. -/
def breaches (q : Query) : Nat := if q.WellSorted then 0 else 1

variable {settings : Settings} {q : Query} {f : Filter} {key : SortKey}

theorem breaches_congr {q' : Query} (hfield : q'.inequalityField = q.inequalityField)
    (hsorts : q'.sorts.head? = q.sorts.head?) : q'.breaches = q.breaches := by
  have hiff : q'.WellSorted ↔ q.WellSorted := by rw [WellSorted, WellSorted, hfield, hsorts]
  exact if_congr hiff rfl rfl

theorem breaches_withSort_of_ne (h : q.sorts ≠ []) : (q.withSort key).breaches = q.breaches :=
  breaches_congr rfl (List.head?_append_of_ne_nil _ h)

/-- The filter that claims the field for the others finds the sort that is there in order, or it is
reported. -/
theorem length_filterCauses :
    ((q.filterCauses settings f).filter Cause.isSortOrder).length + q.breaches =
      (q.withFilter f).breaches := by
  have hcounted : (q.countCauses f).filter Cause.isSortOrder = [] := by
    unfold countCauses
    split <;> rfl
  rw [filter_filterCauses (fun _ => rfl) (fun _ => rfl)]
  by_cases hop : f.op ∈ FilterOp.inequalities
  · have hfield : (q.withFilter f).inequalityField = q.inequalityField.or (q.claim f) := by
      simp [withFilter, FilterOp.isInequality_iff, hop]
    rw [if_pos hop, List.filter_append, hcounted, List.append_nil]
    cases hclaimed : q.inequalityField with
    | some claimed =>
      have hnone : (q.inequalityCauses f).filter Cause.isSortOrder = [] := by
        simp only [inequalityCauses, hclaimed]
        repeat' split
        all_goals rfl
      rw [hnone, breaches_congr (q := q) (hfield.trans (by simp [hclaimed])) (by simp)]
      simp
    | none =>
      rw [hclaimed, Option.none_or] at hfield
      simp only [inequalityCauses, breaches, WellSorted, claim, hclaimed, hfield,
        sorts_withFilter]
      by_cases hexcluded : q.excludes f = true
      · simp [hexcluded, List.filter, Cause.isSortOrder]
      · cases q.sorts with
        | nil => simp [hexcluded]
        | cons first _ =>
          by_cases hfirst : first.field = f.field <;>
            simp [hexcluded, hfirst, List.filter, Cause.isSortOrder]
  · have hfield : (q.withFilter f).inequalityField = q.inequalityField := by
      simp [withFilter, FilterOp.isInequality_iff, hop]
    rw [if_neg hop, breaches_congr hfield (by simp)]
    simp

/-- The first key of all is the field of the inequality filters so far, or it is reported. Of the
other keys nothing is asked. -/
theorem length_sortCauses {first : Bool} (hfirst : first = q.sorts.isEmpty) :
    ((q.sortCauses settings first key).filter Cause.isSortOrder).length + q.breaches =
      (q.withSort key).breaches := by
  have hkindless : (if q.kindlessAncestor then
      if key.field ≠ settings.keyProperty then [.kindlessSort settings.keyProperty key.field]
      else if key.direction = .descending then [.kindlessDescending settings.keyProperty]
      else []
    else []).filter Cause.isSortOrder = [] := by
    repeat' split
    all_goals rfl
  rw [sortCauses, List.filter_append, hkindless, List.nil_append, hfirst]
  by_cases hsorts : q.sorts = []
  · cases hfield : q.inequalityField with
    | none => simp [breaches, WellSorted, withSort, hfield]
    | some required =>
      by_cases hkey : required = key.field
      · simp [breaches, WellSorted, withSort, hfield, hsorts, hkey]
      · simp [breaches, WellSorted, withSort, hfield, hsorts, hkey, Ne.symm hkey, List.filter,
          Cause.isSortOrder]
  · rw [breaches_withSort_of_ne hsorts]
    cases q.inequalityField <;> simp [hsorts]

end Query

namespace Draft

variable {settings : Settings} {lookup : TypeLookup} {d : Draft}

/-- By how much the reports on the sort order exceed what the query breaks. -/
def surplus (d : Draft) : Int := (d.raised Cause.isSortOrder).length - d.query.breaches

theorem surplus_eq {e : Draft} {problems : List Diagnostic}
    (hraised : e.raised Cause.isSortOrder = d.raised Cause.isSortOrder ++ problems)
    (hbreaches : problems.length + d.query.breaches = e.query.breaches) :
    e.surplus = d.surplus := by
  simp only [surplus, hraised, List.length_append, ← hbreaches]
  omega

theorem surplus_congr {e : Draft}
    (hraised : e.raised Cause.isSortOrder = d.raised Cause.isSortOrder)
    (hbreaches : e.query.breaches = d.query.breaches) : e.surplus = d.surplus := by
  rw [surplus, surplus, hraised, hbreaches]

/-- An argument is reported exactly if the query breaks the rule with it and not without it. -/
theorem surplus_take {α : Type} {r : Restriction α} (hr : r.Lawful) {first : Bool} {arg : Expr}
    (hcauses : ∀ item, ((r.causes d.query first item).filter Cause.isSortOrder).length +
      d.query.breaches = (r.add d.query item).breaches) :
    (d.take settings r first arg).1.surplus = d.surplus := by
  have hraised : (d.take settings r first arg).1.raised Cause.isSortOrder = _ :=
    raised_take Cause.category_of_isSortOrder hr
  refine surplus_eq hraised ?_
  rw [query_take]
  cases r.read arg with
  | error x => exact Nat.zero_add _
  | ok read => simp only [List.length_map, hcauses]

theorem surplus_filters {args : List Expr} :
    (d.takeAll settings (.filtering settings) true args).1.surplus = d.surplus :=
  takeAll_keeps surplus fun _ _ _ _ =>
    surplus_take (Restriction.lawful_filtering settings) fun _ => Query.length_filterCauses

/-- The first key has to be taken for it. -/
theorem surplus_sort {first : Bool} {arg : Expr} (hfirst : first = d.query.sorts.isEmpty) :
    (d.take settings (.sorting settings) first arg).1.surplus = d.surplus :=
  surplus_take (Restriction.lawful_sorting settings) fun _ => Query.length_sortCauses hfirst

/-- The first key of a later `orderBy` does not change what the query breaks, but it may be
reported. -/
theorem surplus_le_sort {first : Bool} {arg : Expr} (h : d.query.sorts ≠ []) :
    d.surplus ≤ (d.take settings (.sorting settings) first arg).1.surplus := by
  have hbreaches : (d.take settings (.sorting settings) first arg).1.query.breaches =
      d.query.breaches := by
    rw [query_take]
    cases (Restriction.sorting settings).read arg with
    | error x => rfl
    | ok read => exact Query.breaches_withSort_of_ne h
  rw [surplus, surplus, raised_take Cause.category_of_isSortOrder
    (Restriction.lawful_sorting settings), hbreaches, List.length_append]
  omega

theorem sorts_ne_nil_of_sort {first : Bool} {arg : Expr} (h : d.query.sorts ≠ []) :
    (d.take settings (.sorting settings) first arg).1.query.sorts ≠ [] := by
  rw [query_take]
  cases (Restriction.sorting settings).read arg with
  | error x => exact h
  | ok read => simp [Query.withSort]

theorem surplus_sorts_of_ne {args : List Expr} (h : d.query.sorts ≠ []) :
    (d.takeAll settings (.sorting settings) false args).1.surplus = d.surplus := by
  induction args generalizing d with
  | nil => rfl
  | cons arg more ih =>
    rw [takeAll_cons_fst, ih (sorts_ne_nil_of_sort h), surplus_sort (by simp [h])]

/-- Only the first key of an `orderBy` matters if it is one. -/
theorem surplus_sorts_cons {arg : Expr} {more : List Expr} {key : SortKey}
    (hread : SortKey.read arg = .ok key) :
    (d.takeAll settings (.sorting settings) true (arg :: more)).1.surplus =
      (d.take settings (.sorting settings) true arg).1.surplus := by
  have hsorts : (d.take settings (.sorting settings) true arg).1.query.sorts ≠ [] := by
    rw [query_take, Restriction.read_sorting, hread]
    simp [Except.map, Query.withSort]
  exact surplus_sorts_of_ne hsorts

/-- A block that is sorted once has its sort reported exactly if the rule is broken. -/
theorem surplus_sorts {args : List Expr} (hnil : d.query.sorts = [])
    (hlead : ∀ arg ∈ args.head?, ∃ key, SortKey.read arg = .ok key) :
    (d.takeAll settings (.sorting settings) true args).1.surplus = d.surplus := by
  cases args with
  | nil => rfl
  | cons arg more =>
    obtain ⟨key, hread⟩ := hlead arg rfl
    rw [surplus_sorts_cons hread, surplus_sort (by simp [hnil])]

theorem surplus_le_sorts {args : List Expr}
    (hlead : ∀ arg ∈ args.head?, ∃ key, SortKey.read arg = .ok key) :
    d.surplus ≤ (d.takeAll settings (.sorting settings) true args).1.surplus := by
  by_cases hnil : d.query.sorts = []
  · exact Int.le_of_eq (surplus_sorts hnil hlead).symm
  · cases args with
    | nil => exact Int.le_refl _
    | cons arg more =>
      obtain ⟨key, hread⟩ := hlead arg rfl
      rw [surplus_sorts_cons hread]
      exact surplus_le_sort hnil

/-- Only an `orderBy` can bring the reports out of balance. -/
theorem surplus_statement_cases (settings : Settings) (lookup : TypeLookup) (d : Draft) (s : Stmt) :
    (d.statement settings lookup s).surplus = d.surplus ∨
      ∃ args, s.keywordCall? = some (.orderBy, args) ∧
        (d.statement settings lookup s) = d.orderBy settings args := by
  rcases statement_cases settings lookup d s with
    ⟨-, causes, pos, hs, hcauses⟩ | ⟨word, args, pos, hcall, hs⟩
  · rw [hs]
    exact .inl (surplus_congr
      (raised_report_of_vocabulary Cause.category_of_isSortOrder hcauses) rfl)
  · rw [hs]
    have hother (hword : word ≠ .where ∧ word ≠ .orderBy) :
        (d.keyword settings lookup pos args word).surplus = d.surplus := by
      obtain ⟨_, _, _, _, _, _, hquery, -⟩ := query_keyword settings lookup d pos args hword
      refine surplus_congr (raised_keyword Cause.category_of_isSortOrder hword) ?_
      rw [hquery]
      exact Query.breaches_congr rfl rfl
    cases word with
    | «where» => exact .inl surplus_filters
    | orderBy => exact .inr ⟨args, hcall, rfl⟩
    | select | cursor | «from» | fetchOptions => exact .inl (hother (by simp))

theorem surplus_statement {s : Stmt} (hnil : s.keyword? = some .orderBy → d.query.sorts = [])
    (hlead : ∀ arg ∈ s.leadingKey?, (SortKey.read arg).toOption.isSome) :
    (d.statement settings lookup s).surplus = d.surplus := by
  rcases surplus_statement_cases settings lookup d s with hsame | ⟨args, hcall, hs⟩
  · exact hsame
  · rw [hs]
    refine surplus_sorts (hnil (keyword?_of_call hcall)) fun arg harg => ?_
    have hsome := hlead arg (by rwa [Stmt.leadingKey?, hcall])
    cases hread : SortKey.read arg with
    | error x => simp [hread, Except.toOption] at hsome
    | ok key => exact ⟨key, rfl⟩

theorem surplus_le_statement {s : Stmt} (hform : (d.statement settings lookup s).WellFormed) :
    d.surplus ≤ (d.statement settings lookup s).surplus := by
  rcases surplus_statement_cases settings lookup d s with hsame | ⟨args, -, hs⟩
  · exact Int.le_of_eq hsame.symm
  · rw [hs] at hform ⊢
    refine surplus_le_sorts fun arg harg => ?_
    obtain ⟨more, rfl⟩ := List.head?_eq_some_iff.1 harg
    have hsort : (d.take settings (.sorting settings) true arg).1.WellFormed :=
      ⟨free_of_takeAll hform.1, free_of_takeAll hform.2⟩
    obtain ⟨key, fieldPos, hread⟩ :=
      exists_read_of_take (Restriction.lawful_sorting settings) hsort
    exact ⟨key, (Restriction.read_sorting_of_ok hread).1⟩

theorem surplus_le_foldl {statements : List Stmt}
    (hform : (statements.foldl (statement settings lookup) d).WellFormed) :
    d.surplus ≤ (statements.foldl (statement settings lookup) d).surplus := by
  induction statements generalizing d with
  | nil => exact Int.le_refl _
  | cons s more ih =>
    have hs : (d.statement settings lookup s).WellFormed :=
      ⟨free_of_foldl hform.1, free_of_foldl hform.2⟩
    exact Int.le_trans (surplus_le_statement hs) (ih hform)

/-- If the sorting is said once, reports and breaches stay in balance. -/
theorem surplus_foldl (settings : Settings) (lookup : TypeLookup) {statements : List Stmt}
    (hsort : ∀ s ∈ statements, s.keyword? = some .orderBy → d.query.sorts = [])
    (honce : (statements.filter (·.keyword? = some .orderBy)).length ≤ 1)
    (hlead : ∀ s ∈ statements, ∀ arg ∈ s.leadingKey?, (SortKey.read arg).toOption.isSome) :
    (statements.foldl (statement settings lookup) d).surplus = d.surplus := by
  induction statements generalizing d with
  | nil => rfl
  | cons s more ih =>
    have hmore : (more.filter (·.keyword? = some .orderBy)).length ≤ 1 :=
      Nat.le_trans ((List.sublist_cons_self s more).filter _).length_le honce
    have hstep : (d.statement settings lookup s).surplus = d.surplus :=
      surplus_statement (hsort s (.head _)) (hlead s (.head _))
    rw [List.foldl_cons, ih (sorts_statement_eq_nil hsort honce) hmore
      fun t ht => hlead t (.tail _ ht), hstep]

end Draft

/-- The query of a block without problems is sorted by the field of its inequality filters first. If
the sorting is said once and its first key can be read, then the rule is reported once if the query
breaks it and otherwise not at all, wherever the sorting stands. -/
theorem compile_sort_order (settings : Settings) (lookup : TypeLookup) (statements : List Stmt) :
    ((compile settings lookup statements).2 = [] →
      (compile settings lookup statements).1.WellSorted) ∧
    ((statements.filter (·.keyword? = some .orderBy)).length ≤ 1 →
      (∀ s ∈ statements, ∀ arg ∈ s.leadingKey?, (SortKey.read arg).toOption.isSome) →
      (compile settings lookup statements).2.countP (·.cause.isSortOrder) =
        if (compile settings lookup statements).1.WellSorted then 0 else 1) := by
  have hempty : Draft.empty.surplus = 0 := rfl
  have hcount : (compile settings lookup statements).2.countP (·.cause.isSortOrder) =
      (compile settings lookup statements).1.breaches +
        (statements.foldl (Draft.statement settings lookup) .empty).surplus := by
    simp only [Draft.surplus, Draft.raised, List.countP_eq_length_filter, compile]
    omega
  constructor
  · intro hnone
    have hfree := Draft.diagnostics_eq_nil_iff.1 hnone
    have hle := Draft.surplus_le_foldl (d := .empty) ⟨hfree .shape, hfree .vocabulary⟩
    rw [hnone, List.countP_nil] at hcount
    have hzero : (compile settings lookup statements).1.breaches = 0 := by omega
    by_contra hbad
    rw [Query.breaches, if_neg hbad] at hzero
    cases hzero
  · intro honce hlead
    have heq := Draft.surplus_foldl settings lookup (d := .empty) (fun _ _ _ => rfl) honce hlead
    rw [Query.breaches] at hcount
    omega

/-- A block that is sorted twice around its filter, and one whose filters on another field come
after the sorting. -/
theorem compile_sort_order_interleaved :
    (∃ block,
      Block.read "orderBy age\nwhere age > 1\norderBy age as DESC, name\nfrom Person" = .ok block ∧
      (compile .standard .permissive block.statements).2 = [] ∧
      (compile .standard .permissive block.statements).1.inequalityField = some "age" ∧
      (compile .standard .permissive block.statements).1.WellSorted) ∧
    ∃ block,
      Block.read "where name == n\norderBy age as DESC, name\nwhere size > 1, size < 9" =
        .ok block ∧
      (block.statements.filter (·.keyword? = some .orderBy)).length = 1 ∧
      (∀ s ∈ block.statements, ∀ arg ∈ s.leadingKey?, (SortKey.read arg).toOption.isSome) ∧
      ¬ (compile .standard .permissive block.statements).1.WellSorted ∧
      (compile .standard .permissive block.statements).2.countP (·.cause.isSortOrder) = 1 := by
  constructor
  · refine Block.exists_read (fun block (h :
      (compile .standard .permissive block.statements).2 = [] ∧
      (compile .standard .permissive block.statements).1.inequalityField = some "age") => ?_)
      (by decide +kernel)
    exact ⟨h.1, h.2, (compile_sort_order .standard .permissive block.statements).1 h.1⟩
  · refine Block.exists_read (fun block (h :
      (block.statements.filter (·.keyword? = some .orderBy)).length = 1 ∧
      (∀ s ∈ block.statements, ∀ arg ∈ s.leadingKey?, (SortKey.read arg).toOption.isSome) ∧
      ¬ (compile .standard .permissive block.statements).1.WellSorted) => ?_)
      (by decide +kernel)
    obtain ⟨honce, hlead, hbad⟩ := h
    refine ⟨honce, hlead, hbad, ?_⟩
    rw [(compile_sort_order .standard .permissive block.statements).2 honce.le hlead, if_neg hbad]

/-- A first key that cannot be read is passed over, and the second is not asked to be the field. -/
example : (Block.read "where size > 1\norderBy 1, age").toOption.map (fun block =>
    let (q, problems) := compile .standard .permissive block.statements
    (decide q.WellSorted, problems.countP (·.cause.isSortOrder))) = some (false, 0) := by
  decide +kernel

end QueryBlocks
