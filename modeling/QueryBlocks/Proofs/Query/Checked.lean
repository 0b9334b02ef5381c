import QueryBlocks.Proofs.Query.Legal
import QueryBlocks.Script.Read

/-!
The checker of queries is exact. If the statements of a block come in canonical order and are well
formed, nothing semantic is reported exactly if the query that results is legal.
-/
namespace QueryBlocks

/-- The keyword that a statement calls. -/
def Stmt.keyword? (s : Stmt) : Option Keyword := s.keywordCall?.map (·.1)

/-- Statements that say what is queried. -/
def Stmt.IsTarget (s : Stmt) : Prop :=
  s.keyword? = some .from ∨ s.keyword? = some .select ∨ s.keyword? = some .cursor

/-- Statements that restrict or sort it. -/
def Stmt.IsRestriction (s : Stmt) : Prop :=
  s.keyword? = some .where ∨ s.keyword? = some .orderBy

/-- What is queried comes before what restricts or sorts it, and the sorting is said once. -/
structure Canonical (statements : List Stmt) : Prop where
  targetFirst : statements.Pairwise fun a b => a.IsRestriction → ¬ b.IsTarget
  sortedOnce : (statements.filter (·.keyword? = some .orderBy)).length ≤ 1

instance (s : Stmt) : Decidable s.IsTarget := inferInstanceAs (Decidable (_ ∨ _))

instance (s : Stmt) : Decidable s.IsRestriction := inferInstanceAs (Decidable (_ ∨ _))

instance (statements : List Stmt) : Decidable (Canonical statements) :=
  decidable_of_iff (_ ∧ _) ⟨fun h => ⟨h.1, h.2⟩, fun h => ⟨h.1, h.2⟩⟩

namespace Draft

variable {settings : Settings} {lookup : TypeLookup} {d : Draft}

/-- Every statement so far had the form that is asked for. -/
def WellFormed (d : Draft) : Prop := d.Free .shape ∧ d.Free .vocabulary

/-- What has been reported is a judgement on the query so far. -/
structure Judged (settings : Settings) (d : Draft) : Prop where
  consistent : d.query.Consistent
  exact : d.Free .semantic ↔ d.query.Legal settings

theorem judged_empty : empty.Judged settings where
  consistent := Query.consistent_empty
  exact := iff_of_true free_empty (Query.legal_of_nil rfl rfl)

theorem Judged.withClause {clause : Clause} (h : d.Judged settings) :
    (d.withClause clause).Judged settings where
  consistent := h.consistent.congr rfl rfl rfl rfl h.consistent.kindless
  exact := h.exact.trans ⟨(·.congr rfl rfl rfl rfl), (·.congr rfl rfl rfl rfl)⟩

theorem forall_ne_semantic {causes : List Cause}
    (h : ∀ cause ∈ causes, cause.category = .semantic) :
    (∀ cause ∈ causes, cause.category ≠ .semantic) ↔ causes = [] := by
  constructor
  · intro hne
    exact List.eq_nil_iff_forall_not_mem.2 fun cause hmem => hne cause hmem (h cause hmem)
  · rintro rfl
    simp

theorem fieldCauses_ne_semantic {fields : Option FieldSet} {field : String} :
    ∀ cause ∈ fieldCauses settings fields field, cause.category ≠ .semantic := by
  intro cause hcause
  rw [fieldCauses_category hcause]
  decide

section arguments

variable {α : Type} {r : Restriction α} {first : Bool} {arg : Expr} {args : List Expr}

theorem exists_read_of_take (hr : r.Lawful) (hform : (d.take settings r first arg).1.WellFormed) :
    ∃ item fieldPos, r.read arg = .ok (item, fieldPos) := by
  cases hread : r.read arg with
  | error x =>
    have hshape := (free_take.1 hform.1).2
    have hword := (free_take.1 hform.2).2
    rw [hread] at hshape hword
    rcases hr.formal hread with h | h
    · exact absurd h hshape
    · exact absurd h hword
  | ok read => exact ⟨read.1, read.2, rfl⟩

/-- The rules find nothing wrong with what is added exactly if the query stays legal with it. -/
def Exact (settings : Settings) (r : Restriction α) (first : Bool) (q : Query) : Prop :=
  ∀ item, (r.add q item).Consistent ∧
    ((r.add q item).Legal settings ↔ q.Legal settings ∧ r.causes q first item = [])

/-- A well-formed argument is read, and the draft with it is judged anew. -/
theorem judged_take (hr : r.Lawful) (hexact : Exact settings r first d.query)
    (hd : d.Judged settings) (hform : (d.take settings r first arg).1.WellFormed) :
    (d.take settings r first arg).1.Judged settings := by
  obtain ⟨item, fieldPos, hread⟩ := exists_read_of_take hr hform
  obtain ⟨hconsistent, hlegal⟩ := hexact item
  constructor <;> rw [query_take, hread]
  · exact hconsistent
  · rw [free_take, hread, hlegal, hd.exact]
    exact and_congr_right fun _ => (and_iff_right fieldCauses_ne_semantic).trans
      (forall_ne_semantic fun _ => hr.semantic)

/-- The arguments of a statement are judged one by one, if the rules are exact for each that comes
in. -/
theorem judged_takeAll (hr : r.Lawful) (Ready : Bool → Query → Prop)
    (hready : ∀ {first q}, q.Consistent → Ready first q →
      Exact settings r first q ∧ ∀ item, Ready false (r.add q item))
    (hd : d.Judged settings) (hfirst : Ready first d.query)
    (hform : (d.takeAll settings r first args).1.WellFormed) :
    (d.takeAll settings r first args).1.Judged settings := by
  induction args generalizing d first with
  | nil => exact hd
  | cons arg more ih =>
    obtain ⟨hexact, hnext⟩ := hready hd.consistent hfirst
    have hform' : (d.take settings r first arg).1.WellFormed :=
      ⟨free_of_takeAll hform.1, free_of_takeAll hform.2⟩
    obtain ⟨item, fieldPos, hread⟩ := exists_read_of_take hr hform'
    have hrest : Ready false (d.take settings r first arg).1.query := by
      rw [query_take, hread]
      exact hnext item
    exact ih (judged_take hr hexact hd hform') hrest hform

end arguments

theorem judged_filters {args : List Expr} (hd : d.Judged settings)
    (hform : (d.takeAll settings (.filtering settings) true args).1.WellFormed) :
    (d.takeAll settings (.filtering settings) true args).1.Judged settings :=
  judged_takeAll (Restriction.lawful_filtering settings) (fun _ _ => True)
    (fun hq _ => ⟨fun _ => ⟨hq.withFilter, Query.legal_withFilter hq⟩, fun _ => trivial⟩) hd trivial
    hform

/-- Of the keys of one statement, the first is the one that finds no key before it. -/
theorem judged_sorts {args : List Expr} (hd : d.Judged settings) (hnil : d.query.sorts = [])
    (hform : (d.takeAll settings (.sorting settings) true args).1.WellFormed) :
    (d.takeAll settings (.sorting settings) true args).1.Judged settings := by
  refine judged_takeAll (Restriction.lawful_sorting settings)
    (fun first q => first = q.sorts.isEmpty) (fun hq hfirst => ⟨fun _ => ?_, fun _ => ?_⟩)
    hd (by simp [hnil]) hform
  · exact ⟨hq.withSort, Query.legal_withSort hq hfirst⟩
  · simp [Query.withSort]

theorem sorts_filters {args : List Expr} :
    (d.takeAll settings (.filtering settings) true args).1.query.sorts = d.query.sorts := by
  refine takeAll_keeps (·.query.sorts) fun d first arg _ => ?_
  simp only [query_take]
  split
  · rfl
  · exact Query.sorts_withFilter

theorem filters_sorts {args : List Expr} :
    (d.takeAll settings (.sorting settings) true args).1.query.filters = d.query.filters := by
  refine takeAll_keeps (·.query.filters) fun d first arg _ => ?_
  simp only [query_take]
  split <;> rfl

/-- Statements other than `where` and `orderBy` leave the filters, the sort keys and the summary of
the filters alone, and with an origin they set what is known of it. -/
theorem query_keyword (settings : Settings) (lookup : TypeLookup) (d : Draft) (pos : Position)
    (args : List Expr) {word : Keyword} (h : word ≠ .where ∧ word ≠ .orderBy) :
    ∃ selection cursor origin kindlessAncestor fetch clauses,
    (d.keyword settings lookup pos args word).query =
      { d.query with selection, cursor, origin, kindlessAncestor, fetch, clauses } ∧
    (d.query.kindlessAncestor = d.query.origin.isKindless →
      kindlessAncestor = origin.isKindless) := by
  cases word with
  | select | cursor | fetchOptions => exact ⟨_, _, _, _, _, _, rfl, id⟩
  | «from» =>
    cases args with
    | nil => exact ⟨_, _, _, _, _, _, rfl, id⟩
    | cons first more =>
      rw [keyword, Draft.from]
      by_cases hmore : more.length > 1 <;> simp only [hmore, if_true, if_false] <;>
        exact ⟨_, _, _, _, _, _, rfl, fun _ => rfl⟩
  | «where» => exact absurd rfl h.1
  | orderBy => exact absurd rfl h.2

theorem consistent_keyword {pos : Position} {args : List Expr} {word : Keyword}
    (h : word ≠ .where ∧ word ≠ .orderBy) (hd : d.query.Consistent) :
    (d.keyword settings lookup pos args word).query.Consistent := by
  obtain ⟨_, _, _, _, _, _, hquery, hkindless⟩ := query_keyword settings lookup d pos args h
  rw [hquery]
  exact hd.congr rfl rfl rfl rfl (hkindless hd.kindless)

theorem filters_keyword {pos : Position} {args : List Expr} {word : Keyword} (h : word ≠ .where) :
    (d.keyword settings lookup pos args word).query.filters = d.query.filters := by
  by_cases horder : word = .orderBy
  · subst horder
    exact filters_sorts
  · obtain ⟨_, _, _, _, _, _, hquery, -⟩ := query_keyword settings lookup d pos args ⟨h, horder⟩
    rw [hquery]

theorem sorts_keyword {pos : Position} {args : List Expr} {word : Keyword} (h : word ≠ .orderBy) :
    (d.keyword settings lookup pos args word).query.sorts = d.query.sorts := by
  by_cases hwhere : word = .where
  · subst hwhere
    exact sorts_filters
  · obtain ⟨_, _, _, _, _, _, hquery, -⟩ := query_keyword settings lookup d pos args ⟨hwhere, h⟩
    rw [hquery]

/-- While there is nothing to judge, the target of a query may still change. -/
theorem judged_target {pos : Position} {args : List Expr} {word : Keyword} (hd : d.Judged settings)
    (hword : word ≠ .where ∧ word ≠ .orderBy)
    (hnil : d.query.filters = [] ∧ d.query.sorts = []) :
    (d.keyword settings lookup pos args word).Judged settings := by
  refine ⟨consistent_keyword hword hd.consistent, iff_of_true ?_ ?_⟩
  · refine free_keyword (by simp [Category.Formal]) (by simp) (fun _ => hword) ?_
    exact hd.exact.2 (Query.legal_of_nil hnil.1 hnil.2)
  · obtain ⟨_, _, _, _, _, _, hquery, -⟩ := query_keyword settings lookup d pos args hword
    rw [hquery]
    exact Query.legal_of_nil hnil.1 hnil.2

theorem judged_keyword {pos : Position} {args : List Expr} {word : Keyword}
    (hd : d.Judged settings)
    (htarget : word = .from ∨ word = .select ∨ word = .cursor →
      d.query.filters = [] ∧ d.query.sorts = [])
    (hsort : word = .orderBy → d.query.sorts = [])
    (hform : (d.keyword settings lookup pos args word).WellFormed) :
    (d.keyword settings lookup pos args word).Judged settings := by
  cases word with
  | select => exact judged_target hd (by simp) (htarget (by simp))
  | cursor => exact judged_target hd (by simp) (htarget (by simp))
  | «from» => exact judged_target hd (by simp) (htarget (by simp))
  | «where» => exact (judged_filters hd hform).withClause
  | orderBy => exact (judged_sorts hd (hsort rfl) hform).withClause
  | fetchOptions =>
    refine ⟨consistent_keyword (by simp) hd.consistent, ?_⟩
    have hfree : (d.fetchOptions args).Free .semantic ↔ d.Free .semantic :=
      ⟨fun h => (free_fetchOptions.1 h).1, fun h => free_fetchOptions.2
        ⟨h, fun x hx => (formal_of_refused hx).ne.1⟩⟩
    exact hfree.trans (hd.exact.trans ⟨(·.congr rfl rfl rfl rfl), (·.congr rfl rfl rfl rfl)⟩)

/-- What the statements to come may do to a draft: with filters or sort keys there the target stays
as it is, and with sort keys there no others come. -/
structure Awaits (d : Draft) (statements : List Stmt) : Prop where
  target : ∀ s ∈ statements, s.IsTarget → d.query.filters = [] ∧ d.query.sorts = []
  sort : ∀ s ∈ statements, s.keyword? = some .orderBy → d.query.sorts = []

theorem keyword?_of_call {s : Stmt} {word : Keyword} {args : List Expr}
    (h : s.keywordCall? = some (word, args)) : s.keyword? = some word := by
  simp [Stmt.keyword?, h]

theorem judged_statement {s : Stmt} {more : List Stmt} (hd : d.Judged settings)
    (hawaits : d.Awaits (s :: more)) (hform : (d.statement settings lookup s).WellFormed) :
    (d.statement settings lookup s).Judged settings := by
  rcases statement_cases settings lookup d s with
    ⟨-, causes, pos, hs, hcauses⟩ | ⟨word, args, pos, hcall, hs⟩
  · rw [hs] at hform ⊢
    obtain rfl : causes = [] := List.eq_nil_iff_forall_not_mem.2 fun cause hmem =>
      (free_report.1 hform.2).2 cause hmem (hcauses cause hmem)
    simpa [report] using hd
  · rw [hs] at hform ⊢
    have hword := keyword?_of_call hcall
    refine judged_keyword hd (fun h => ?_) (fun h => ?_) hform
    · exact hawaits.target s (.head _) (by simpa [Stmt.IsTarget, hword] using h)
    · exact hawaits.sort s (.head _) (by rw [hword, h])

/-- If the sorting is said once, there are no sort keys as long as it is still to come. -/
theorem sorts_statement_eq_nil {s : Stmt} {more : List Stmt}
    (hsort : ∀ t ∈ s :: more, t.keyword? = some .orderBy → d.query.sorts = [])
    (honce : ((s :: more).filter (·.keyword? = some .orderBy)).length ≤ 1) :
    ∀ t ∈ more, t.keyword? = some .orderBy →
      (d.statement settings lookup s).query.sorts = [] := by
  intro t ht hword
  have hnil := hsort t (.tail _ ht) hword
  rcases statement_cases settings lookup d s with
    ⟨-, causes, pos, hs, -⟩ | ⟨word, args, pos, hcall, hs⟩
  · rw [hs]
    exact hnil
  · have horder : word ≠ .orderBy := by
      rintro rfl
      have hmem : t ∈ more.filter (·.keyword? = some .orderBy) := by simp [ht, hword]
      have := List.length_pos_of_mem hmem
      rw [List.filter_cons_of_pos (by simpa using keyword?_of_call hcall),
        List.length_cons] at honce
      omega
    rw [hs, sorts_keyword horder]
    exact hnil

/-- What comes after a statement in canonical order is still awaited. -/
theorem Awaits.statement {s : Stmt} {more : List Stmt} (hawaits : d.Awaits (s :: more))
    (hcanon : Canonical (s :: more)) : (d.statement settings lookup s).Awaits more := by
  have hfirst := (List.pairwise_cons.1 hcanon.targetFirst).1
  refine ⟨?_, sorts_statement_eq_nil hawaits.sort hcanon.sortedOnce⟩
  intro t ht htarget
  have hnil := hawaits.target t (.tail _ ht) htarget
  rcases statement_cases settings lookup d s with
    ⟨-, causes, pos, hs, -⟩ | ⟨word, args, pos, hcall, hs⟩
  · rw [hs]
    exact hnil
  · have hword := keyword?_of_call hcall
    have hwhere : word ≠ .where := by
      rintro rfl
      exact hfirst t ht (.inl hword) htarget
    have horder : word ≠ .orderBy := by
      rintro rfl
      exact hfirst t ht (.inr hword) htarget
    rw [hs, filters_keyword hwhere, sorts_keyword horder]
    exact hnil

end Draft

theorem Canonical.tail {s : Stmt} {more : List Stmt} (h : Canonical (s :: more)) :
    Canonical more where
  targetFirst := (List.pairwise_cons.1 h.targetFirst).2
  sortedOnce := Nat.le_trans ((List.sublist_cons_self s more).filter _).length_le h.sortedOnce

namespace Draft

variable {settings : Settings} {lookup : TypeLookup} {d : Draft}

theorem free_of_foldl {c : Category} {statements : List Stmt}
    (h : (statements.foldl (statement settings lookup) d).Free c) : d.Free c := by
  induction statements generalizing d with
  | nil => exact h
  | cons s more ih => exact free_of_statement (ih h)

/-- The judgement on a draft is carried through statements in canonical order. -/
theorem judged_foldl {statements : List Stmt} (hd : d.Judged settings)
    (hawaits : d.Awaits statements) (hcanon : Canonical statements)
    (hform : (statements.foldl (statement settings lookup) d).WellFormed) :
    (statements.foldl (statement settings lookup) d).Judged settings := by
  induction statements generalizing d with
  | nil => exact hd
  | cons s more ih =>
    have hstep := judged_statement hd hawaits ⟨free_of_foldl hform.1, free_of_foldl hform.2⟩
    exact ih hstep (hawaits.statement hcanon) hcanon.tail hform

end Draft

/-- If a block in canonical order has no problems of form, then it has none of semantics exactly if
its query is legal. -/
theorem compile_semantic_iff_legal {settings : Settings} {lookup : TypeLookup}
    {statements : List Stmt} (hcanon : Canonical statements)
    (hform : ∀ x ∈ (compile settings lookup statements).2,
      x.category ≠ .shape ∧ x.category ≠ .vocabulary) :
    (∀ x ∈ (compile settings lookup statements).2, x.category ≠ .semantic) ↔
      (compile settings lookup statements).1.Legal settings := by
  have hawaits : Draft.empty.Awaits statements := ⟨fun _ _ _ => ⟨rfl, rfl⟩, fun _ _ _ => rfl⟩
  have hwell : (statements.foldl (Draft.statement settings lookup) .empty).WellFormed :=
    ⟨fun x hx => (hform x hx).1, fun x hx => (hform x hx).2⟩
  exact (Draft.judged_foldl Draft.judged_empty hawaits hcanon hwell).exact

/-- The first inequality comes after a sort by another field. -/
theorem compile_semantic_iff_legal_sorted : ∃ block,
    Block.read "from Person, childOf(k)\nwhere name == n\norderBy age as DESC\nwhere size > 1" =
      .ok block ∧
    Canonical block.statements ∧
    (∀ x ∈ (compile .standard .permissive block.statements).2,
      x.category ≠ .shape ∧ x.category ≠ .vocabulary) ∧
    ¬ (compile .standard .permissive block.statements).1.Legal .standard := by
  have hgood : (match Block.read
      "from Person, childOf(k)\nwhere name == n\norderBy age as DESC\nwhere size > 1" with
      | .ok block => decide (Canonical block.statements) &&
          (compile .standard .permissive block.statements).2.map (·.category) == [.semantic]
      | .error _ => false) = true := by decide +kernel
  split at hgood
  · rename_i block hread
    rw [Bool.and_eq_true, decide_eq_true_eq, beq_iff_eq] at hgood
    obtain ⟨hcanon, hcategories⟩ := hgood
    have hsemantic : ∀ x ∈ (compile .standard .permissive block.statements).2,
        x.category = .semantic := by
      intro x hx
      have hmem := List.mem_map_of_mem (f := (·.category)) hx
      rwa [hcategories, List.mem_singleton] at hmem
    have hform : ∀ x ∈ (compile .standard .permissive block.statements).2,
        x.category ≠ .shape ∧ x.category ≠ .vocabulary := by
      intro x hx
      simp [hsemantic x hx]
    refine ⟨block, hread, hcanon, hform, fun hlegal => ?_⟩
    have hnone := (compile_semantic_iff_legal hcanon hform).2 hlegal
    obtain ⟨x, hx, hcategory⟩ := List.mem_map.1 (hcategories ▸ List.mem_singleton_self _)
    exact hnone x hx hcategory
  · cases hgood

end QueryBlocks
