import QueryBlocks.Proofs.Query.Checked
import Mathlib.Data.List.Induction

/-!
Statements that report nothing. Such a statement adds one clause to the query, and the clause obeys
the rules on ancestors and cursors as far as the query has them in force at that time.
-/
namespace QueryBlocks

namespace Clause

/-- The keyword that a clause is written with. -/
def keyword : Clause → Keyword
  | select .. => .select
  | cursor .. => .cursor
  | «from» .. => .from
  | «where» .. => .where
  | orderBy .. => .orderBy
  | fetchOptions .. => .fetchOptions

def filters : Clause → List Filter
  | «where» filters => filters
  | _ => []

def sorts : Clause → List SortKey
  | orderBy keys => keys
  | _ => []

/-- The mode that a clause asks for. -/
def mode? : Clause → Option Mode
  | select mode _ => mode
  | cursor mode _ => some mode
  | _ => none

end Clause

namespace Query

/-- The query with one more clause. -/
def add (q : Query) (c : Clause) : Query :=
  withClause (match c with
    | .select mode settings =>
      { q.withSettings settings with selection := mode.getD q.selection, cursor := false }
    | .cursor mode settings => { q.withSettings settings with selection := mode, cursor := true }
    | .from origin => { q with origin, kindlessAncestor := origin.isKindless }
    | .where filters => filters.foldl withFilter q
    | .orderBy keys => keys.foldl withSort q
    | .fetchOptions settings => q.withSettings settings) c

variable {settings : Settings} {q : Query} {c : Clause}

/-- Filters leave everything alone but the filters and the summary of them. -/
theorem foldl_withFilter (fs : List Filter) : ∃ inequalityField inequalityCount hasNotEqual,
    fs.foldl withFilter q =
      { q with filters := q.filters ++ fs, inequalityField, inequalityCount, hasNotEqual } := by
  induction fs generalizing q with
  | nil => exact ⟨_, _, _, by simp; rfl⟩
  | cons f fs ih =>
    obtain ⟨field, count, ne, hfold⟩ := ih (q := q.withFilter f)
    refine ⟨field, count, ne, ?_⟩
    rw [List.foldl_cons, hfold]
    unfold withFilter
    split <;> simp

theorem foldl_withSort (keys : List SortKey) :
    keys.foldl withSort q = { q with sorts := q.sorts ++ keys } := by
  induction keys generalizing q with
  | nil => simp
  | cons key keys ih => simp [ih, withSort]

/-- A clause of filters changes the filters and the summary of them. -/
theorem add_where (fs : List Filter) : ∃ inequalityField inequalityCount hasNotEqual,
    q.add (.where fs) = { q with
      filters := q.filters ++ fs, inequalityField, inequalityCount, hasNotEqual
      clauses := q.clauses ++ [.where fs] } := by
  obtain ⟨field, count, ne, hfold⟩ := foldl_withFilter (q := q) fs
  exact ⟨field, count, ne, congrArg (withClause · _) hfold⟩

theorem add_orderBy (keys : List SortKey) : q.add (.orderBy keys) =
    { q with sorts := q.sorts ++ keys, clauses := q.clauses ++ [.orderBy keys] } :=
  congrArg (withClause · _) (foldl_withSort keys)

@[simp] theorem clauses_add : (q.add c).clauses = q.clauses ++ [c] := by
  cases c with
  | «where» fs =>
    obtain ⟨_, _, _, hadd⟩ := add_where (q := q) fs
    rw [hadd]
  | orderBy keys => rw [add_orderBy]
  | _ => rfl

@[simp] theorem filters_add : (q.add c).filters = q.filters ++ c.filters := by
  cases c with
  | «where» fs =>
    obtain ⟨_, _, _, hadd⟩ := add_where (q := q) fs
    rw [hadd, Clause.filters]
  | orderBy keys =>
    rw [add_orderBy]
    exact (List.append_nil _).symm
  | _ => exact (List.append_nil _).symm

@[simp] theorem sorts_add : (q.add c).sorts = q.sorts ++ c.sorts := by
  cases c with
  | «where» fs =>
    obtain ⟨_, _, _, hadd⟩ := add_where (q := q) fs
    rw [hadd]
    exact (List.append_nil _).symm
  | orderBy keys => rw [add_orderBy, Clause.sorts]
  | _ => exact (List.append_nil _).symm

@[simp] theorem selection_add : (q.add c).selection = c.mode?.getD q.selection := by
  cases c with
  | «where» fs =>
    obtain ⟨_, _, _, hadd⟩ := add_where (q := q) fs
    rw [hadd]
    rfl
  | orderBy keys =>
    rw [add_orderBy]
    rfl
  | _ => rfl

theorem kindlessAncestor_add (h : c.keyword ≠ .from) :
    (q.add c).kindlessAncestor = q.kindlessAncestor := by
  cases c with
  | «where» fs =>
    obtain ⟨_, _, _, hadd⟩ := add_where (q := q) fs
    rw [hadd]
  | orderBy keys => rw [add_orderBy]
  | «from» => exact absurd rfl h
  | _ => rfl

/-- What the ancestor and the cursor of a query ask of a clause that comes in. -/
structure Admits (settings : Settings) (q : Query) (c : Clause) : Prop where
  kindlessFilters : q.kindlessAncestor = true → ∀ f ∈ c.filters, f.field = settings.keyProperty
  kindlessSorts : q.kindlessAncestor = true →
    ∀ key ∈ c.sorts, key.field = settings.keyProperty ∧ key.direction = .ascending
  cursorFilters : q.cursor = true → ∀ f ∈ c.filters, f.op ≠ .isIn ∧ f.op ≠ .notEqual

theorem admits_of_nil (hfilters : c.filters = []) (hsorts : c.sorts = []) :
    q.Admits settings c := by
  constructor <;> simp [hfilters, hsorts]

end Query

namespace Draft

variable {settings : Settings} {lookup : TypeLookup} {d : Draft}

section arguments

variable {α : Type} {r : Restriction α} {first : Bool} {args : List Expr}

/-- The query grows by what is taken. -/
theorem query_takeAll : (d.takeAll settings r first args).1.query =
    (d.takeAll settings r first args).2.foldl r.add d.query := by
  refine takeAll_run (R := fun _ d e => e.1.query = e.2.foldl r.add d.query) (fun _ => rfl)
    (fun hfirst hrest => ?_) (fun d first arg _ => ?_)
  · rw [List.foldl_append, ← hfirst, hrest]
  · rw [query_take, taken_take]
    split <;> rfl

/-- If nothing of semantics is reported, the rules find nothing wrong with what is taken, each item
in view of a query that agrees with the one at the start in what no item changes. -/
theorem causes_of_takeAll {β : Type} (observe : Query → β) (hr : r.Lawful)
    (hkeeps : ∀ q item, observe (r.add q item) = observe q)
    (h : (d.takeAll settings r first args).1.Free .semantic) :
    ∀ item ∈ (d.takeAll settings r first args).2,
      ∃ q first, observe q = observe d.query ∧ r.causes q first item = [] := by
  refine (takeAll_run (R := fun _ d e => e.1.Free .semantic → d.Free .semantic ∧
    observe e.1.query = observe d.query ∧ ∀ item ∈ e.2, ∃ q first,
      observe q = observe d.query ∧ r.causes q first item = []) (fun d h => ⟨h, rfl, by simp⟩)
    (fun hfirst hrest h => ?_) (fun d first arg _ h => ?_) h).2.2
  · obtain ⟨hfree, hsame, hitems⟩ := hrest h
    obtain ⟨hfree', hsame', hitems'⟩ := hfirst hfree
    refine ⟨hfree', hsame.trans hsame', List.forall_mem_append.2 ⟨hitems', fun item hitem => ?_⟩⟩
    obtain ⟨q, first, hq, hcauses⟩ := hitems item hitem
    exact ⟨q, first, hq.trans hsame', hcauses⟩
  · obtain ⟨hfree, hstep⟩ := free_take.1 h
    rw [query_take, taken_take]
    cases hread : r.read arg with
    | error x => exact ⟨hfree, rfl, by simp⟩
    | ok read =>
      rw [hread] at hstep
      have hcauses := (forall_ne_semantic fun _ => hr.semantic).1 hstep.2
      exact ⟨hfree, hkeeps _ _, List.forall_mem_singleton.2 ⟨d.query, first, rfl, hcauses⟩⟩

end arguments

/-- Filters that report nothing obey the rules that are in force when they come in. -/
theorem admits_filters {args : List Expr}
    (h : (d.takeAll settings (.filtering settings) true args).1.Free .semantic) :
    d.query.Admits settings (.where (d.takeAll settings (.filtering settings) true args).2) := by
  have hitems := causes_of_takeAll (fun q => (q.kindlessAncestor, q.cursor))
    (Restriction.lawful_filtering settings)
    (fun q f => Prod.ext Query.kindlessAncestor_withFilter Query.cursor_withFilter) h
  refine ⟨fun hk f hf => ?_, fun _ _ hkey => (nomatch hkey), fun hc f hf => ?_⟩
  · obtain ⟨q, first, hq, hcauses⟩ := hitems f hf
    exact (Query.filterCauses_eq_nil.1 hcauses).2.1 ((congrArg Prod.fst hq).trans hk)
  · obtain ⟨q, first, hq, hcauses⟩ := hitems f hf
    exact (Query.filterCauses_eq_nil.1 hcauses).2.2 ((congrArg Prod.snd hq).trans hc)

theorem admits_sorts {args : List Expr}
    (h : (d.takeAll settings (.sorting settings) true args).1.Free .semantic) :
    d.query.Admits settings (.orderBy (d.takeAll settings (.sorting settings) true args).2) := by
  have hitems := causes_of_takeAll Query.kindlessAncestor
    (Restriction.lawful_sorting settings) (fun _ _ => rfl) h
  refine ⟨fun _ _ hf => (nomatch hf), fun hk key hkey => ?_, fun _ _ hf => (nomatch hf)⟩
  obtain ⟨q, first, hq, hcauses⟩ := hitems key hkey
  exact (Query.sortCauses_eq_nil.1 hcauses).1 (hq.trans hk)

theorem diagnostics_eq_nil_iff : d.diagnostics = [] ↔ ∀ c, d.Free c := by
  constructor
  · intro h c x hx
    rw [h] at hx
    cases hx
  · intro h
    exact List.eq_nil_iff_forall_not_mem.2 fun x hx => h _ x hx rfl

theorem query_from {pos : Position} {first : Expr} {more : List Expr} :
    (d.from lookup pos (first :: more)).query = d.query.add (.from (completeOrigin pos first more
      (((Target.read first).1.map Target.origin).getD .empty)).1) := by
  rw [Draft.from]
  by_cases hmore : more.length > 1 <;> simp only [hmore, if_true, if_false] <;> rfl

theorem query_where {args : List Expr} :
    (d.where settings args).query =
      d.query.add (.where (d.takeAll settings (.filtering settings) true args).2) := by
  have hquery : (d.takeAll settings (.filtering settings) true args).1.query = _ := query_takeAll
  exact congrArg (Query.withClause · _) hquery

theorem query_orderBy {args : List Expr} :
    (d.orderBy settings args).query =
      d.query.add (.orderBy (d.takeAll settings (.sorting settings) true args).2) := by
  have hquery : (d.takeAll settings (.sorting settings) true args).1.query = _ := query_takeAll
  exact congrArg (Query.withClause · _) hquery

/-- A keyword that reports nothing adds a clause of its own that the query admits. -/
theorem keyword_adds {pos : Position} {args : List Expr} {word : Keyword}
    (h : ∀ c, (d.keyword settings lookup pos args word).Free c) :
    ∃ c, c.keyword = word ∧ d.query.Admits settings c ∧
      (d.keyword settings lookup pos args word).query = d.query.add c := by
  cases word with
  | select => exact ⟨.select _ _, rfl, Query.admits_of_nil rfl rfl, rfl⟩
  | cursor => exact ⟨.cursor _ _, rfl, Query.admits_of_nil rfl rfl, rfl⟩
  | «from» =>
    cases args with
    | nil => exact absurd rfl ((free_from_nil lookup).1 (h .shape)).2
    | cons first more => exact ⟨.from _, rfl, Query.admits_of_nil rfl rfl, query_from⟩
  | «where» => exact ⟨.where _, rfl, admits_filters (h .semantic), query_where⟩
  | orderBy => exact ⟨.orderBy _, rfl, admits_sorts (h .semantic), query_orderBy⟩
  | fetchOptions => exact ⟨.fetchOptions _, rfl, Query.admits_of_nil rfl rfl, rfl⟩

/-- All that a statement does to a query if nothing is reported. -/
theorem statement_adds {s : Stmt} (h : (d.statement settings lookup s).diagnostics = []) :
    d.diagnostics = [] ∧
      match s.keyword? with
      | none => (d.statement settings lookup s).query = d.query
      | some word => ∃ c, c.keyword = word ∧ d.query.Admits settings c ∧
          (d.statement settings lookup s).query = d.query.add c := by
  have hfree := diagnostics_eq_nil_iff.1 h
  refine ⟨diagnostics_eq_nil_iff.2 fun c => free_of_statement (hfree c), ?_⟩
  rcases statement_cases settings lookup d s with
    ⟨hcall, causes, pos, hs, -⟩ | ⟨word, args, pos, hcall, hs⟩
  · rw [Stmt.keyword?, hcall, hs]
    rfl
  · rw [keyword?_of_call hcall]
    rw [hs] at hfree ⊢
    exact keyword_adds hfree

end Draft

/-- If nothing is reported, a block is compiled by adding one clause after another. -/
theorem compile_adds {settings : Settings} {lookup : TypeLookup} {statements : List Stmt} {s : Stmt}
    (h : (compile settings lookup (statements ++ [s])).2 = []) :
    (compile settings lookup statements).2 = [] ∧
      match s.keyword? with
      | none =>
        (compile settings lookup (statements ++ [s])).1 = (compile settings lookup statements).1
      | some word => ∃ c, c.keyword = word ∧
          (compile settings lookup statements).1.Admits settings c ∧
          (compile settings lookup (statements ++ [s])).1 =
            (compile settings lookup statements).1.add c := by
  simp only [compile, List.foldl_append, List.foldl_cons, List.foldl_nil] at h ⊢
  exact Draft.statement_adds h

/-- Induction on the statements of a block without problems, in their order. A statement that is not
a call of a keyword leaves the query alone, and every other one adds its clause. -/
theorem compile_induct {settings : Settings} {lookup : TypeLookup}
    {motive : (statements : List Stmt) → (compile settings lookup statements).2 = [] → Prop}
    (nil : motive [] rfl)
    (pass : ∀ statements s hnone hnone', s.keyword? = none →
      (compile settings lookup (statements ++ [s])).1 = (compile settings lookup statements).1 →
      motive statements hnone → motive (statements ++ [s]) hnone')
    (add : ∀ statements s c hnone hnone', s.keyword? = some c.keyword →
      (compile settings lookup statements).1.Admits settings c →
      (compile settings lookup (statements ++ [s])).1 =
        (compile settings lookup statements).1.add c →
      motive statements hnone → motive (statements ++ [s]) hnone')
    (statements : List Stmt) (hnone : (compile settings lookup statements).2 = []) :
    motive statements hnone := by
  induction statements using List.reverseRecOn with
  | nil => exact nil
  | append_singleton statements s ih =>
    obtain ⟨hbefore, hstep⟩ := compile_adds hnone
    cases hword : s.keyword? with
    | none =>
      rw [hword] at hstep
      exact pass statements s hbefore hnone hword hstep (ih hbefore)
    | some word =>
      rw [hword] at hstep
      obtain ⟨c, rfl, hadmits, hquery⟩ := hstep
      exact add statements s c hbefore hnone hword hadmits hquery (ih hbefore)

end QueryBlocks
