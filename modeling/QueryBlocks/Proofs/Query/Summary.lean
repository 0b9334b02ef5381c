import QueryBlocks.Proofs.Query.Admitted

/-!
The summary of a query. A block is compiled by adding one clause after another, whatever is reported
meanwhile, and all that a query knows besides its clauses is what they say: filters and sort keys in
their order, and of everything else what was said last.
-/
namespace QueryBlocks

namespace Clause

def settings : Clause → List Setting
  | select _ settings | cursor _ settings | fetchOptions settings => settings
  | _ => []

/-- Where the rows come from, if the clause says so. -/
def origin? : Clause → Option Origin
  | «from» origin => some origin
  | _ => none

end Clause

namespace FetchOptions

variable {o : FetchOptions} {param : FetchParam}

theorem get_set {value : String} {other : FetchParam} :
    (o.set value other).get param = if other = param then some value else o.get param := by
  cases other <;> cases param <;> rfl

/-- Of several settings the last one of a parameter counts. -/
theorem get_foldl_set (settings : List Setting) :
    (settings.foldl (fun o s => o.set s.value s.param) o).get param =
      ((settings.filter (·.param = param)).getLast?.map Setting.value).or (o.get param) := by
  induction settings using List.reverseRecOn with
  | nil => rfl
  | append_singleton settings s ih =>
    rw [List.foldl_append, List.foldl_cons, List.foldl_nil, get_set, ih]
    by_cases hparam : s.param = param <;> simp [hparam]

end FetchOptions

namespace Query

/-- The summary of a query says what its clauses say. -/
structure Summarized (q : Query) : Prop where
  filters : q.filters = q.clauses.flatMap Clause.filters
  sorts : q.sorts = q.clauses.flatMap Clause.sorts
  fetch : ∀ param, q.fetch.get param =
    ((q.clauses.flatMap Clause.settings).filter (·.param = param)).getLast?.map Setting.value
  cursor : q.cursor = true ↔
    ((q.clauses.map Clause.keyword).filter (· ∈ [.select, .cursor])).getLast? = some .cursor
  selection : q.selection = (q.clauses.filterMap Clause.mode?).getLast?.getD .none
  origin : q.origin = (q.clauses.filterMap Clause.origin?).getLast?.getD .empty
  kindless : q.kindlessAncestor = true ↔ q.origin.kind = none ∧ q.origin.ancestor ≠ none
  inequalityCount : q.inequalityCount = q.inequalities.length
  inequalityField : q.inequalityField = q.inequalities.head?.map Filter.field
  hasNotEqual : q.hasNotEqual = true ↔ ∃ f ∈ q.filters, f.op = .notEqual

variable {q : Query} {c : Clause}

theorem fetch_add {param : FetchParam} : (q.add c).fetch.get param =
    ((c.settings.filter (·.param = param)).getLast?.map Setting.value).or (q.fetch.get param) := by
  cases c with
  | «where» fs =>
    obtain ⟨_, _, _, hadd⟩ := add_where (q := q) fs
    rw [hadd]
    rfl
  | orderBy keys =>
    rw [add_orderBy]
    rfl
  | «from» => rfl
  | select | cursor | fetchOptions => exact FetchOptions.get_foldl_set _

theorem cursor_add : (q.add c).cursor =
    if c.keyword ∈ [.select, .cursor] then c.keyword = .cursor else q.cursor := by
  cases c with
  | «where» fs =>
    obtain ⟨_, _, _, hadd⟩ := add_where (q := q) fs
    simp [hadd, Clause.keyword]
  | orderBy keys => simp [add_orderBy, Clause.keyword]
  | _ => simp [add, withClause, withSettings, Clause.keyword]

theorem origin_add : (q.add c).origin = c.origin?.getD q.origin := by
  cases c with
  | «where» fs =>
    obtain ⟨_, _, _, hadd⟩ := add_where (q := q) fs
    rw [hadd]
    rfl
  | orderBy keys =>
    rw [add_orderBy]
    rfl
  | _ => rfl

/-- A clause keeps what a query knows of its inequality filters and its origin in step with them. -/
theorem Consistent.add (hq : q.Consistent) : (q.add c).Consistent := by
  cases c with
  | «where» fs =>
    have hfold : (fs.foldl Query.withFilter q).Consistent := by
      induction fs generalizing q with
      | nil => exact hq
      | cons f fs ih => exact ih hq.withFilter
    exact hfold.congr rfl rfl rfl rfl hfold.kindless
  | orderBy keys =>
    rw [add_orderBy]
    exact hq.congr rfl rfl rfl rfl hq.kindless
  | «from» => exact hq.congr rfl rfl rfl rfl rfl
  | _ => exact hq.congr rfl rfl rfl rfl hq.kindless

theorem isKindless_iff {o : Origin} :
    o.isKindless = true ↔ o.kind = none ∧ o.ancestor ≠ none := by
  simp [Origin.isKindless, Option.ne_none_iff_isSome]

theorem exists_mem_inequalities :
    (∃ f ∈ q.inequalities, f.op = .notEqual) ↔ ∃ f ∈ q.filters, f.op = .notEqual := by
  constructor
  · rintro ⟨f, hf, hop⟩
    exact ⟨f, (List.mem_filter.1 hf).1, hop⟩
  · rintro ⟨f, hf, hop⟩
    exact ⟨f, List.mem_filter.2 ⟨hf, by simp [hop, FilterOp.inequalities]⟩, hop⟩

theorem summarized_empty : empty.Summarized := by
  constructor <;> simp [empty, Origin.empty, FetchOptions.empty, inequalities]
  intro param
  cases param <;> rfl

/-- One more clause is summed up like those before it. -/
theorem Summarized.add (h : q.Summarized) : (q.add c).Summarized := by
  have hconsistent : q.Consistent :=
    ⟨h.inequalityField, h.inequalityCount, h.hasNotEqual.trans exists_mem_inequalities.symm,
      Bool.eq_iff_iff.2 (h.kindless.trans isKindless_iff.symm)⟩
  obtain ⟨hfield, hcount, hne, hkindless⟩ := hconsistent.add (c := c)
  constructor
  · rw [filters_add, clauses_add, List.flatMap_append, List.flatMap_singleton, h.filters]
  · rw [sorts_add, clauses_add, List.flatMap_append, List.flatMap_singleton, h.sorts]
  · intro param
    rw [fetch_add, clauses_add, List.flatMap_append, List.flatMap_singleton, List.filter_append,
      List.getLast?_append, h.fetch, Option.map_or]
  · rw [cursor_add, clauses_add, List.map_append, List.filter_append, List.getLast?_append,
      List.map_singleton]
    by_cases hc : c.keyword ∈ [.select, .cursor]
    · rw [if_pos hc, List.filter_cons_of_pos (by simpa using hc)]
      simp
    · rw [if_neg hc, List.filter_cons_of_neg (by simpa using hc)]
      exact h.cursor
  · rw [selection_add, clauses_add, List.filterMap_append, List.getLast?_append, h.selection]
    cases hmode : c.mode? <;> simp [hmode]
  · rw [origin_add, clauses_add, List.filterMap_append, List.getLast?_append, h.origin]
    cases horigin : c.origin? <;> simp [horigin]
  · rw [hkindless]
    exact isKindless_iff
  · exact hcount
  · exact hfield
  · exact hne.trans exists_mem_inequalities

end Query

namespace Draft

variable {settings : Settings} {lookup : TypeLookup} {d : Draft}

/-- A keyword adds its clause, whatever is reported. Only a `from` without arguments has none. -/
theorem keyword_query {pos : Position} {args : List Expr} {word : Keyword} :
    (word = .from ∧ args = [] ∧ (d.keyword settings lookup pos args word).query = d.query) ∨
      ∃ c, c.keyword = word ∧
        (d.keyword settings lookup pos args word).query = d.query.add c := by
  cases word with
  | select => exact .inr ⟨.select _ _, rfl, rfl⟩
  | cursor => exact .inr ⟨.cursor _ _, rfl, rfl⟩
  | «from» =>
    cases args with
    | nil => exact .inl ⟨rfl, rfl, rfl⟩
    | cons first more => exact .inr ⟨.from _, rfl, query_from⟩
  | «where» => exact .inr ⟨.where _, rfl, query_where⟩
  | orderBy => exact .inr ⟨.orderBy _, rfl, query_orderBy⟩
  | fetchOptions => exact .inr ⟨.fetchOptions _, rfl, rfl⟩

theorem statement_query (s : Stmt) : (d.statement settings lookup s).query = d.query ∨
    ∃ c, (d.statement settings lookup s).query = d.query.add c := by
  rcases statement_cases settings lookup d s with
    ⟨-, causes, pos, hs, -⟩ | ⟨word, args, pos, -, hs⟩
  · rw [hs]
    exact .inl rfl
  · rw [hs]
    rcases keyword_query with ⟨-, -, hsame⟩ | ⟨c, -, hquery⟩
    · exact .inl hsame
    · exact .inr ⟨c, hquery⟩

end Draft

/-- What holds of the empty query and is kept by every clause holds of every compiled query. -/
theorem compile_keeps {settings : Settings} {lookup : TypeLookup} {Kept : Query → Prop}
    (hempty : Kept .empty) (hadd : ∀ q c, Kept q → Kept (q.add c)) (statements : List Stmt) :
    Kept (compile settings lookup statements).1 := by
  induction statements using List.reverseRecOn with
  | nil => exact hempty
  | append_singleton statements s ih =>
    simp only [compile, List.foldl_append, List.foldl_cons, List.foldl_nil] at ih ⊢
    rcases Draft.statement_query s with hsame | ⟨c, hquery⟩
    · rw [hsame]
      exact ih
    · rw [hquery]
      exact hadd _ c ih

theorem compile_consistent (settings : Settings) (lookup : TypeLookup) (statements : List Stmt) :
    (compile settings lookup statements).1.Consistent :=
  compile_keeps Query.consistent_empty (fun _ _ h => h.add) statements

/-- The summary of every compiled query says what its clauses say, with problems or without. -/
theorem compile_summarized (settings : Settings) (lookup : TypeLookup) (statements : List Stmt) :
    (compile settings lookup statements).1.Summarized :=
  compile_keeps Query.summarized_empty (fun _ _ h => h.add) statements

end QueryBlocks
