import QueryBlocks.Proofs.Query.Summary
import Mathlib.Data.List.DropRight

/-!
Rules and the order of statements. Some rules come into force with a statement: the one on keys with
a `from` that names an ancestor only, the one on operators with a `cursor`. They are asked of what
comes in while they are in force. What stands before the last statement that can bring such a rule
into force is not looked at again, and of a block without problems it alone decides whether the
finished query obeys.
-/
namespace QueryBlocks

/-- The statements up to the last call of a keyword, with that call. -/
def upToLast (word : Keyword) (statements : List Stmt) : List Stmt :=
  statements.rdropWhile fun s => s.keyword? ≠ some word

section

variable {settings : Settings} {lookup : TypeLookup} {statements : List Stmt} {s : Stmt}
  {word : Keyword}

theorem upToLast_concat_of_eq (h : s.keyword? = some word) :
    upToLast word (statements ++ [s]) = statements ++ [s] :=
  List.rdropWhile_concat_neg _ _ _ (by simp [h])

theorem upToLast_concat_of_ne (h : s.keyword? ≠ some word) :
    upToLast word (statements ++ [s]) = upToLast word statements :=
  List.rdropWhile_concat_pos _ _ _ (by simp [h])

/-- A rule that only one keyword can bring into force, and that is asked of every other clause which
comes in meanwhile, holds of a query if it held when that keyword was called last. -/
theorem upheld_iff (InForce Upheld : Query → Prop)
    (hadd : ∀ q c, c.keyword ≠ word → q.Admits settings c → InForce (q.add c) →
      InForce q ∧ (Upheld (q.add c) ↔ Upheld q))
    (hnone : (compile settings lookup statements).2 = [])
    (hforce : InForce (compile settings lookup statements).1) :
    Upheld (compile settings lookup statements).1 ↔
      Upheld (compile settings lookup (upToLast word statements)).1 := by
  induction statements, hnone using compile_induct with
  | nil => rfl
  | pass statements s _ _ hs hsame ih =>
    rw [upToLast_concat_of_ne (by simp [hs])]
    rw [hsame] at hforce ⊢
    exact ih hforce
  | add statements s c _ _ hs hadmits hquery ih =>
    by_cases hc : c.keyword = word
    · rw [upToLast_concat_of_eq (hs.trans (congrArg some hc))]
    · rw [upToLast_concat_of_ne (by simpa [hs] using hc)]
      rw [hquery] at hforce ⊢
      obtain ⟨hearlier, hupheld⟩ := hadd _ c hc hadmits hforce
      exact hupheld.trans (ih hearlier)

end

/-- A text whose block passes a check, and what follows from that. -/
theorem Block.exists_read {text : String} {p r : Block → Prop} [DecidablePred p]
    (hr : ∀ block, p block → r block)
    (h : (Block.read text).toOption.any (decide <| p ·) = true) :
    ∃ block, Block.read text = .ok block ∧ r block := by
  cases hread : Block.read text with
  | error message =>
    rw [hread] at h
    cases h
  | ok block =>
    rw [hread] at h
    exact ⟨block, rfl, hr block (of_decide_eq_true h)⟩

/-! ### Ancestors without a kind -/

/-- Only the key is asked for, in ascending order. -/
structure Query.KeyOnly (settings : Settings) (q : Query) : Prop where
  filters : ∀ f ∈ q.filters, f.field = settings.keyProperty
  sorts : ∀ key ∈ q.sorts, key.field = settings.keyProperty ∧ key.direction = .ascending

instance (settings : Settings) (q : Query) : Decidable (q.KeyOnly settings) :=
  decidable_of_iff (_ ∧ _) ⟨fun h => ⟨h.1, h.2⟩, fun h => ⟨h.1, h.2⟩⟩

theorem Query.keyOnly_add {settings : Settings} {q : Query} {c : Clause}
    (hadmits : q.Admits settings c) (hkind : q.kindlessAncestor = true) :
    (q.add c).KeyOnly settings ↔ q.KeyOnly settings := by
  constructor
  · rintro ⟨hfilters, hsorts⟩
    rw [filters_add, List.forall_mem_append] at hfilters
    rw [sorts_add, List.forall_mem_append] at hsorts
    exact ⟨hfilters.1, hsorts.1⟩
  · rintro ⟨hfilters, hsorts⟩
    constructor
    · rw [filters_add, List.forall_mem_append]
      exact ⟨hfilters, hadmits.kindlessFilters hkind⟩
    · rw [sorts_add, List.forall_mem_append]
      exact ⟨hsorts, hadmits.kindlessSorts hkind⟩

/-- If a block without problems ends as a query below an ancestor and of no kind, the query asks for
the key only exactly if nothing else is asked for up to the last `from`. -/
theorem compile_keyOnly_iff {settings : Settings} {lookup : TypeLookup} {statements : List Stmt}
    (hnone : (compile settings lookup statements).2 = [])
    (hkind : (compile settings lookup statements).1.origin.isKindless = true) :
    (compile settings lookup statements).1.KeyOnly settings ↔
      (compile settings lookup (upToLast .from statements)).1.KeyOnly settings := by
  rw [← (compile_consistent settings lookup statements).kindless] at hkind
  refine upheld_iff (·.kindlessAncestor = true) (·.KeyOnly settings) ?_ hnone hkind
  intro q c hc hadmits hforce
  rw [Query.kindlessAncestor_add hc] at hforce
  exact ⟨hforce, Query.keyOnly_add hadmits hforce⟩

/-- The key is filtered by before the ancestor is named again. -/
theorem compile_keyOnly_iff_renamed : ∃ block,
    Block.read "from parent(p)\nwhere KEY_RESERVED_PROPERTY > a\nfrom childOf = k
      orderBy KEY_RESERVED_PROPERTY\nwhere KEY_RESERVED_PROPERTY < b" = .ok block ∧
    (compile .standard .permissive block.statements).2 = [] ∧
    (compile .standard .permissive block.statements).1.origin.isKindless = true ∧
    (compile .standard .permissive block.statements).1.KeyOnly .standard := by
  refine Block.exists_read (fun block (h :
    (compile .standard .permissive block.statements).2 = [] ∧
    (compile .standard .permissive block.statements).1.origin.isKindless = true ∧
    (compile .standard .permissive (upToLast .from block.statements)).1.KeyOnly .standard) => ?_)
    (by decide +kernel)
  exact ⟨h.1, h.2.1, (compile_keyOnly_iff h.1 h.2.1).2 h.2.2⟩

/-- A filter on another field goes unnoticed if it comes before the ancestor. -/
theorem keyOnly_missed_before_from : ∃ block,
    Block.read "where name == 'x'\nfrom childOf = key" = .ok block ∧
    (compile .standard .permissive block.statements).2 = [] ∧
    (compile .standard .permissive block.statements).1.origin.isKindless = true ∧
    ¬ (compile .standard .permissive block.statements).1.KeyOnly .standard :=
  Block.exists_read (fun _ h => h) (by decide +kernel)

/-! ### Cursors -/

/-- If a block without problems ends as a query with a cursor, no filter has an operator that a
cursor excludes exactly if none up to the last `cursor` has one. -/
theorem compile_cursor_iff {settings : Settings} {lookup : TypeLookup} {statements : List Stmt}
    (hnone : (compile settings lookup statements).2 = [])
    (hcursor : (compile settings lookup statements).1.cursor = true) :
    (∀ f ∈ (compile settings lookup statements).1.filters, f.op ≠ .isIn ∧ f.op ≠ .notEqual) ↔
      ∀ f ∈ (compile settings lookup (upToLast .cursor statements)).1.filters,
        f.op ≠ .isIn ∧ f.op ≠ .notEqual := by
  refine upheld_iff (·.cursor = true)
    (fun q => ∀ f ∈ q.filters, f.op ≠ .isIn ∧ f.op ≠ .notEqual) ?_ hnone hcursor
  intro q c hc hadmits hforce
  -- only a clause of its own makes a query one with a cursor
  have hearlier : q.cursor = true := by
    rw [Query.cursor_add] at hforce
    split at hforce
    · exact absurd hforce hc
    · exact hforce
  refine ⟨hearlier, ?_⟩
  rw [Query.filters_add, List.forall_mem_append]
  exact and_iff_left (hadmits.cursorFilters hearlier)

/-- The cursor is given up and taken again between the filters. -/
theorem compile_cursor_iff_resumed : ∃ block,
    Block.read "cursor keys\nfrom Person\nwhere age > 1\nselect all\nwhere name == n\ncursor all
      where age < 9" = .ok block ∧
    (compile .standard .permissive block.statements).2 = [] ∧
    (compile .standard .permissive block.statements).1.cursor = true ∧
    ∀ f ∈ (compile .standard .permissive block.statements).1.filters,
      f.op ≠ .isIn ∧ f.op ≠ .notEqual := by
  refine Block.exists_read (fun block (h :
    (compile .standard .permissive block.statements).2 = [] ∧
    (compile .standard .permissive block.statements).1.cursor = true ∧
    ∀ f ∈ (compile .standard .permissive (upToLast .cursor block.statements)).1.filters,
      f.op ≠ .isIn ∧ f.op ≠ .notEqual) => ?_) (by decide +kernel)
  exact ⟨h.1, h.2.1, (compile_cursor_iff h.1 h.2.1).2 h.2.2⟩

/-- A filter with `in` goes unnoticed if it comes before the cursor. -/
theorem operator_missed_before_cursor : ∃ block,
    Block.read "where age in [1, 2]\ncursor all\nfrom Person" = .ok block ∧
    (compile .standard .permissive block.statements).2 = [] ∧
    (compile .standard .permissive block.statements).1.cursor = true ∧
    ¬ ∀ f ∈ (compile .standard .permissive block.statements).1.filters,
      f.op ≠ .isIn ∧ f.op ≠ .notEqual :=
  Block.exists_read (fun _ h => h) (by decide +kernel)

end QueryBlocks
