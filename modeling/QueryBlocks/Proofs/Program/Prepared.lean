import QueryBlocks.Proofs.Program.Run
import QueryBlocks.Proofs.Query.Classified

/-!
The queries that generated programs prepare. A query object is constructed where a `from` stands, so
what is registered before the last `from` is lost with the object before it, or stops the program if
there is none yet, and a selection of keys that comes later is not seen.
-/
namespace QueryBlocks

/-- The statements before the first call of a keyword. -/
def beforeFirst (word : Keyword) (statements : List Stmt) : List Stmt :=
  statements.takeWhile fun s => s.keyword? ≠ some word

/-- There are neither filters nor sort keys. -/
def Query.Unrestricted (q : Query) : Prop := q.filters = [] ∧ q.sorts = []

instance (q : Query) : Decidable q.Unrestricted := inferInstanceAs (Decidable (_ ∧ _))

namespace Instruction

/-- Whether an instruction tells the query object what to filter or sort by. -/
def registers : Instruction → Bool
  | addFilter _ | addSort _ => true
  | _ => false

/-- No object is begun once something has been registered. -/
def ConstructsFirst (is : List Instruction) : Prop :=
  is.Pairwise fun i j => i.registers = true → j ≠ construct

end Instruction

theorem Query.unrestricted_add {q : Query} {c : Clause} :
    (q.add c).Unrestricted ↔ q.Unrestricted ∧ c.filters = [] ∧ c.sorts = [] := by
  simp [Unrestricted, and_and_and_comm]

theorem Clause.nothing_of_from {c : Clause} (h : c.keyword = .from) :
    c.filters = [] ∧ c.sorts = [] := by
  cases c with
  | «from» => exact ⟨rfl, rfl⟩
  | _ => cases h

/-! ### Parts of blocks -/

section

variable {settings : Settings} {lookup : TypeLookup} {statements part : List Stmt} {s : Stmt}
  {word : Keyword}

theorem exists_called_concat : (∃ t ∈ statements ++ [s], t.keyword? = some word) ↔
    (∃ t ∈ statements, t.keyword? = some word) ∨ s.keyword? = some word := by
  simp [or_and_right, exists_or]

theorem beforeFirst_of_not_called (h : ¬ ∃ t ∈ statements, t.keyword? = some word) :
    beforeFirst word statements = statements :=
  List.takeWhile_eq_self_iff.2 (by simpa using h)

theorem beforeFirst_concat_of_called (h : ∃ t ∈ statements, t.keyword? = some word) :
    beforeFirst word (statements ++ [s]) = beforeFirst word statements := by
  obtain ⟨t, ht, hword⟩ := h
  unfold beforeFirst
  rw [List.takeWhile_append, if_neg]
  intro hlen
  have hself := (List.takeWhile_prefix _).eq_of_length hlen
  simpa [hword] using List.takeWhile_eq_self_iff.1 hself t ht

theorem beforeFirst_concat_of_eq (h : ¬ ∃ t ∈ statements, t.keyword? = some word)
    (hs : s.keyword? = some word) : beforeFirst word (statements ++ [s]) = statements := by
  rw [beforeFirst, List.takeWhile_append_of_pos (by simpa using h)]
  simp [hs]

theorem beforeFirst_prefix_upToLast (h : ∃ t ∈ statements, t.keyword? = some word) :
    beforeFirst word statements <+: upToLast word statements := by
  induction statements using List.reverseRecOn with
  | nil => exact List.prefix_rfl
  | append_singleton statements s ih =>
    by_cases hs : s.keyword? = some word
    · rw [upToLast_concat_of_eq hs]
      exact List.takeWhile_prefix _
    · have hearlier := (exists_called_concat.1 h).resolve_right hs
      rw [upToLast_concat_of_ne hs, beforeFirst_concat_of_called hearlier]
      exact ih hearlier

/-- The filters and sort keys of a block come after those of its first statements. -/
theorem compile_of_initial (hnone : (compile settings lookup statements).2 = [])
    (hpart : part <+: statements) :
    (compile settings lookup part).2 = [] ∧
      (compile settings lookup part).1.filters <+: (compile settings lookup statements).1.filters ∧
      (compile settings lookup part).1.sorts <+: (compile settings lookup statements).1.sorts := by
  induction statements, hnone using compile_induct with
  | nil =>
    obtain rfl := List.prefix_nil.1 hpart
    exact ⟨rfl, List.prefix_rfl, List.prefix_rfl⟩
  | pass statements s _ hnone' _ hsame ih =>
    rcases List.prefix_concat_iff.1 hpart with rfl | hpart
    · exact ⟨hnone', List.prefix_rfl, List.prefix_rfl⟩
    · rw [hsame]
      exact ih hpart
  | add statements s c _ hnone' _ _ hquery ih =>
    rcases List.prefix_concat_iff.1 hpart with rfl | hpart
    · exact ⟨hnone', List.prefix_rfl, List.prefix_rfl⟩
    · obtain ⟨hbefore, hfilters, hsorts⟩ := ih hpart
      rw [hquery, Query.filters_add, Query.sorts_add]
      exact ⟨hbefore, hfilters.trans (List.prefix_append ..), hsorts.trans (List.prefix_append ..)⟩

theorem unrestricted_beforeFirst (hnone : (compile settings lookup statements).2 = [])
    (hcalled : ∃ t ∈ statements, t.keyword? = some word)
    (h : (compile settings lookup (upToLast word statements)).1.Unrestricted) :
    (compile settings lookup (beforeFirst word statements)).1.Unrestricted := by
  have hlast : (compile settings lookup (upToLast word statements)).2 = [] :=
    (compile_of_initial hnone (List.rdropWhile_prefix _ _)).1
  obtain ⟨-, hfilters, hsorts⟩ := compile_of_initial hlast (beforeFirst_prefix_upToLast hcalled)
  rw [h.1] at hfilters
  rw [h.2] at hsorts
  exact ⟨List.prefix_nil.1 hfilters, List.prefix_nil.1 hsorts⟩

end

/-- What makes statements a query is a call of `from`. -/
theorem exists_from_of_classify {statements : List Stmt} {c : Classification}
    (h : classify statements = some c) : ∃ s ∈ statements, s.keyword? = some .from := by
  obtain ⟨s, hs, args, hcall, -⟩ := exists_usable_of_classify h
  exact ⟨s, hs, Draft.keyword?_of_call hcall⟩

/-! ### Objects -/

namespace Build

variable {b b' : Build} {p q : Query} {c : Clause}

theorem register_eq_some_iff {fs : List Filter} {ks : List SortKey} :
    b.register fs ks = some b' ↔ ((fs = [] ∧ ks = []) ∨ b.object.isSome) ∧
      b' = { b with object := b.object.map fun o =>
        { o with filters := o.filters ++ fs, sorts := o.sorts ++ ks } } := by
  obtain ⟨keys, _ | o⟩ := b
  all_goals
    by_cases h : fs = [] ∧ ks = []
    · simp [h, eq_comm]
    · simp [register, h, eq_comm]

theorem isSome_add : (b.add c).isSome ↔
    c.keyword = .from ∨ b.object.isSome ∨ (c.filters = [] ∧ c.sorts = []) := by
  by_cases hc : c.keyword = .from
  · simp [add, hc]
  · simp [add, hc, Option.isSome_iff_exists, register_eq_some_iff, or_comm]

/-- How far a query has been built if its object was begun when the query was `p`. -/
structure Since (p q : Query) (b : Build) : Prop where
  keys : b.keys = true ↔ q.selection = .keys
  filters : ∀ o ∈ b.object, q.filters = p.filters ++ o.filters
  sorts : ∀ o ∈ b.object, q.sorts = p.sorts ++ o.sorts
  keysOnly : ∀ o ∈ b.object, (o.keysOnly = true ↔ p.selection = .keys)

theorem Since.start : Since .empty .empty .start := by
  constructor <;> simp [Build.start, Query.empty]

/-- A new object is begun with nothing registered. -/
theorem Since.from (h : b.Since p q) (hc : c.keyword = .from) (hadd : b.add c = some b') :
    b'.Since (q.add c) (q.add c) ∧ b'.object.isSome := by
  rw [add, if_pos hc, Option.some.injEq] at hadd
  subst hadd
  cases c with
  | «from» origin =>
    have hkeys : b.keys = true ↔ (q.add (.from origin)).selection = .keys := h.keys
    refine ⟨⟨hkeys, ?_, ?_, ?_⟩, rfl⟩
    · rintro o ⟨⟩
      exact (List.append_nil _).symm
    · rintro o ⟨⟩
      exact (List.append_nil _).symm
    · rintro o ⟨⟩
      exact hkeys
  | _ => cases hc

/-- Clauses of other keywords stay with the object that there is. -/
theorem Since.other (h : b.Since p q) (hc : c.keyword ≠ .from) (hadd : b.add c = some b') :
    b'.Since p (q.add c) ∧ b'.object.isSome = b.object.isSome := by
  rw [add, if_neg hc, register_eq_some_iff] at hadd
  obtain ⟨-, rfl⟩ := hadd
  refine ⟨⟨?_, ?_, ?_, ?_⟩, Option.isSome_map⟩
  · rw [Query.selection_add]
    cases c.mode? with
    | none => exact h.keys
    | some mode => exact beq_iff_eq
  all_goals
    intro o' ho'
    obtain ⟨o, ho, rfl⟩ := Option.map_eq_some_iff.1 ho'
  · rw [Query.filters_add, h.filters o ho, List.append_assoc]
  · rw [Query.sorts_add, h.sorts o ho, List.append_assoc]
  · exact h.keysOnly o ho

end Build

section

variable {settings : Settings} {lookup : TypeLookup} {statements : List Stmt}

/-- What a block without problems builds: the object has all that came after the last `from`. -/
theorem Build.since_last_from {b : Build} (hnone : (compile settings lookup statements).2 = [])
    (hb : Build.ofClauses (compile settings lookup statements).1.clauses = some b) :
    b.Since (compile settings lookup (upToLast .from statements)).1
      (compile settings lookup statements).1 ∧
      (b.object.isSome ↔ ∃ s ∈ statements, s.keyword? = some .from) := by
  induction statements, hnone using compile_induct generalizing b with
  | nil =>
    cases hb
    exact ⟨.start, by simp [Build.start]⟩
  | pass statements s _ _ hs hsame ih =>
    have hne : s.keyword? ≠ some .from := by simp [hs]
    rw [upToLast_concat_of_ne hne, exists_called_concat, or_iff_left hne]
    rw [hsame] at hb ⊢
    exact ih hb
  | add statements s c _ _ hs _ hquery ih =>
    rw [hquery, Query.clauses_add, Build.ofClauses_concat] at hb
    obtain ⟨b₀, hb₀, hadd⟩ := Option.bind_eq_some_iff.1 hb
    obtain ⟨hsince, hbegun⟩ := ih hb₀
    rw [exists_called_concat, ← hbegun, hs, Option.some.injEq]
    by_cases hc : c.keyword = .from
    · -- The object before this one is gone, with all that it had been told.
      obtain ⟨hsince', hbegun'⟩ := hsince.from hc hadd
      rw [upToLast_concat_of_eq (hs.trans (congrArg some hc)), hquery]
      exact ⟨hsince', by simp [hbegun', hc]⟩
    · obtain ⟨hsince', hbegun'⟩ := hsince.other hc hadd
      rw [upToLast_concat_of_ne (by simpa [hs] using hc), hquery]
      exact ⟨hsince', by simp [hbegun', hc]⟩

/-- A clause can be gone on with unless it has something to register and there was no `from`. -/
theorem Build.isSome_bind_add_iff {c : Clause}
    (hnone : (compile settings lookup statements).2 = []) :
    ((Build.ofClauses (compile settings lookup statements).1.clauses).bind (·.add c)).isSome ↔
      (Build.ofClauses (compile settings lookup statements).1.clauses).isSome ∧
        (c.keyword = .from ∨ (∃ s ∈ statements, s.keyword? = some .from) ∨
          (c.filters = [] ∧ c.sorts = [])) := by
  cases hb : Build.ofClauses (compile settings lookup statements).1.clauses with
  | none => simp
  | some b =>
    rw [← (Build.since_last_from hnone hb).2, Option.bind_some, Build.isSome_add]
    simp

/-- A block without problems builds something, unless filters or sort keys come before there is an
object to register them with. -/
theorem Build.isSome_ofClauses_iff (hnone : (compile settings lookup statements).2 = []) :
    (Build.ofClauses (compile settings lookup statements).1.clauses).isSome ↔
      (compile settings lookup (beforeFirst .from statements)).1.Unrestricted := by
  induction statements, hnone using compile_induct with
  | nil => exact iff_of_true rfl ⟨rfl, rfl⟩
  | pass statements s _ _ hs hsame ih =>
    have hbefore : (compile settings lookup (beforeFirst .from (statements ++ [s]))).1 =
        (compile settings lookup (beforeFirst .from statements)).1 := by
      by_cases hcalled : ∃ t ∈ statements, t.keyword? = some .from
      · rw [beforeFirst_concat_of_called hcalled]
      · rw [beforeFirst_of_not_called hcalled, beforeFirst_of_not_called, hsame]
        simpa [exists_called_concat, hs] using hcalled
    rw [hsame, hbefore]
    exact ih
  | add statements s c hnone _ hs _ hquery ih =>
    rw [hquery, Query.clauses_add, Build.ofClauses_concat,
      Build.isSome_bind_add_iff hnone, ih]
    by_cases hcalled : ∃ t ∈ statements, t.keyword? = some .from
    · -- There is an object, so nothing can fail any more.
      rw [beforeFirst_concat_of_called hcalled]
      exact and_iff_left (.inr (.inl hcalled))
    · rw [beforeFirst_of_not_called hcalled]
      by_cases hc : c.keyword = .from
      · rw [beforeFirst_concat_of_eq hcalled (hs.trans (congrArg some hc))]
        exact and_iff_left (.inl hc)
      · rw [beforeFirst_of_not_called (by simpa [exists_called_concat, hs, hc] using hcalled),
          hquery, Query.unrestricted_add]
        simp [hc, hcalled]

end

/-! ### Instructions in order -/

namespace Instruction

variable {settings : Settings} {lookup : TypeLookup} {statements : List Stmt} {c : Clause}
  {i : Instruction}

/-- Whether an instruction changes what the query object has been told. -/
def touches (i : Instruction) : Bool := i.registers || i = .construct

theorem touches_eq_false_of_mem_settings {more : List Setting} (h : i ∈ more.flatMap applySetting) :
    i.touches = false := by
  obtain ⟨setting, -, hi⟩ := List.mem_flatMap.1 h
  rcases List.mem_cons.1 hi with rfl | hi
  · rfl
  · split at hi
    · obtain rfl := List.mem_singleton.1 hi
      rfl
    · cases hi

theorem touches_eq_false_of_mem_selectMode {mode : Mode} (h : i ∈ selectMode mode) :
    i.touches = false := by
  obtain ⟨choice, -, hi⟩ := List.mem_filterMap.1 h
  obtain ⟨slot, -, rfl⟩ := Option.map_eq_some_iff.1 hi
  rfl

/-- A clause registers what it has and begins an object if it is a `from`. -/
theorem mem_ofClause (h : i.touches = true) : i ∈ ofClause c ↔
    (∃ f ∈ c.filters, i = addFilter f) ∨ (∃ key ∈ c.sorts, i = addSort key) ∨
      (c.keyword = .from ∧ i = construct) := by
  have hsettings (more : List Setting) : i ∉ more.flatMap applySetting := fun hi => by
    simp [touches_eq_false_of_mem_settings hi] at h
  have hmode (mode : Mode) : i ∉ selectMode mode := fun hi => by
    simp [touches_eq_false_of_mem_selectMode hi] at h
  have hstore (s : Slot) (v : SlotValue) : i ≠ .store s v := by rintro rfl; cases h
  have hnote (s : Slot) (field : String) : i ≠ .note s field := by rintro rfl; cases h
  have htune (param : FetchParam) : i ≠ .tuneIfSet param := by rintro rfl; cases h
  have hattach : i ≠ .attachAncestor := by rintro rfl; cases h
  have hrestrict : i ≠ .restrictToKeys := by rintro rfl; cases h
  cases c with
  | select mode more =>
    cases mode <;> simp [ofClause, Clause.filters, Clause.sorts, Clause.keyword, hstore, hmode,
      hsettings, -List.mem_flatMap]
  | cursor mode more => simp [ofClause, Clause.filters, Clause.sorts, Clause.keyword, hstore, hmode,
      hsettings, -List.mem_flatMap]
  | «from» origin => simp [ofClause, applyOrigin, Clause.filters, Clause.sorts, Clause.keyword,
      hstore, hattach, hrestrict, fun s v => (hstore s v).symm]
  | «where» filters => simp [ofClause, Clause.filters, Clause.sorts, Clause.keyword, hnote]
  | orderBy keys => simp [ofClause, Clause.filters, Clause.sorts, Clause.keyword, hnote]
  | fetchOptions more => simp [ofClause, Clause.filters, Clause.sorts, Clause.keyword, htune,
      hsettings, -List.mem_flatMap]

theorem construct_mem_ofClause : .construct ∈ ofClause c ↔ c.keyword = .from := by
  simp [mem_ofClause (i := .construct) rfl]

theorem forall_mem_ofClause_registers :
    (∀ i ∈ ofClause c, i.registers = false) ↔ c.filters = [] ∧ c.sorts = [] := by
  simp only [List.eq_nil_iff_forall_not_mem]
  constructor
  · intro h
    constructor
    · intro f hf
      exact nomatch h (.addFilter f) ((mem_ofClause rfl).2 (.inl ⟨f, hf, rfl⟩))
    · intro key hkey
      exact nomatch h (.addSort key) ((mem_ofClause rfl).2 (.inr (.inl ⟨key, hkey, rfl⟩)))
  · rintro ⟨hfilters, hsorts⟩ i hi
    by_contra hne
    rw [Bool.not_eq_false] at hne
    rcases (mem_ofClause (by simp [touches, hne])).1 hi with ⟨f, hf, -⟩ | ⟨key, hkey, -⟩ | ⟨-, rfl⟩
    · exact hfilters f hf
    · exact hsorts key hkey
    · cases hne

/-- A program registers something exactly if its query has something to register. -/
theorem forall_mem_clauses_registers (hnone : (compile settings lookup statements).2 = []) :
    (∀ i ∈ (compile settings lookup statements).1.clauses.flatMap ofClause, i.registers = false) ↔
      (compile settings lookup statements).1.Unrestricted := by
  induction statements, hnone using compile_induct with
  | nil => exact iff_of_true nofun ⟨rfl, rfl⟩
  | pass statements s _ _ _ hsame ih =>
    rw [hsame]
    exact ih
  | add statements s c _ _ _ _ hquery ih =>
    rw [hquery, Query.clauses_add, List.flatMap_append, List.forall_mem_append, ih,
      List.flatMap_singleton, forall_mem_ofClause_registers, Query.unrestricted_add]

theorem constructsFirst_ofClause : ConstructsFirst (ofClause c) := by
  refine List.pairwise_of_forall_mem_list fun i hi j hj hregisters hj' => ?_
  subst hj'
  have hnothing := Clause.nothing_of_from (construct_mem_ofClause.1 hj)
  simp [forall_mem_ofClause_registers.2 hnothing i hi] at hregisters

theorem constructsFirst_append_iff_right {is js : List Instruction}
    (h : ∀ i ∈ is, i.registers = false) : ConstructsFirst (is ++ js) ↔ ConstructsFirst js := by
  have hvacuous : ∀ i ∈ is, ∀ j : Instruction, i.registers = true → j ≠ construct := by
    intro i hi j hregisters
    simp [h i hi] at hregisters
  rw [ConstructsFirst, List.pairwise_append]
  constructor
  · exact fun h => h.2.1
  · exact fun hjs => ⟨List.pairwise_of_forall_mem_list fun i hi j _ => hvacuous i hi j, hjs,
      fun i hi j _ => hvacuous i hi j⟩

theorem constructsFirst_append_iff_left {is js : List Instruction} (h : ConstructsFirst js)
    (hconstruct : construct ∉ js) : ConstructsFirst (is ++ js) ↔ ConstructsFirst is := by
  rw [ConstructsFirst, List.pairwise_append]
  exact and_iff_left ⟨h, fun i _ j hj _ hj' => hconstruct (hj' ▸ hj)⟩

/-- The objects of a program are begun first exactly if there is nothing to register up to the last
`from`. -/
theorem constructsFirst_ofClauses_iff (hnone : (compile settings lookup statements).2 = []) :
    ConstructsFirst (ofClauses (compile settings lookup statements).1.clauses) ↔
      (compile settings lookup (upToLast .from statements)).1.Unrestricted := by
  have hdeclare : ∀ i ∈ Slot.everyOne.map declare, i.registers = false := by decide
  have hlast : ConstructsFirst [prepare, fetch] := by simp [ConstructsFirst, registers]
  rw [ofClauses, constructsFirst_append_iff_left hlast (by decide),
    constructsFirst_append_iff_right hdeclare]
  induction statements, hnone using compile_induct with
  | nil => exact iff_of_true .nil ⟨rfl, rfl⟩
  | pass statements s _ _ hs hsame ih =>
    rw [upToLast_concat_of_ne (by simp [hs]), hsame]
    exact ih
  | add statements s c hnone _ hs _ hquery ih =>
    rw [hquery, Query.clauses_add, List.flatMap_append, List.flatMap_singleton]
    by_cases hc : c.keyword = .from
    · rw [upToLast_concat_of_eq (hs.trans (congrArg some hc)), hquery, Query.unrestricted_add,
        ← forall_mem_clauses_registers hnone, and_iff_left (Clause.nothing_of_from hc)]
      constructor
      · intro hfirst i hi
        by_contra hregisters
        have hbefore := (List.pairwise_append.1 hfirst).2.2 i hi _ (construct_mem_ofClause.2 hc)
        exact hbefore (Bool.not_eq_false _ ▸ hregisters) rfl
      · intro hnothing
        exact (constructsFirst_append_iff_right hnothing).2 constructsFirst_ofClause
    · rw [upToLast_concat_of_ne (by simpa [hs] using hc)]
      exact (constructsFirst_append_iff_left constructsFirst_ofClause
        (mt construct_mem_ofClause.1 hc)).trans ih

end Instruction

/-! ### Prepared queries -/

namespace Program

variable {settings : Settings} {lookup : TypeLookup} {statements : List Stmt}

/-- A program gets to the end unless filters or sort keys come before the first `from`. -/
theorem exists_prepared?_iff (hnone : (compile settings lookup statements).2 = [])
    (hcalled : ∃ s ∈ statements, s.keyword? = some .from) :
    (∃ o, prepared? (Instruction.ofClauses (compile settings lookup statements).1.clauses) =
        some o) ↔
      (compile settings lookup (beforeFirst .from statements)).1.Unrestricted := by
  rw [← Build.isSome_ofClauses_iff hnone, prepared?_ofClauses]
  constructor
  · rintro ⟨o, ho⟩
    obtain ⟨b, hb, -⟩ := Option.bind_eq_some_iff.1 ho
    exact Option.isSome_iff_exists.2 ⟨b, hb⟩
  · intro h
    obtain ⟨b, hb⟩ := Option.isSome_iff_exists.1 h
    obtain ⟨o, ho⟩ := Option.isSome_iff_exists.1 ((Build.since_last_from hnone hb).2.2 hcalled)
    exact ⟨o, Option.bind_eq_some_iff.2 ⟨b, hb, ho⟩⟩

/-- What a prepared query object has been told since the last `from`. -/
theorem since_of_prepared? {o : QueryObject} (hnone : (compile settings lookup statements).2 = [])
    (h : prepared? (Instruction.ofClauses (compile settings lookup statements).1.clauses) =
      some o) :
    ∃ b : Build, b.object = some o ∧
      b.Since (compile settings lookup (upToLast .from statements)).1
        (compile settings lookup statements).1 := by
  rw [prepared?_ofClauses] at h
  obtain ⟨b, hb, ho⟩ := Option.bind_eq_some_iff.1 h
  exact ⟨b, ho, (Build.since_last_from hnone hb).1⟩

/-- The program of a block without problems prepares a query object that has all filters and sort
keys of the query in order exactly if there are none of them up to the last `from`, and exactly then
it registers none of them before the last object is begun. -/
theorem registers_all_iff {c : Classification} (hclass : classify statements = some c)
    (hnone : (compile settings lookup statements).2 = []) :
    ((∃ o, prepared? (Instruction.ofClauses (compile settings lookup statements).1.clauses) =
          some o ∧
        o.filters = (compile settings lookup statements).1.filters ∧
        o.sorts = (compile settings lookup statements).1.sorts) ↔
      (compile settings lookup (upToLast .from statements)).1.Unrestricted) ∧
    (Instruction.ConstructsFirst
        (Instruction.ofClauses (compile settings lookup statements).1.clauses) ↔
      (compile settings lookup (upToLast .from statements)).1.Unrestricted) := by
  have hcalled := exists_from_of_classify hclass
  refine ⟨⟨?_, fun h => ?_⟩, Instruction.constructsFirst_ofClauses_iff hnone⟩
  · rintro ⟨o, ho, hfilters, hsorts⟩
    obtain ⟨b, hobject, hsince⟩ := since_of_prepared? hnone ho
    have hfilters' := hsince.filters o hobject
    have hsorts' := hsince.sorts o hobject
    rw [← hfilters, List.self_eq_append_left] at hfilters'
    rw [← hsorts, List.self_eq_append_left] at hsorts'
    exact ⟨hfilters', hsorts'⟩
  · obtain ⟨o, ho⟩ := (exists_prepared?_iff hnone hcalled).2
      (unrestricted_beforeFirst hnone hcalled h)
    obtain ⟨b, hobject, hsince⟩ := since_of_prepared? hnone ho
    refine ⟨o, ho, ?_, ?_⟩
    · rw [hsince.filters o hobject, h.1, List.nil_append]
    · rw [hsince.sorts o hobject, h.2, List.nil_append]

/-- Keys are selected before the `from`, and what comes after it is registered in order. -/
theorem registers_all_iff_selected : ∃ block,
    Block.read "select keys\nfrom Person\nwhere age > 3, age < 9\norderBy age as DESC" = .ok block ∧
    classify block.statements = some ⟨1, none⟩ ∧
    (compile .standard .permissive block.statements).2 = [] ∧
    (∃ o, prepared? (Instruction.ofClauses
        (compile .standard .permissive block.statements).1.clauses) = some o ∧
      o.filters = (compile .standard .permissive block.statements).1.filters ∧
      o.sorts = (compile .standard .permissive block.statements).1.sorts) ∧
    Instruction.ConstructsFirst
      (Instruction.ofClauses (compile .standard .permissive block.statements).1.clauses) := by
  refine Block.exists_read (fun block (h : classify block.statements = some ⟨1, none⟩ ∧
    (compile .standard .permissive block.statements).2 = [] ∧
    (compile .standard .permissive (upToLast .from block.statements)).1.Unrestricted) => ?_)
    (by decide +kernel)
  have hall := registers_all_iff h.1 h.2.1
  exact ⟨h.1, h.2.1, hall.1.2 h.2.2, hall.2.2 h.2.2⟩

/-- A filter before the only `from` is registered with nothing. -/
theorem filter_lost_before_from : ∃ block,
    Block.read "where age > 18\nfrom Person" = .ok block ∧
    classify block.statements = some ⟨1, none⟩ ∧
    (compile .standard .permissive block.statements).2 = [] ∧
    (compile .standard .permissive block.statements).1.filters ≠ [] ∧
    prepared? (Instruction.ofClauses
      (compile .standard .permissive block.statements).1.clauses) = none :=
  Block.exists_read (fun _ h => h) (by decide +kernel)

/-- The program of a block without problems prepares a query object that is restricted to keys
exactly if keys are selected, if there is nothing to register before the first `from` and if the
selection of keys is the same at the last `from` as in the end, and only then. -/
theorem keysOnly_agrees_iff {c : Classification} (hclass : classify statements = some c)
    (hnone : (compile settings lookup statements).2 = []) :
    (∃ o, prepared? (Instruction.ofClauses (compile settings lookup statements).1.clauses) =
          some o ∧
        (o.keysOnly = true ↔ (compile settings lookup statements).1.selection = .keys)) ↔
      (compile settings lookup (beforeFirst .from statements)).1.Unrestricted ∧
        ((compile settings lookup (upToLast .from statements)).1.selection = .keys ↔
          (compile settings lookup statements).1.selection = .keys) := by
  rw [← exists_prepared?_iff hnone (exists_from_of_classify hclass)]
  constructor
  · rintro ⟨o, ho, hkeys⟩
    obtain ⟨b, hobject, hsince⟩ := since_of_prepared? hnone ho
    exact ⟨⟨o, ho⟩, (hsince.keysOnly o hobject).symm.trans hkeys⟩
  · rintro ⟨⟨o, ho⟩, hsame⟩
    obtain ⟨b, hobject, hsince⟩ := since_of_prepared? hnone ho
    exact ⟨o, ho, (hsince.keysOnly o hobject).trans hsame⟩

/-- Keys are selected between the first `from` and the last. -/
theorem keysOnly_agrees_iff_resumed : ∃ block,
    Block.read "select all\nfrom Person\nwhere name == n\ncursor keys\nfrom Cat" = .ok block ∧
    classify block.statements = some ⟨1, none⟩ ∧
    (compile .standard .permissive block.statements).2 = [] ∧
    ∃ o, prepared? (Instruction.ofClauses
        (compile .standard .permissive block.statements).1.clauses) = some o ∧
      (o.keysOnly = true ↔
        (compile .standard .permissive block.statements).1.selection = .keys) := by
  refine Block.exists_read (fun block (h : classify block.statements = some ⟨1, none⟩ ∧
    (compile .standard .permissive block.statements).2 = [] ∧
    (compile .standard .permissive (beforeFirst .from block.statements)).1.Unrestricted ∧
    ((compile .standard .permissive (upToLast .from block.statements)).1.selection = .keys ↔
      (compile .standard .permissive block.statements).1.selection = .keys)) => ?_)
    (by decide +kernel)
  exact ⟨h.1, h.2.1, (keysOnly_agrees_iff h.1 h.2.1).2 h.2.2⟩

/-- A selection of keys after the only `from` restricts nothing. -/
theorem keysOnly_missed_after_from : ∃ block,
    Block.read "from Person\nselect keys" = .ok block ∧
    classify block.statements = some ⟨0, none⟩ ∧
    (compile .standard .permissive block.statements).2 = [] ∧
    (compile .standard .permissive block.statements).1.selection = .keys ∧
    prepared? (Instruction.ofClauses
      (compile .standard .permissive block.statements).1.clauses) = some ⟨[], [], false⟩ :=
  Block.exists_read (fun _ h => h) (by decide +kernel)

end Program

end QueryBlocks
