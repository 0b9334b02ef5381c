import QueryBlocks.Proofs.Program.Run
import QueryBlocks.Proofs.Program.Spelling
import QueryBlocks.Proofs.Program.Values
import QueryBlocks.Proofs.Query.Summary

/-!
What is in the slots of a program when it comes to the fetch. Only stores put a value into the slots
that the fetch depends on, so of each of them it is the last store that counts. The slots then say
what the query says, and the fetch is done by the method that the query asks for.
-/
namespace QueryBlocks

namespace Instruction

/-- The value that an instruction puts into the slot, whatever is there. -/
def stored? (t : Slot) : Instruction → Option SlotValue
  | declare s => if s = t then some (Memory.initial s) else none
  | store s v => if s = t then some v else none
  | _ => none

/-- The slot that is changed from what is there, or with the query that is there. -/
def changed? : Instruction → Option Slot
  | note s _ => some s
  | construct | attachAncestor | restrictToKeys | addFilter _ | addSort _ => some .query
  | prepare => some .preparedQuery
  | _ => none

end Instruction

namespace Memory

variable {m m' : Memory} {i : Instruction} {is js : List Instruction} {t : Slot}

/-- Go through all instructions. Those that would stop a run are passed over. -/
def onward (m : Memory) (is : List Instruction) : Memory :=
  is.foldl (fun m i => (m.step i).getD m) m

theorem onward_append : m.onward (is ++ js) = (m.onward is).onward js := List.foldl_append ..

theorem onward_concat : m.onward (is ++ [i]) = ((m.onward is).step i).getD (m.onward is) :=
  onward_append

/-- A run that is not stopped does the same. -/
theorem onward_of_run (h : m.run is = some m') : m.onward is = m' := by
  induction is generalizing m with
  | nil => exact Option.some.inj h
  | cons i is ih =>
    rw [run_cons] at h
    obtain ⟨n, hstep, hrun⟩ := Option.bind_eq_some_iff.1 h
    have hn : m.onward (i :: is) = n.onward is := by rw [onward, List.foldl_cons, hstep]; rfl
    rw [hn, ih hrun]

theorem slot_tell {f : QueryObject → QueryObject} (ht : Slot.query ≠ t) :
    ((m.tell f).getD m).slot t = m.slot t := by
  unfold tell
  cases (m.slot .query).object? with
  | none => rfl
  | some o => exact set_of_ne ht.symm

theorem slot_step (hi : i.changed? ≠ some t) :
    ((m.step i).getD m).slot t = ((i.stored? t).map Content.value).getD (m.slot t) := by
  have hset (s : Slot) (v : SlotValue) : (m.set s (.value v)).slot t =
      ((if s = t then some v else none).map Content.value).getD (m.slot t) := by
    by_cases hs : s = t
    · simp [hs]
    · simp [hs, Ne.symm hs]
  cases i with
  | declare s => exact hset s _
  | store s v => exact hset s v
  | note s field => exact set_of_ne fun h => hi (congrArg some h.symm)
  | tune | tuneIfSet | fetch => rfl
  | prepare =>
    unfold step
    cases (m.slot .query).object? with
    | none => rfl
    | some o => exact set_of_ne fun h => hi (congrArg some h.symm)
  | construct => exact set_of_ne fun h => hi (congrArg some h.symm)
  | attachAncestor =>
    by_cases hchild : m.slot .childOf = .null
    · rw [step, if_pos hchild]
      rfl
    · rw [step, if_neg hchild]
      exact slot_tell fun h => hi (congrArg some h)
  | restrictToKeys =>
    by_cases hkeys : m.slot .keys = .null
    · rw [step, if_pos hkeys]
      rfl
    · rw [step, if_neg hkeys]
      exact slot_tell fun h => hi (congrArg some h)
  | addFilter | addSort => exact slot_tell fun h => hi (congrArg some h)

/-- The last store into a slot counts. -/
theorem slot_onward (h : ∀ i ∈ is, i.changed? ≠ some t) : (m.onward is).slot t =
    ((is.filterMap (Instruction.stored? t)).getLast?.map Content.value).getD (m.slot t) := by
  induction is using List.reverseRecOn with
  | nil => rfl
  | append_singleton is i ih =>
    rw [List.forall_mem_append] at h
    rw [onward_concat, slot_step (h.2 i (List.mem_singleton_self i)), ih h.1,
      List.filterMap_append, List.getLast?_append]
    cases hi : i.stored? t <;> simp [hi]

end Memory

/-! ### What a query says of the slots -/

namespace Query

/-- The slot of a mode is set if the mode is selected. -/
def flag (q : Query) (mode : Mode) : SlotValue :=
  if q.selection = mode then .text mode.text else .null

def option (q : Query) (param : FetchParam) : SlotValue := (q.fetch.get param).elim .null .code

/-- What has to be in a slot before the fetch, for those slots that the query says something of. -/
def content? (q : Query) : Slot → Option SlotValue
  | .cursor => some (if q.cursor then .text "cursor" else .null)
  | .all => some (q.flag .all)
  | .keys => some (q.flag .keys)
  | .single => some (q.flag .single)
  | .count => some (q.flag .count)
  | .limit => some (q.option .limit)
  | .offset => some (q.option .offset)
  | .chunkSize => some (q.option .chunkSize)
  | .prefetchSize => some (q.option .prefetchSize)
  | .startCursor => some (q.option .startCursor)
  | .endCursor => some (q.option .endCursor)
  | .kind => some (q.origin.kind.elim .null .text)
  | .childOf => some (q.origin.ancestor.elim .null .code)
  | _ => none

end Query

namespace Memory

variable {m : Memory} {q q' : Query} {is js : List Instruction}

/-- The slots say what the query says. -/
def Reflects (m : Memory) (q : Query) : Prop := ∀ t v, q.content? t = some v → m.slot t = .value v

/-- Instructions bring a memory from one query to another if they store what is different. -/
theorem Reflects.onward (h : m.Reflects q)
    (hchanged : ∀ i ∈ is, ∀ s ∈ i.changed?, q.content? s = none)
    (hstored : ∀ t, q'.content? t =
      (q.content? t).map fun v => (is.filterMap (Instruction.stored? t)).getLast?.getD v) :
    (m.onward is).Reflects q' := by
  intro t v hv
  rw [hstored] at hv
  obtain ⟨w, hw, rfl⟩ := Option.map_eq_some_iff.1 hv
  rw [slot_onward, h t w hw]
  · cases (is.filterMap (Instruction.stored? t)).getLast? <;> rfl
  · intro i hi hs
    rw [hchanged i hi t hs] at hw
    cases hw

theorem Reflects.mode (h : m.Reflects q) (mode : Mode) :
    (m.onward (Instruction.selectMode mode)).Reflects { q with selection := mode } := by
  refine h.onward ?_ fun t => ?_
  · simp [Instruction.selectMode, Mode.choices, Slot.ofMode?, Instruction.changed?]
  · cases mode <;> cases t <;> rfl

theorem Reflects.setting (h : m.Reflects q) (v : Setting) :
    (m.onward (Instruction.applySetting v)).Reflects
      { q with fetch := q.fetch.set v.value v.param } := by
  obtain ⟨param, value⟩ := v
  refine h.onward ?_ fun t => ?_
  · cases param <;> simp [Instruction.applySetting, Instruction.changed?]
  · cases param <;> cases t <;> rfl

theorem Reflects.settings (h : m.Reflects q) (settings : List Setting) :
    (m.onward (settings.flatMap Instruction.applySetting)).Reflects (q.withSettings settings) := by
  induction settings generalizing m q with
  | nil => exact h
  | cons v settings ih =>
    rw [List.flatMap_cons, onward_append]
    exact ih (h.setting v)

theorem Reflects.origin (h : m.Reflects q) (o : Origin) :
    (m.onward (Instruction.applyOrigin o)).Reflects { q with origin := o } := by
  obtain ⟨kind, typeName, representation, ancestor⟩ := o
  refine h.onward ?_ fun t => ?_
  · cases typeName <;> cases representation <;>
      simp [Instruction.applyOrigin, Instruction.changed?, Query.content?]
  · cases kind <;> cases typeName <;> cases representation <;> cases ancestor <;> cases t <;> rfl

theorem Reflects.words (h : m.Reflects q) (cursor : Bool) :
    (m.onward (if cursor then [.store .cursor (.text "cursor"), .store .select .null]
      else [.store .select (.text "select"), .store .cursor .null])).Reflects
      { q with cursor := cursor } := by
  refine h.onward ?_ fun t => ?_
  · cases cursor <;> simp [Instruction.changed?]
  · cases cursor <;> cases t <;> rfl

/-- Instructions that store nothing and change none of the slots that the query speaks of. -/
theorem Reflects.quiet (h : m.Reflects q) (hq : q'.content? = q.content?)
    (his : ∀ i ∈ is, (∀ s ∈ i.changed?, q.content? s = none) ∧ ∀ t, i.stored? t = none) :
    (m.onward is).Reflects q' := by
  refine h.onward (fun i hi => (his i hi).1) fun t => ?_
  rw [hq, List.filterMap_eq_nil_iff.2 fun i hi => (his i hi).2 t]
  exact (Option.map_id' ..).symm

/-- What a clause stores is what it adds to the query. -/
theorem Reflects.clause (h : m.Reflects q) (c : Clause) :
    (m.onward (Instruction.ofClause c)).Reflects (q.add c) := by
  cases c with
  | select mode settings =>
    rw [Instruction.ofClause, onward_append, onward_append]
    cases mode with
    | none => exact (h.words false).settings settings
    | some mode => exact ((h.words false).mode mode).settings settings
  | cursor mode settings =>
    rw [Instruction.ofClause, onward_append, onward_append]
    exact ((h.words true).mode mode).settings settings
  | «from» o => exact h.origin o
  | «where» fs =>
    obtain ⟨_, _, _, hadd⟩ := Query.add_where (q := q) fs
    refine h.quiet ?_ (List.forall_mem_flatMap.2 fun f _ => ?_)
    · rw [hadd]
      rfl
    · simp [Instruction.changed?, Instruction.stored?, Query.content?]
  | orderBy keys =>
    refine h.quiet ?_ (List.forall_mem_flatMap.2 fun key _ => ?_)
    · rw [Query.add_orderBy]
      rfl
    · simp [Instruction.changed?, Instruction.stored?, Query.content?]
  | fetchOptions settings =>
    rw [Instruction.ofClause, onward_append]
    exact (h.settings settings).quiet rfl (by simp [Instruction.changed?, Instruction.stored?])

theorem reflects_declared : (blank.onward (Slot.everyOne.map .declare)).Reflects .empty := by
  intro t v hv
  cases t <;> cases hv <;> rfl

end Memory

/-! ### The fetch -/

mutual

/-- The statements that a statement comes down to when its branches are decided. -/
def Stmt.decided (holds : Expr → Bool) : Stmt → List Stmt
  | .branch _ cond body none => if holds cond then body.decided holds else []
  | .branch _ cond body (some other) =>
    if holds cond then body.decided holds else other.decided holds
  | s => [s]

def Block.decided (holds : Expr → Bool) : Block → List Stmt
  | ⟨_, statements⟩ => Stmt.allDecided holds statements

def Stmt.allDecided (holds : Expr → Bool) : List Stmt → List Stmt
  | [] => []
  | s :: more => s.decided holds ++ Stmt.allDecided holds more

end

/-- The method that is called on the variable. -/
def Stmt.asks? (receiver : String) : Stmt → Option String
  | .eval _ (.call _ (some (.var _ name)) method _) => if name = receiver then some method else none
  | _ => none

/-- Whether a condition holds. A slot decides for itself; everything else is left open. -/
def Memory.decides (settings : Settings) (m : Memory) (other : Expr → Bool) (e : Expr) : Bool :=
  match e.name?.bind fun name => Slot.everyOne.find? (Program.slot settings · = name) with
  | some s => m.slot s ≠ .null
  | none => other e

/-- The method that fetches what the query asks for. -/
def Query.fetchMethod (q : Query) : String :=
  if q.cursor then "asQueryResultList"
  else match q.selection with
    | .count => "countEntities"
    | .single => "asSingleEntity"
    | _ => "asList"

namespace Program

/-- The methods of the prepared query that statements call when their branches are decided. -/
def asked (settings : Settings) (holds : Expr → Bool) (statements : List Stmt) : List String :=
  (Stmt.allDecided holds statements).filterMap (Stmt.asks? (slot settings .preparedQuery))

variable {settings : Settings} {holds other : Expr → Bool} {m : Memory} {q : Query} {s : Stmt}
  {cond : Expr} {body more : List Stmt}

theorem asked_cons : asked settings holds (s :: more) =
    asked settings holds [s] ++ asked settings holds more := by
  simp [asked, Stmt.allDecided]

theorem asked_when : asked settings holds [Tree.when cond body] =
    if holds cond then asked settings holds body else [] := by
  simp only [asked, Tree.when, Tree.branch, Option.map_none, Stmt.allDecided, Stmt.decided,
    Block.decided, List.append_nil]
  split <;> rfl

theorem asked_choose : asked settings holds [Tree.choose cond body more] =
    if holds cond then asked settings holds body else asked settings holds more := by
  simp only [asked, Tree.choose, Tree.branch, Option.map_some, Stmt.allDecided, Stmt.decided,
    Block.decided, List.append_nil]
  split <;> rfl

theorem asked_tune {param : FetchParam} {e : Expr} :
    asked settings holds [Tree.tune settings param e] = [] := by
  simp [asked, Stmt.allDecided, Stmt.decided, Tree.tune, Tree.run, Tree.ask, Tree.ref, Stmt.asks?,
    slot_inj]

theorem asked_fetching {method : String} {args : List Expr} :
    asked settings holds [Tree.fetching settings method args] = [method] := by
  simp [asked, Stmt.allDecided, Stmt.decided, Tree.fetching, Tree.run, Tree.ask, Tree.ref,
    Stmt.asks?]

/-- Cursors go to the fetch options only. -/
theorem asked_convertCursor {param : FetchParam} :
    asked settings holds [Tree.convertCursor settings param] = [] := by
  simp [Tree.convertCursor, asked_when, asked_choose, asked_tune]

theorem decides_ref (t : Slot) :
    m.decides settings other (Tree.ref settings t) = decide (m.slot t ≠ .null) := by
  have hfind : Slot.everyOne.find? (slot settings · = slot settings t) = some t := by
    simp only [slot_inj]
    cases t <;> rfl
  simp only [Memory.decides, Tree.ref, Expr.name?, Option.bind_some, hfind]

theorem asked_fetch (h : m.Reflects q) :
    asked settings (m.decides settings other) [Tree.fetch settings] = [q.fetchMethod] := by
  have hcursor : m.slot .cursor ≠ .null ↔ q.cursor = true := by
    rw [h .cursor _ rfl]
    cases q.cursor <;> simp [Content.null]
  have hmode (mode : Mode) (t : Slot) (ht : q.content? t = some (q.flag mode)) :
      m.slot t ≠ .null ↔ q.selection = mode := by
    rw [h t _ ht, Query.flag]
    split <;> simp_all [Content.null]
  have hlist : asked settings (m.decides settings other)
      [Tree.convertCursor settings .startCursor, Tree.convertCursor settings .endCursor,
        Tree.fetching settings "asQueryResultList" [Tree.ref settings .fetchOptions]] =
      ["asQueryResultList"] := by
    rw [asked_cons, asked_convertCursor, asked_cons, asked_convertCursor, asked_fetching]
    rfl
  simp only [Tree.fetch, asked_choose, hlist, asked_fetching, decides_ref, decide_eq_true_eq,
    hcursor, hmode .all .all rfl, hmode .count .count rfl, hmode .single .single rfl]
  unfold Query.fetchMethod
  cases q.cursor <;> cases q.selection <;> rfl

/-- The instructions before the query is prepared. -/
def opening (clauses : List Clause) : List Instruction :=
  Slot.everyOne.map .declare ++ clauses.flatMap Instruction.ofClause

theorem opening_concat (clauses : List Clause) (c : Clause) :
    opening (clauses ++ [c]) = opening clauses ++ Instruction.ofClause c := by
  simp [opening]

/-- When a program has gone through the clauses of a compiled query, its slots say what the query
says, whatever was reported. A run may be stopped before, at a call on null. The branches of the
fetch then come down to the one method that the query asks for. -/
theorem opening_reflects (settings : Settings) (lookup : TypeLookup) (statements : List Stmt) :
    let q := (compile settings lookup statements).1
    let m := Memory.blank.onward (opening q.clauses)
    Instruction.ofClauses q.clauses = opening q.clauses ++ [.prepare, .fetch] ∧
    m.Reflects q ∧
    (Memory.blank.run (opening q.clauses) = none ∨
      Memory.blank.run (opening q.clauses) = some m) ∧
    Prints 0 (lines settings .fetch) [Tree.fetch settings] ∧
    ∀ other, asked settings ((m.onward [.prepare]).decides settings other)
      [Tree.fetch settings] = [q.fetchMethod] := by
  intro q m
  have hreflects : m.Reflects q := by
    refine @compile_keeps settings lookup
      (fun q => (Memory.blank.onward (opening q.clauses)).Reflects q)
      Memory.reflects_declared (fun q c h => ?_) statements
    rw [Query.clauses_add, opening_concat, Memory.onward_append]
    exact h.clause c
  have hprepared : (m.onward [.prepare]).Reflects q :=
    hreflects.quiet rfl (by simp [Instruction.changed?, Instruction.stored?, Query.content?])
  refine ⟨rfl, hreflects, ?_, Tree.prints_fetch, fun other => asked_fetch hprepared⟩
  cases hrun : Memory.blank.run (opening q.clauses) with
  | none => exact .inl rfl
  | some m' => exact .inr (congrArg some (Memory.onward_of_run hrun).symm)

end Program

end QueryBlocks
