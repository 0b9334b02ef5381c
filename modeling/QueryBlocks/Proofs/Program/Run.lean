import QueryBlocks.Program.Code
import QueryBlocks.Proofs.Query.Admitted
import Mathlib.Logic.Function.Basic

/-!
Running generated programs. A run goes through the instructions in order and keeps what is in the
slots. It stops where a method is called on null. What a clause does to the query that is being
built can be said without its instructions, and a program prepares the query that its clauses
build one after another.
-/
namespace QueryBlocks

/-- What a query object of the store has been told to return. -/
structure QueryObject where
  filters : List Filter
  sorts : List SortKey
  keysOnly : Bool
deriving DecidableEq, Repr

/-- What is in a slot of a running program. -/
inductive Content where
  | value (v : SlotValue)
  | object (o : QueryObject)
deriving DecidableEq, Repr

namespace Content

def null : Content := value .null

/-- `slot += text` -/
def append (text : String) : Content → Content
  | value (.text s) => value (.text (s ++ text))
  | c => c

def object? : Content → Option QueryObject
  | object o => some o
  | value _ => none

@[simp] theorem object?_object {o : QueryObject} : (object o).object? = some o := rfl

end Content

/-- The memory of a running program. -/
structure Memory where
  slot : Slot → Content

namespace Memory

def blank : Memory := ⟨fun _ => .null⟩

def set (m : Memory) (s : Slot) (c : Content) : Memory := ⟨Function.update m.slot s c⟩

/-- Call a method of the object in the query slot, if there is an object. -/
def tell (m : Memory) (f : QueryObject → QueryObject) : Option Memory :=
  (m.slot .query).object?.map fun o => m.set .query (.object (f o))

/-- What a slot holds after its declaration. -/
def initial : Slot → SlotValue
  | .whereFields | .orderByFields => .text ""
  | .fetchOptions => .code "FetchOptions.Builder.withDefaults()"
  | _ => .null

/-- Carry out an instruction. A condition on a slot is met if the slot is not null. What the fetch
options are told and what is fetched in the end is not followed. -/
def step (m : Memory) : Instruction → Option Memory
  | .declare s => some (m.set s (.value (initial s)))
  | .store s v => some (m.set s (.value v))
  | .note s field => some (m.set s ((m.slot s).append ("," ++ field)))
  | .construct => some (m.set .query (.object ⟨[], [], false⟩))
  | .attachAncestor => if m.slot .childOf = .null then some m else m.tell id
  | .restrictToKeys =>
    if m.slot .keys = .null then some m else m.tell fun o => { o with keysOnly := true }
  | .addFilter f => m.tell fun o => { o with filters := o.filters ++ [f] }
  | .addSort key => m.tell fun o => { o with sorts := o.sorts ++ [key] }
  | .prepare => (m.slot .query).object?.map fun o => m.set .preparedQuery (.object o)
  | .tune _ | .tuneIfSet _ | .fetch => some m

def run (m : Memory) (is : List Instruction) : Option Memory := is.foldlM step m

end Memory

/-- The query object that a program prepares, if it gets that far. -/
def Program.prepared? (is : List Instruction) : Option QueryObject :=
  (Memory.blank.run is).bind fun m => (m.slot .preparedQuery).object?

/-- What the next clauses of a program depend on: whether keys are selected, and the query object
that is being built. -/
structure Build where
  keys : Bool
  object : Option QueryObject
deriving DecidableEq, Repr

namespace Build

/-- Nothing is selected and there is no query object. -/
def start : Build := ⟨false, none⟩

/-- Register filters and sort keys. There has to be an object, unless there is nothing to do. -/
def register (b : Build) (filters : List Filter) (sorts : List SortKey) : Option Build :=
  if filters = [] ∧ sorts = [] then some b
  else b.object.map fun o => { b with
    object := some { o with filters := o.filters ++ filters, sorts := o.sorts ++ sorts } }

/-- Go on with a clause: `from` begins a new object, all others leave it or add to it. -/
def add (b : Build) (c : Clause) : Option Build :=
  if c.keyword = .from then some { b with object := some ⟨[], [], b.keys⟩ }
  else { b with keys := c.mode?.elim b.keys (· == Mode.keys) }.register c.filters c.sorts

/-- Go through clauses in order. -/
def ofClauses (clauses : List Clause) : Option Build := clauses.foldlM add start

theorem ofClauses_concat (clauses : List Clause) (c : Clause) :
    ofClauses (clauses ++ [c]) = (ofClauses clauses).bind (·.add c) := by
  simp [ofClauses, Option.bind_eq_bind]

variable {b : Build}

@[simp] theorem register_nil : b.register [] [] = some b := by simp [register]

theorem register_bind {fs gs : List Filter} {ks ls : List SortKey} :
    (b.register fs ks).bind (·.register gs ls) = b.register (fs ++ gs) (ks ++ ls) := by
  by_cases hfirst : fs = [] ∧ ks = []
  · obtain ⟨rfl, rfl⟩ := hfirst
    simp
  · have hboth : ¬ (fs ++ gs = [] ∧ ks ++ ls = []) := fun h =>
      hfirst ⟨(List.append_eq_nil_iff.1 h.1).1, (List.append_eq_nil_iff.1 h.2).1⟩
    obtain ⟨keys, _ | o⟩ := b
    · rw [register, if_neg hfirst, register, if_neg hboth]
      rfl
    · rw [register, if_neg hfirst, register, if_neg hboth, Option.map_some, Option.bind_some]
      by_cases hsecond : gs = [] ∧ ls = []
      · obtain ⟨rfl, rfl⟩ := hsecond
        simp
      · simp [register, hsecond]

end Build

namespace Memory

variable {m : Memory} {s : Slot} {is js : List Instruction}

/-- The declarations of a program are written with these values. -/
theorem written_initial (s : Slot) : (initial s).written = Program.initial s := by
  cases s <;> rfl

@[simp] theorem set_self {c : Content} : (m.set s c).slot s = c := Function.update_self ..

@[simp] theorem set_of_ne {t : Slot} {c : Content} (h : t ≠ s) : (m.set s c).slot t = m.slot t :=
  Function.update_of_ne h ..

@[simp] theorem run_nil : m.run [] = some m := rfl

@[simp] theorem run_cons {i : Instruction} : m.run (i :: is) = (m.step i).bind fun m => m.run is :=
  List.foldlM_cons ..

theorem run_append : m.run (is ++ js) = (m.run is).bind fun m => m.run js := List.foldlM_append ..

/-- What a memory holds of the query that is being built. -/
def build (m : Memory) : Build := ⟨m.slot .keys ≠ .null, (m.slot .query).object?⟩

/-- What instructions do to the query that is being built, whatever else is in memory. -/
def Does (is : List Instruction) (f : Build → Option Build) : Prop :=
  ∀ m : Memory, (m.run is).map build = f m.build

variable {f g : Build → Option Build}

theorem Does.congr (h : Does is f) (hfg : ∀ b, f b = g b) : Does is g := fun m =>
  (h m).trans (hfg _)

theorem Does.append (hf : Does is f) (hg : Does js g) :
    Does (is ++ js) fun b => (f b).bind g := by
  intro m
  change (m.run (is ++ js)).map build = (f m.build).bind g
  rw [run_append, ← hf m]
  cases m.run is with
  | none => rfl
  | some m' => exact hg m'

theorem does_nil : Does [] some := fun _ => rfl

/-- Instructions that leave the query alone, before others. -/
theorem Does.after (hf : Does is some) (hg : Does js g) : Does (is ++ js) g := hf.append hg

/-! ### Instructions -/

/-- The query that is being built is read off two slots only. -/
theorem build_set {c : Content} (hs : s ∉ [.query, .keys]) : (m.set s c).build = m.build := by
  have hquery : Slot.query ≠ s := fun h => hs (by simp [h])
  have hkeys : Slot.keys ≠ s := fun h => hs (by simp [h])
  simp [build, hquery, hkeys]

theorem does_store (s : Slot) (v : SlotValue) (hs : s ∉ [.query, .keys]) :
    Does [.store s v] some := fun _ => congrArg some (build_set hs)

theorem does_store_keys (v : SlotValue) :
    Does [.store .keys v] fun b => some { b with keys := v ≠ .null } := by
  intro m
  simp [step, build, Content.null]

theorem does_note (s : Slot) (field : String) (hs : s ∉ [.query, .keys]) :
    Does [.note s field] some := fun _ => congrArg some (build_set hs)

theorem does_addFilter (f : Filter) : Does [.addFilter f] (·.register [f] []) := by
  intro m
  cases hquery : (m.slot .query).object? <;> simp [step, tell, build, hquery, Build.register]

theorem does_addSort (key : SortKey) : Does [.addSort key] (·.register [] [key]) := by
  intro m
  cases hquery : (m.slot .query).object? <;> simp [step, tell, build, hquery, Build.register]

/-- A new object gets its ancestor and is restricted to keys if they are selected by then. -/
theorem does_construct : Does [.construct, .attachAncestor, .restrictToKeys] fun b =>
    some { b with object := some ⟨[], [], b.keys⟩ } := by
  intro m
  by_cases hchild : m.slot .childOf = .null <;> by_cases hkeys : m.slot .keys = .null <;>
    simp [step, tell, build, hchild, hkeys]

/-! ### Clauses -/

theorem does_setting (setting : Setting) : Does (Instruction.applySetting setting) some := by
  have hstore : Does [.store (.ofParam setting.param) (.code setting.value)] some := by
    cases setting.param <;> exact does_store _ _ (by decide)
  unfold Instruction.applySetting
  split
  · have htune : Does [.tune setting.param] some := fun _ => rfl
    exact hstore.after htune
  · exact hstore

theorem does_settings (settings : List Setting) :
    Does (settings.flatMap Instruction.applySetting) some := by
  induction settings with
  | nil => exact does_nil
  | cons setting settings ih => exact (does_setting setting).after ih

theorem does_selectMode (mode : Mode) :
    Does (Instruction.selectMode mode) fun b => some { b with keys := mode = .keys } := by
  refine ((does_store .all _ (by decide)).after ((does_store_keys _).append
    ((does_store .single _ (by decide)).after (does_store .count _ (by decide))))).congr
    fun b => ?_
  by_cases hmode : mode = .keys
  · simp [hmode]
  · simp [hmode, Ne.symm hmode]

theorem does_filters (fs : List Filter) : Does
    (fs.flatMap fun f => [.note .whereFields f.field, .addFilter f]) (·.register fs []) := by
  induction fs with
  | nil => exact does_nil.congr fun _ => Build.register_nil.symm
  | cons f fs ih =>
    have hfirst := (does_note .whereFields f.field (by decide)).after (does_addFilter f)
    exact (hfirst.append ih).congr fun b => Build.register_bind

theorem does_sorts (keys : List SortKey) : Does
    (keys.flatMap fun key => [.note .orderByFields key.field, .addSort key])
    (·.register [] keys) := by
  induction keys with
  | nil => exact does_nil.congr fun _ => Build.register_nil.symm
  | cons key keys ih =>
    have hfirst := (does_note .orderByFields key.field (by decide)).after (does_addSort key)
    exact (hfirst.append ih).congr fun b => Build.register_bind

theorem does_origin (o : Origin) : Does (Instruction.applyOrigin o) fun b =>
    some { b with object := some ⟨[], [], b.keys⟩ } := by
  have htype : Does (o.typeName.map fun type => .store .pojoClass (.code type)).toList some := by
    cases o.typeName with
    | none => exact does_nil
    | some type => exact does_store .pojoClass _ (by decide)
  have hmarker : Does (o.representation.map fun r => .store .pojo (.text r.text)).toList some := by
    cases o.representation with
    | none => exact does_nil
    | some r => exact does_store .pojo _ (by decide)
  exact (does_store .kind _ (by decide)).after ((htype.after hmarker).after
    ((does_store .childOf _ (by decide)).after does_construct))

/-- The instructions of a clause do what the clause is meant to do. -/
theorem does_clause (c : Clause) : Does (Instruction.ofClause c) (·.add c) := by
  cases c with
  | select mode settings =>
    have hwords := (does_store .select (.text "select") (by decide)).after
      (does_store .cursor .null (by decide))
    cases mode with
    | none =>
      refine ((hwords.after does_nil).after (does_settings settings)).congr fun b => ?_
      exact Build.register_nil.symm
    | some mode =>
      refine ((hwords.after (does_selectMode mode)).append (does_settings settings)).congr
        fun b => ?_
      exact Build.register_nil.symm
  | cursor mode settings =>
    have hwords := (does_store .cursor (.text "cursor") (by decide)).after
      (does_store .select .null (by decide))
    refine ((hwords.after (does_selectMode mode)).append (does_settings settings)).congr
      fun b => ?_
    exact Build.register_nil.symm
  | «from» origin => exact does_origin origin
  | «where» filters => exact does_filters filters
  | orderBy keys => exact does_sorts keys
  | fetchOptions settings =>
    have htune : Does [.tuneIfSet .chunkSize, .tuneIfSet .prefetchSize] some := fun _ => rfl
    refine ((does_settings settings).after htune).congr fun b => ?_
    exact Build.register_nil.symm

theorem does_clauses (clauses : List Clause) :
    Does (clauses.flatMap Instruction.ofClause) fun b => clauses.foldlM Build.add b := by
  induction clauses with
  | nil => exact does_nil
  | cons c clauses ih => exact ((does_clause c).append ih).congr fun _ => rfl

end Memory

/-- A program prepares the query object that its clauses build. -/
theorem Program.prepared?_ofClauses (clauses : List Clause) :
    Program.prepared? (Instruction.ofClauses clauses) =
      (Build.ofClauses clauses).bind Build.object := by
  have hdeclared : (Memory.blank.run (Slot.everyOne.map .declare)).map Memory.build =
      some .start := by decide
  obtain ⟨m, hrun, hstart⟩ := Option.map_eq_some_iff.1 hdeclared
  have hclauses := Memory.does_clauses clauses m
  simp only [hstart] at hclauses
  rw [Program.prepared?, Instruction.ofClauses, Memory.run_append, Memory.run_append, hrun,
    Option.bind_some, Build.ofClauses, ← hclauses]
  cases m.run (clauses.flatMap Instruction.ofClause) with
  | none => rfl
  | some m' => cases hquery : (m'.slot .query).object? <;> simp [Memory.step, Memory.build, hquery]

end QueryBlocks
