import QueryBlocks.Proofs.Program.Tree
import QueryBlocks.Proofs.Script.Bare
import Mathlib.Data.List.Basic

/-!
The names and values in a generated program. Its variables are the slots, each filter is added with
its value, and each slot for a value gets those that are written for it, all in the order of the
query.
-/
namespace QueryBlocks

/-! ### Parts of statements -/

/-- The variable that is declared. -/
def Stmt.declared? : Stmt → Option String
  | .declare _ _ name _ => some name
  | _ => none

/-- The third argument of a call of `addFilter`. -/
def Stmt.filterValue? : Stmt → Option Expr
  | .eval _ (.call _ _ name [_, _, value]) => if name = "addFilter" then some value else none
  | _ => none

/-- The right side of an assignment to the variable. -/
def Stmt.assigned? (name : String) : Stmt → Option Expr
  | .eval _ (.binary _ (.var _ other) .assign value) => if other = name then some value else none
  | _ => none

theorem declared?_bare (s : Stmt) : s.bare.declared? = s.declared?.map id := by
  cases s <;> simp [Stmt.declared?]

theorem filterValue?_bare (s : Stmt) : s.bare.filterValue? = s.filterValue?.map Expr.bare := by
  cases s with
  | eval _ e =>
    cases e with
    | call _ receiver name args =>
      rcases args with _ | ⟨_, _ | ⟨_, _ | ⟨_, _ | _⟩⟩⟩ <;> simp [Stmt.filterValue?]
    | _ => rfl
  | _ => simp [Stmt.filterValue?]

theorem assigned?_bare (name : String) (s : Stmt) :
    s.bare.assigned? name = (s.assigned? name).map Expr.bare := by
  cases s with
  | eval _ e =>
    cases e with
    | binary _ left op right =>
      cases left with
      | var => cases op <;> simp [Stmt.assigned?]
      | _ => simp [Stmt.assigned?]
    | _ => simp [Stmt.assigned?]
  | _ => simp [Stmt.assigned?]

section places

variable {α : Type} {g : α → α} {f : Stmt → Option α} {ss ts : List Stmt}

/-- What is taken from statements without regard to places is the same if they are. -/
theorem filterMap_of_bare (hf : ∀ s, f s.bare = (f s).map g)
    (h : ss.map Stmt.bare = ts.map Stmt.bare) :
    (ss.filterMap f).map g = (ts.filterMap f).map g := by
  have hbare (ss : List Stmt) : (ss.filterMap f).map g = (ss.map Stmt.bare).filterMap f := by
    rw [List.map_filterMap, List.filterMap_map]
    exact congrArg (List.filterMap · ss) (funext fun s => (hf s).symm)
  rw [hbare, hbare, h]

end places

/-! ### Slots -/

theorem slot_inj {settings : Settings} {s t : Slot} :
    Program.slot settings s = Program.slot settings t ↔ s = t := by
  refine ⟨fun h => ?_, fun h => h ▸ rfl⟩
  have hname : s.name = t.name := by
    simpa [Program.slot, Settings.slot, ← String.toList_inj] using h
  revert hname
  cases s <;> cases t <;> decide

theorem nodup_slots (settings : Settings) :
    (Slot.everyOne.map fun s => s.name ++ settings.suffix).Nodup := by
  have hslots : Slot.everyOne.Nodup := by decide
  exact List.Pairwise.map _ (fun s t hne heq => hne (slot_inj.mp heq)) hslots

/-- The slots that take values of the query. -/
def Slot.holdsValue : Slot → Bool
  | .limit | .offset | .chunkSize | .prefetchSize | .startCursor | .endCursor | .childOf => true
  | _ => false

/-- What a clause puts into such a slot. Without an ancestor it is cleared. -/
def Written.Clause.storedAt (s : Slot) (c : Written.Clause) : List Expr :=
  c.settings.filterMap (fun v => if Slot.ofParam v.param = s then some v.value else none) ++
    c.origin?.toList.filterMap fun o =>
      if Slot.childOf = s then some (o.ancestor.getD Program.Tree.null) else none

namespace Program

namespace Tree

variable {α : Type} {settings : Settings}

/-- What `f` takes from a program: it looks at nothing but the names of slots and the values of
settings, ancestors and filters. -/
structure Takes (settings : Settings) (f : Stmt → Option α) (ofSlot : Slot → Option α)
    (ofSetting : Written.Setting → Option α) (ofOrigin : Written.Origin → Option α)
    (ofFilter : Written.Filter → Option α) : Prop where
  declaration : ∀ s, f (declaration settings s) = ofSlot s
  setting : ∀ v, f (assign settings (.ofParam v.param) v.value) = ofSetting v
  ancestor : ∀ o, f (assign settings .childOf (o.ancestor.getD null)) = ofOrigin o
  filter : ∀ x, f (addFilter settings x) = ofFilter x
  plain : ∀ s e, s.holdsValue = false → f (assign settings s e) = none
  tune : ∀ param e, f (tune settings param e) = none
  note : ∀ s field, f (note settings s field) = none
  sort : ∀ key, f (addSort settings key) = none
  branch : ∀ c ss other, f (branch c ss other) = none

theorem takes_declared : Takes settings Stmt.declared? (fun s => some (slot settings s))
    (fun _ => none) (fun _ => none) (fun _ => none) := by
  constructor <;> intros <;> rfl

theorem takes_filterValue : Takes settings Stmt.filterValue? (fun _ => none)
    (fun _ => none) (fun _ => none) (fun x => some x.value) := by
  constructor <;> intros <;> rfl

theorem takes_assigned {t : Slot} (ht : t.holdsValue = true) :
    Takes settings (Stmt.assigned? (slot settings t)) (fun _ => none)
      (fun v => if Slot.ofParam v.param = t then some v.value else none)
      (fun o => if Slot.childOf = t then some (o.ancestor.getD null) else none)
      (fun _ => none) := by
  have hassign (s : Slot) (e : Expr) : (assign settings s e).assigned? (slot settings t) =
      if s = t then some e else none := by
    simp only [assign, run, ref, Stmt.assigned?, slot_inj]
  constructor
  case setting => exact fun v => hassign _ _
  case ancestor => exact fun o => hassign _ _
  case plain =>
    intro s e hs
    rw [hassign, if_neg]
    rintro rfl
    rw [ht] at hs
    cases hs
  all_goals intros; rfl

namespace Takes

variable {f : Stmt → Option α} {ofSlot : Slot → Option α} {ofSetting : Written.Setting → Option α}
  {ofOrigin : Written.Origin → Option α} {ofFilter : Written.Filter → Option α}
  (h : Takes settings f ofSlot ofSetting ofOrigin ofFilter)

include h

theorem of_settings (values : List Written.Setting) :
    (values.flatMap (Tree.setting settings)).filterMap f = values.filterMap ofSetting := by
  rw [List.filterMap_flatMap, List.filterMap_eq_flatMap_toList]
  refine congrArg (List.flatMap · values) (funext fun v => ?_)
  rw [← h.setting v, Tree.setting, List.filterMap_eq_flatMap_toList]
  split <;> simp [h.tune]

theorem of_mode (m : Mode) : (mode settings m).filterMap f = [] := by
  rw [mode, List.filterMap_map, List.filterMap_eq_nil_iff]
  rintro ⟨s, choice⟩ hmem
  refine h.plain s _ ?_
  revert hmem
  cases s <;> simp [Slot.holdsValue]

theorem of_words {s t : Slot} {e e' : Expr} (hs : s.holdsValue = false)
    (ht : t.holdsValue = false) : [assign settings s e, assign settings t e'].filterMap f = [] := by
  simp [h.plain s e hs, h.plain t e' ht]

theorem of_origin (o : Written.Origin) :
    (origin settings o).filterMap f = (ofOrigin o).toList := by
  have htype : (o.typeName.map fun type =>
      assign settings .pojoClass (ofType type)).toList.filterMap f = [] := by
    cases o.typeName with
    | none => rfl
    | some type => simp [h.plain .pojoClass _ rfl]
  have hpojo : (o.representation.map fun r =>
      assign settings .pojo (text r.text)).toList.filterMap f = [] := by
    cases o.representation with
    | none => rfl
    | some r => simp [h.plain .pojo _ rfl]
  rw [← h.ancestor o, origin, List.filterMap_cons, h.plain .kind _ rfl, List.filterMap_append,
    List.filterMap_append, htype, hpojo, List.filterMap_eq_flatMap_toList]
  simp [construct, attachAncestor, restrictToKeys, choose, when, h.branch]

theorem of_clause (c : Written.Clause) : (clause settings c).filterMap f =
    c.settings.filterMap ofSetting ++
      (c.origin?.toList.filterMap ofOrigin ++ c.filters.filterMap ofFilter) := by
  cases c with
  | select m values =>
    have hmode : ((m.map (mode settings)).getD []).filterMap f = [] := by
      cases m with
      | none => rfl
      | some m => exact h.of_mode m
    rw [clause, List.filterMap_append, List.filterMap_append, h.of_settings, hmode,
      h.of_words rfl rfl]
    exact (List.append_nil _).symm
  | cursor m values =>
    rw [clause, List.filterMap_append, List.filterMap_append, h.of_settings, h.of_mode,
      h.of_words rfl rfl]
    exact (List.append_nil _).symm
  | «from» o =>
    rw [clause, h.of_origin, List.filterMap_eq_flatMap_toList (f := ofOrigin)]
    simp [Written.Clause.settings, Written.Clause.origin?, Written.Clause.filters]
  | «where» filters =>
    have hfilter (x : Written.Filter) : [Tree.note settings .whereFields x.field,
        addFilter settings x].filterMap f = (ofFilter x).toList := by
      rw [← h.filter x, List.filterMap_eq_flatMap_toList]
      simp [h.note]
    rw [clause, List.filterMap_flatMap]
    simp only [hfilter, ← List.filterMap_eq_flatMap_toList]
    rfl
  | orderBy keys =>
    rw [clause, List.filterMap_flatMap]
    simp [h.note, h.sort, Written.Clause.settings, Written.Clause.origin?, Written.Clause.filters]
  | fetchOptions values =>
    rw [clause, List.filterMap_append, h.of_settings]
    simp [h.branch, tuneIfSet, when, Written.Clause.settings, Written.Clause.origin?,
      Written.Clause.filters]

theorem of_tree (clauses : List Written.Clause) : (tree settings clauses).filterMap f =
    Slot.everyOne.filterMap ofSlot ++ clauses.flatMap fun c => c.settings.filterMap ofSetting ++
      (c.origin?.toList.filterMap ofOrigin ++ c.filters.filterMap ofFilter) := by
  have hslots : (Slot.everyOne.map (Tree.declaration settings)).filterMap f =
      Slot.everyOne.filterMap ofSlot := by
    rw [List.filterMap_map]
    exact congrArg (List.filterMap · Slot.everyOne) (funext h.declaration)
  rw [tree, List.filterMap_append, List.filterMap_append, hslots, List.filterMap_flatMap]
  simp only [h.of_clause]
  simp [prepare, h.plain .preparedQuery _ rfl, fetch, choose, h.branch]

end Takes

end Tree

/-- The statements are the program for the clauses, with the names of the slots and the values of
the clauses in their places. -/
structure Realizes (settings : Settings) (clauses : List Written.Clause) (statements : List Stmt) :
    Prop where
  program : Stmt.sameAll statements (tree settings clauses) = true
  declared : statements.filterMap Stmt.declared? =
    Slot.everyOne.map fun s => s.name ++ settings.suffix
  filters : Expr.sameAll (statements.filterMap Stmt.filterValue?)
    ((clauses.flatMap Written.Clause.filters).map Written.Filter.value) = true
  stored : ∀ s : Slot, s.holdsValue = true →
    Expr.sameAll (statements.filterMap (Stmt.assigned? (slot settings s)))
      (clauses.flatMap (Written.Clause.storedAt s)) = true

theorem Realizes.of_bare {settings : Settings} {clauses : List Written.Clause}
    {statements : List Stmt}
    (h : statements.map Stmt.bare = (tree settings clauses).map Stmt.bare) :
    Realizes settings clauses statements where
  program := Stmt.sameAll_of_bare_eq h
  declared := by
    have hnames := filterMap_of_bare declared?_bare h
    have hclauses : clauses.flatMap (fun _ => ([] : List String)) = [] := by simp
    rw [List.map_id, List.map_id, Tree.takes_declared.of_tree] at hnames
    simpa [slot, Settings.slot, List.filterMap_eq_map', hclauses] using hnames
  filters := by
    have hvalues := Expr.sameAll_of_bare_eq (filterMap_of_bare filterValue?_bare h)
    rw [Tree.takes_filterValue.of_tree] at hvalues
    simpa [List.map_flatMap] using hvalues
  stored s hs := by
    have hvalues := Expr.sameAll_of_bare_eq (filterMap_of_bare (assigned?_bare (slot settings s)) h)
    rw [(Tree.takes_assigned hs).of_tree] at hvalues
    simp only [List.filterMap_none, List.nil_append, List.append_nil] at hvalues
    exact hvalues

end Program

end QueryBlocks
