import QueryBlocks.Proofs.Query.Written
import QueryBlocks.Proofs.Script.Unplaced

/-!
Places do not decide what is a query, nor what is written in it: a block without places has the same
clauses, with the same texts.
-/
namespace QueryBlocks

/-! ### Classification -/

@[simp] theorem Expr.name?_bare (e : Expr) : e.bare.name? = e.name? := by
  cases e <;> simp [name?]

theorem Stmt.keywordCall?_bare (s : Stmt) :
    s.bare.keywordCall? = s.keywordCall?.map fun (word, args) => (word, args.map Expr.bare) := by
  cases s with
  | eval _ e =>
    cases e with
    | call _ receiver name args =>
      cases receiver <;> simp [keywordCall?, Function.comp_def]
    | _ => simp [keywordCall?]
  | _ => simp [keywordCall?]

theorem Stmt.isBareKeyword_bare (s : Stmt) : s.bare.isBareKeyword = s.isBareKeyword := by
  cases s with
  | eval _ e => cases e <;> simp [isBareKeyword]
  | _ => simp [isBareKeyword]

theorem usableFrom_bare (args : List Expr) :
    usableFrom (args.map Expr.bare) = usableFrom args := by
  have hfirst (e : Expr) : usableFrom [e.bare] = usableFrom [e] := by
    cases e with
    | call _ receiver => cases receiver <;> simp [usableFrom]
    | binary _ _ op => cases op <;> simp [usableFrom]
    | _ => simp [usableFrom]
  match args with
  | [] => rfl
  | [first] => exact hfirst first
  | [first, second] => exact hfirst first
  | _ :: _ :: _ :: _ => rfl

theorem classifyFrom_bare (index : Nat) (ss : List Stmt) :
    classifyFrom index (ss.map Stmt.bare) = classifyFrom index ss := by
  induction ss generalizing index with
  | nil => rfl
  | cons s ss ih =>
    rw [List.map_cons, classifyFrom, classifyFrom, Stmt.keywordCall?_bare,
      Stmt.isBareKeyword_bare, ih]
    rcases s.keywordCall? with _ | ⟨word, args⟩
    · rfl
    · cases word with
      | «from» =>
        have h := usableFrom_bare args
        simp only [Option.map_some, h]
      | _ => rfl

theorem classify_bare (ss : List Stmt) : classify (ss.map Stmt.bare) = classify ss :=
  classifyFrom_bare 0 ss

/-! ### Clauses -/

namespace Written

def Setting.bare (v : Setting) : Setting := { v with value := v.value.bare }

def Filter.bare (f : Filter) : Filter := { f with value := f.value.bare }

def Origin.bare (o : Origin) : Origin := { o with ancestor := o.ancestor.map Expr.bare }

def Clause.bare : Clause → Clause
  | select mode settings => select mode (settings.map Setting.bare)
  | cursor mode settings => cursor mode (settings.map Setting.bare)
  | «from» origin => «from» origin.bare
  | «where» filters => «where» (filters.map Filter.bare)
  | orderBy keys => orderBy keys
  | fetchOptions settings => fetchOptions (settings.map Setting.bare)

theorem Setting.of?_bare (allowed : List FetchParam) (e : Expr) :
    Setting.of? allowed e.bare = (Setting.of? allowed e).map Setting.bare := by
  cases e with
  | call _ receiver name args =>
    rcases receiver with _ | receiver
    · rcases args with _ | ⟨value, _ | _⟩ <;> simp [Setting.of?, Setting.bare, Function.comp_def]
    · simp [Setting.of?]
  | binary _ left op value =>
    cases left with
    | var => cases op <;> simp [Setting.of?, Setting.bare, Function.comp_def]
    | _ => simp [Setting.of?]
  | _ => simp [Setting.of?]

theorem Filter.of?_bare (e : Expr) : Filter.of? e.bare = (Filter.of? e).map Filter.bare := by
  cases e with
  | binary _ left op value =>
    cases left with
    | var => simp [Filter.of?, Filter.bare, Function.comp_def]
    | _ => simp [Filter.of?]
  | _ => simp [Filter.of?]

theorem ancestor?_bare (e : Expr) : ancestor? e.bare = (ancestor? e).map Expr.bare := by
  cases e with
  | call _ receiver name args =>
    rcases receiver with _ | receiver
    · rcases args with _ | ⟨value, _ | _⟩ <;> simp [ancestor?]
    · simp [ancestor?]
  | binary _ left op value =>
    cases left with
    | var _ name => cases op <;> simp [ancestor?]
    | _ => simp [ancestor?]
  | _ => simp [ancestor?]

theorem Origin.of_bare (first : Expr) (more : List Expr) :
    Origin.of first.bare (more.map Expr.bare) = (Origin.of first more).bare := by
  have hmore : (more.map Expr.bare).head?.bind ancestor? =
      (more.head?.bind ancestor?).map Expr.bare := by
    cases more with
    | nil => rfl
    | cons second => exact ancestor?_bare second
  unfold Origin.of
  rw [ancestor?_bare, hmore]
  cases ancestor? first with
  | some value => rfl
  | none =>
    cases first with
    | cast _ marker type =>
      cases marker with
      | var _ word =>
        simp only [Expr.bare_cast, Expr.bare_var, Option.map_none]
        cases Representation.ofMarker? word <;> rfl
      | _ => simp [Origin.bare, Origin.empty]
    | _ => simp [Origin.bare, Origin.empty]

theorem cursorMode_bare (args : List Expr) :
    (Draft.cursorMode (args.map Expr.bare)).1 = (Draft.cursorMode args).1 ∧
      (Draft.cursorMode (args.map Expr.bare)).2.2 = (Draft.cursorMode args).2.2.map Expr.bare := by
  rcases args with _ | ⟨first, more⟩
  · exact ⟨rfl, rfl⟩
  · cases first with
    | var _ name =>
      simp only [List.map_cons, Expr.bare_var, Draft.cursorMode]
      split
      · exact ⟨rfl, rfl⟩
      · split <;> exact ⟨rfl, rfl⟩
    | _ => simp [Draft.cursorMode]

theorem sortKey_bare (e : Expr) : (SortKey.read e.bare).toOption = (SortKey.read e).toOption := by
  cases e with
  | cast _ value marker =>
    simp only [Expr.bare_cast, SortKey.read, Expr.name?_bare]
    cases value.name? <;> cases Direction.ofMarker? marker <;> rfl
  | _ => simp [SortKey.read, Except.toOption]

theorem settings_bare (allowed : List FetchParam) (args : List Expr) :
    (args.map Expr.bare).filterMap (Setting.of? allowed) =
      (args.filterMap (Setting.of? allowed)).map Setting.bare := by
  simp [List.filterMap_map, List.map_filterMap, Setting.of?_bare]

theorem Clause.ofCall_bare (word : Keyword) (args : List Expr) :
    Clause.ofCall word (args.map Expr.bare) = (Clause.ofCall word args).map Clause.bare := by
  cases word with
  | select =>
    have hmode : (args.map Expr.bare).head?.bind Expr.name? = args.head?.bind Expr.name? := by
      cases args <;> simp
    simp only [Clause.ofCall, Option.map_some, Clause.bare, hmode, ← List.map_tail, settings_bare]
  | cursor =>
    simp only [Clause.ofCall, Option.map_some, Clause.bare, cursorMode_bare, settings_bare]
  | «from» =>
    cases args with
    | nil => rfl
    | cons first more =>
      simp only [List.map_cons, Clause.ofCall, Option.map_some, Clause.bare, Origin.of_bare]
  | «where» =>
    have hfilters : (args.map Expr.bare).filterMap Filter.of? =
        (args.filterMap Filter.of?).map Filter.bare := by
      simp [List.filterMap_map, List.map_filterMap, Filter.of?_bare]
    simp only [Clause.ofCall, Option.map_some, Clause.bare, hfilters]
  | orderBy =>
    have hkeys : accepted ((args.map Expr.bare).map SortKey.read) =
        accepted (args.map SortKey.read) := by
      simp [accepted_map, Function.comp_def, sortKey_bare]
    simp only [Clause.ofCall, Option.map_some, Clause.bare, hkeys]
  | fetchOptions => simp only [Clause.ofCall, Option.map_some, Clause.bare, settings_bare]

theorem Clause.of?_bare (s : Stmt) : Clause.of? s.bare = (Clause.of? s).map Clause.bare := by
  rw [Clause.of?, Clause.of?, Stmt.keywordCall?_bare]
  cases s.keywordCall? with
  | none => rfl
  | some call => exact Clause.ofCall_bare call.1 call.2

theorem Clause.text_bare (c : Clause) : c.bare.text = c.text := by
  have hsetting (v : Setting) : v.bare.text = v.text := by
    simp [Setting.bare, Setting.text]
  have hfilter (f : Filter) : f.bare.text = f.text := by
    simp [Filter.bare, Filter.text]
  have horigin (o : Origin) : o.bare.text = o.text := by
    simp [Origin.bare, Origin.text, Function.comp_def]
  cases c <;> simp [Clause.bare, Clause.text, hsetting, hfilter, horigin, Function.comp_def]

/-- The texts of the clauses do not depend on places. -/
theorem clauses_bare (b : Block) :
    (clauses b.bare).map Clause.text = (clauses b).map Clause.text := by
  obtain ⟨_, statements⟩ := b
  simp [clauses, List.filterMap_map, List.map_filterMap, Function.comp_def, Clause.of?_bare,
    Clause.text_bare]

end Written

end QueryBlocks
