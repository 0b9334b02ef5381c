import QueryBlocks.Proofs.Query.Category

/-!
The clauses of a query block as they are written, with the values as expressions. The clauses of the
compiled query are these, in order, with the texts of the values.
-/
namespace QueryBlocks

namespace Written

/-- A setting and the expression that is its value. -/
structure Setting where
  param : FetchParam
  value : Expr

/-- A predicate that is taken as a filter, with its right operand. -/
structure Filter where
  field : String
  op : FilterOp
  value : Expr

structure Origin where
  kind : Option String
  typeName : Option String
  representation : Option Representation
  ancestor : Option Expr

inductive Clause where
  | select (mode : Option Mode) (settings : List Setting)
  | cursor (mode : Mode) (settings : List Setting)
  | from (origin : Origin)
  | where (filters : List Filter)
  | orderBy (keys : List SortKey)
  | fetchOptions (settings : List Setting)

/-- The value in `name(value)` or `name = value`, if the name is one of those allowed. -/
def Setting.of? (allowed : List FetchParam) : Expr → Option Setting
  | .call _ none name [value] | .binary _ (.var _ name) .assign value =>
    ((FetchParam.ofName? name).filter allowed.contains).map (⟨·, value⟩)
  | _ => none

/-- `field op value` -/
def Filter.of? : Expr → Option Filter
  | .binary _ (.var _ field) op value => (FilterOp.ofBinOp? op).map (⟨field, ·, value⟩)
  | _ => none

/-- The value in `childOf = key` or `childOf(key)`. -/
def ancestor? : Expr → Option Expr
  | .call _ none name [value] | .binary _ (.var _ name) .assign value =>
    if isAncestorName name then some value else none
  | _ => none

def Origin.empty : Origin := ⟨none, none, none, none⟩

/-- An ancestor alone, or a kind or type that an ancestor may follow. -/
def Origin.of (first : Expr) (more : List Expr) : Origin :=
  match ancestor? first, first with
  | some value, _ => { Origin.empty with ancestor := some value }
  | none, .var _ name => { Origin.empty with
      kind := some name
      ancestor := more.head?.bind ancestor? }
  | none, .cast _ (.var _ word) type =>
    match Representation.ofMarker? word with
    | some representation =>
      ⟨some (Token.simpleName type), some type, some representation, more.head?.bind ancestor?⟩
    | none => .empty
  | none, _ => .empty

/-- The clause that a statement gives, with the arguments that are taken. -/
def Clause.ofCall : Keyword → List Expr → Option Clause
  | .select, args => some (.select ((args.head?.bind Expr.name?).bind Mode.ofName?)
      (args.tail.filterMap (Setting.of? [.limit, .offset])))
  | .cursor, args => some (.cursor (Draft.cursorMode args).1
      ((Draft.cursorMode args).2.2.filterMap (Setting.of? [.startCursor, .endCursor, .limit])))
  | .from, [] => none
  | .from, first :: more => some (.from (.of first more))
  | .where, args => some (.where (args.filterMap Filter.of?))
  | .orderBy, args => some (.orderBy (accepted (args.map SortKey.read)))
  | .fetchOptions, args =>
    some (.fetchOptions (args.filterMap (Setting.of? [.chunkSize, .prefetchSize])))

def Clause.of? (s : Stmt) : Option Clause :=
  s.keywordCall?.bind fun (word, args) => Clause.ofCall word args

/-- The clauses that are written in a block. -/
def clauses (b : Block) : List Clause := b.statements.filterMap Clause.of?

/-! ### Parts of clauses -/

namespace Clause

def settings : Clause → List Setting
  | select _ values | cursor _ values | fetchOptions values => values
  | _ => []

def filters : Clause → List Filter
  | «where» filters => filters
  | _ => []

def origin? : Clause → Option Origin
  | «from» origin => some origin
  | _ => none

/-- The type of `marker as Type`. -/
def typeName? (c : Clause) : Option String := c.origin?.bind Origin.typeName

/-- The values of settings and ancestors. -/
def stored (c : Clause) : List Expr :=
  c.settings.map Setting.value ++ (c.origin?.bind Origin.ancestor).toList

/-- All values. -/
def values (c : Clause) : List Expr := c.stored ++ c.filters.map Filter.value

/-- The fields that rows are chosen and ordered by. -/
def fields : Clause → List String
  | «where» filters => filters.map Filter.field
  | orderBy keys => keys.map SortKey.field
  | _ => []

end Clause

/-! ### Texts of values -/

def Setting.text (s : Setting) : QueryBlocks.Setting := ⟨s.param, s.value.text⟩

def Filter.text (f : Filter) : QueryBlocks.Filter := ⟨f.field, f.op, f.value.text⟩

def Origin.text (o : Origin) : QueryBlocks.Origin :=
  ⟨o.kind, o.typeName, o.representation, o.ancestor.map Expr.text⟩

def Clause.text : Clause → QueryBlocks.Clause
  | select mode settings => .select mode (settings.map Setting.text)
  | cursor mode settings => .cursor mode (settings.map Setting.text)
  | «from» origin => .from origin.text
  | «where» filters => .where (filters.map Filter.text)
  | orderBy keys => .orderBy keys
  | fetchOptions settings => .fetchOptions (settings.map Setting.text)

end Written

theorem accepted_map {α β : Type} (f : α → Except Diagnostic β) (args : List α) :
    accepted (args.map f) = args.filterMap fun arg => (f arg).toOption := by
  simp only [accepted, List.filterMap_map]
  congr
  funext arg
  simp only [Function.comp]
  cases f arg <;> rfl

theorem Setting.toOption_make (keyword : Keyword) (allowed : List FetchParam) (arg : Expr)
    (name : String) (value : Option Expr) :
    (Setting.make keyword allowed arg name value).toOption =
      ((FetchParam.ofName? name).filter allowed.contains).bind fun param =>
        value.map fun value => ⟨param, value.text⟩ := by
  unfold Setting.make
  cases (FetchParam.ofName? name).filter allowed.contains <;> cases value <;> rfl

theorem Setting.toOption_read (keyword : Keyword) (allowed : List FetchParam) (arg : Expr) :
    (Setting.read keyword allowed arg).toOption =
      (Written.Setting.of? allowed arg).map Written.Setting.text := by
  cases arg with
  | call p receiver name args =>
    rcases receiver with _ | receiver
    · rcases args with _ | ⟨value, _ | _⟩
      · simp [Setting.read, Written.Setting.of?, toOption_make]
      · simp only [Setting.read, Written.Setting.of?, toOption_make]
        cases (FetchParam.ofName? name).filter allowed.contains <;> rfl
      · simp [Setting.read, Written.Setting.of?, toOption_make]
    · rfl
  | binary p left op right =>
    cases left with
    | var q name =>
      by_cases hop : op = .assign
      · subst hop
        simp only [Setting.read, Written.Setting.of?, toOption_make, Expr.name?, if_true]
        cases (FetchParam.ofName? name).filter allowed.contains <;> rfl
      · simp [Setting.read, Written.Setting.of?, Expr.name?, hop, Except.toOption]
    | _ => rfl
  | _ => rfl

theorem Filter.toOption_read (arg : Expr) :
    (Filter.read arg).toOption.map (·.1) = (Written.Filter.of? arg).map Written.Filter.text := by
  cases arg with
  | binary p left op right =>
    cases left with
    | var q field =>
      simp only [Filter.read, Written.Filter.of?, Expr.name?]
      cases FilterOp.ofBinOp? op <;> rfl
    | _ => rfl
  | _ => rfl

/-- The text of an ancestor, if the argument names one. -/
def AncestorArg.text? : AncestorArg → Option String
  | value text => some text
  | _ => none

theorem AncestorArg.text?_read (arg : Expr) :
    (AncestorArg.read arg).text? = (Written.ancestor? arg).map Expr.text := by
  cases arg with
  | call p receiver name args =>
    rcases receiver with _ | receiver
    · rcases args with _ | ⟨value, _ | _⟩ <;>
        simp only [AncestorArg.read, Written.ancestor?] <;> split <;> rfl
    · rfl
  | binary p left op right =>
    cases left with
    | var q name =>
      cases op with
      | assign =>
        by_cases hname : isAncestorName name = true <;>
          simp [AncestorArg.read, Written.ancestor?, Expr.name?, hname, AncestorArg.text?]
      | _ => rfl
    | _ => cases op <;> rfl
  | _ => rfl

namespace Draft

variable {settings : Settings} {lookup : TypeLookup} {d : Draft}

theorem completeOrigin_kind (pos : Position) (first : Expr) (more : List Expr) {origin : Origin}
    {kind : String} (hkind : origin.kind = some kind) (hancestor : origin.ancestor = none) :
    (completeOrigin pos first more origin).1 = { origin with
      ancestor := (more.head?.bind Written.ancestor?).map Expr.text } := by
  obtain ⟨_, typeName, representation, _⟩ := origin
  subst hkind hancestor
  cases more with
  | nil => rfl
  | cons second others =>
    have hread := AncestorArg.text?_read second
    simp only [completeOrigin, List.head?_cons, Option.bind_some, ← hread]
    cases AncestorArg.read second <;> rfl

/-- What the arguments of `from` name is the written origin, with the text of its ancestor. -/
theorem origin_from (pos : Position) (first : Expr) (more : List Expr) :
    (completeOrigin pos first more (((Target.read first).1.map Target.origin).getD .empty)).1 =
      (Written.Origin.of first more).text := by
  have hread := AncestorArg.text?_read first
  cases hvalue : Written.ancestor? first with
  | some value =>
    rw [hvalue] at hread
    have hfirst : AncestorArg.read first = .value value.text := by
      cases h : AncestorArg.read first <;> rw [h] at hread <;> simp_all [AncestorArg.text?]
    simp only [Target.read, hfirst, Written.Origin.of, hvalue]
    cases more <;> rfl
  | none =>
    cases first with
    | var p name =>
      simp only [Target.read, AncestorArg.read, Written.Origin.of, hvalue]
      rw [Option.map_some, Option.getD_some, completeOrigin_kind pos _ more rfl rfl]
      rfl
    | cast p marker type =>
      cases marker with
      | var q word =>
        simp only [Target.read, AncestorArg.read, Written.Origin.of, hvalue, Expr.name?]
        cases Representation.ofMarker? word with
        | none => rfl
        | some representation =>
          rw [Option.map_some, Option.getD_some, completeOrigin_kind pos _ more rfl rfl]
          rfl
      | _ => rfl
    | call p receiver name args =>
      have hnone : (Target.read (.call p receiver name args)).1 = none := by
        cases h : AncestorArg.read (.call p receiver name args) <;> rw [h] at hread
        · rw [hvalue] at hread
          cases hread
        · simp [Target.read, h]
        · simp [Target.read, h]
      simp only [hnone, Written.Origin.of, hvalue]
      rfl
    | binary p left op right =>
      have hnone : (Target.read (.binary p left op right)).1 = none := by
        cases h : AncestorArg.read (.binary p left op right) <;> rw [h] at hread
        · rw [hvalue] at hread
          cases hread
        · simp [Target.read, h]
        · simp [Target.read, h]
      simp only [hnone, Written.Origin.of, hvalue]
      rfl
    | _ => rfl

/-- What is taken are the arguments that can be read, in their order. -/
theorem taken_takeAll {α : Type} {r : Restriction α} {first : Bool} {args : List Expr} :
    (d.takeAll settings r first args).2 =
      args.filterMap fun arg => (r.read arg).toOption.map (·.1) := by
  refine takeAll_run (R := fun args _ e => e.2 =
    args.filterMap fun arg => (r.read arg).toOption.map (·.1)) (fun _ => rfl)
    (fun hfirst hrest => ?_) (fun d first arg _ => ?_)
  · rw [← List.singleton_append, List.filterMap_append, ← hfirst, ← hrest]
  · rw [taken_take]
    cases hread : r.read arg <;> simp [hread, Except.toOption]

theorem taken_filters {args : List Expr} :
    (d.takeAll settings (.filtering settings) true args).2 =
      (args.filterMap Written.Filter.of?).map Written.Filter.text := by
  rw [taken_takeAll, List.map_filterMap]
  exact congrArg (List.filterMap · args) (funext Filter.toOption_read)

theorem taken_sorts {args : List Expr} :
    (d.takeAll settings (.sorting settings) true args).2 = accepted (args.map SortKey.read) := by
  rw [taken_takeAll, accepted_map]
  refine congrArg (List.filterMap · args) (funext fun arg => ?_)
  rw [Restriction.read_sorting]
  cases SortKey.read arg <;> rfl

theorem clauses_withFilter {q : Query} {f : Filter} : (q.withFilter f).clauses = q.clauses := by
  unfold Query.withFilter
  split <;> rfl

/-- The clause comes in only when all arguments have been taken. -/
theorem clauses_takeAll {α : Type} {r : Restriction α} {first : Bool} {args : List Expr}
    (hadd : ∀ q item, (r.add q item).clauses = q.clauses) :
    (d.takeAll settings r first args).1.query.clauses = d.query.clauses := by
  refine takeAll_keeps (·.query.clauses) fun d first arg _ => ?_
  simp only [query_take]
  split
  · rfl
  · exact hadd _ _

theorem takeSettings_snd {keyword : Keyword} {allowed : List FetchParam} {args : List Expr} :
    (d.takeSettings keyword allowed args).2 =
      (args.filterMap (Written.Setting.of? allowed)).map Written.Setting.text := by
  rw [takeSettings, accepted_map, List.map_filterMap]
  simp only [Setting.toOption_read]

theorem clauses_from (pos : Position) (first : Expr) (more : List Expr) :
    (d.from lookup pos (first :: more)).query.clauses =
      d.query.clauses ++ [.from (Written.Origin.of first more).text] := by
  rw [← origin_from pos first more, Draft.from]
  by_cases hmore : more.length > 1 <;> simp only [hmore, if_true, if_false] <;> rfl

/-- A keyword adds the clause that is written, with the texts of its values. -/
theorem clauses_keyword {pos : Position} {args : List Expr} {word : Keyword} :
    (d.keyword settings lookup pos args word).query.clauses =
      d.query.clauses ++ ((Written.Clause.ofCall word args).map Written.Clause.text).toList := by
  cases word with
  | select =>
    have hmode : (selectMode pos args).1 = (args.head?.bind Expr.name?).bind Mode.ofName? := by
      cases args with
      | nil => rfl
      | cons first more =>
        simp only [selectMode, List.head?_cons, Option.bind_some]
        cases first.name?.bind Mode.ofName? <;> rfl
    have hclause : (d.select pos args).query.clauses = d.query.clauses ++
        [.select (selectMode pos args).1
          ((d.reportAll (selectMode pos args).2).takeSettings .select [.limit, .offset]
            args.tail).2] := rfl
    rw [keyword, hclause, takeSettings_snd, hmode]
    rfl
  | cursor =>
    have hclause : (d.cursor args).query.clauses = d.query.clauses ++
        [.cursor (cursorMode args).1 ((d.reportAll (cursorMode args).2.1).takeSettings .cursor
          [.startCursor, .endCursor, .limit] (cursorMode args).2.2).2] := rfl
    rw [keyword, hclause, takeSettings_snd]
    rfl
  | «from» =>
    cases args with
    | nil => exact (List.append_nil _).symm
    | cons first more => exact clauses_from pos first more
  | «where» =>
    have hclause : (d.where settings args).query.clauses =
        (d.takeAll settings (.filtering settings) true args).1.query.clauses ++
          [.where (d.takeAll settings (.filtering settings) true args).2] := rfl
    rw [keyword, hclause, clauses_takeAll fun _ _ => clauses_withFilter, taken_filters]
    rfl
  | orderBy =>
    have hclause : (d.orderBy settings args).query.clauses =
        (d.takeAll settings (.sorting settings) true args).1.query.clauses ++
          [.orderBy (d.takeAll settings (.sorting settings) true args).2] := rfl
    rw [keyword, hclause, clauses_takeAll fun _ _ => rfl, taken_sorts]
    rfl
  | fetchOptions =>
    have hclause : (d.fetchOptions args).query.clauses = d.query.clauses ++
        [.fetchOptions (d.takeSettings .fetchOptions [.chunkSize, .prefetchSize] args).2] := rfl
    rw [keyword, hclause, takeSettings_snd]
    rfl

theorem clauses_statement {s : Stmt} : (d.statement settings lookup s).query.clauses =
    d.query.clauses ++ ((Written.Clause.of? s).map Written.Clause.text).toList := by
  rcases statement_cases settings lookup d s with
    ⟨hcall, causes, pos, hs, -⟩ | ⟨word, args, pos, hcall, hs⟩
  · rw [hs, Written.Clause.of?, hcall]
    exact (List.append_nil _).symm
  · rw [hs, clauses_keyword, Written.Clause.of?, hcall, Option.bind_some]

end Draft

/-- The clauses of a compiled block are those that are written in it, with the texts of their
values. -/
theorem compile_clauses (settings : Settings) (lookup : TypeLookup) (statements : List Stmt) :
    (compile settings lookup statements).1.clauses =
      (statements.filterMap Written.Clause.of?).map Written.Clause.text := by
  have hfold (d : Draft) :
      (statements.foldl (Draft.statement settings lookup) d).query.clauses =
        d.query.clauses ++ (statements.filterMap Written.Clause.of?).map Written.Clause.text := by
    induction statements generalizing d with
    | nil => exact (List.append_nil _).symm
    | cons s more ih =>
      rw [List.foldl_cons, ih, Draft.clauses_statement, List.filterMap_cons]
      cases Written.Clause.of? s <;> simp
  exact hfold .empty

end QueryBlocks
