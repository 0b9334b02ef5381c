import QueryBlocks.Query.Argument
import QueryBlocks.Schema.Catalogue

/-!
Compiling a query block, statement by statement. A broken rule is reported at its place and the
next statement is read all the same, so one pass reports every problem of a block.
-/
namespace QueryBlocks

namespace Query

variable (q : Query)

def withClause (clause : Clause) : Query := { q with clauses := q.clauses ++ [clause] }

def withSettings (settings : List Setting) : Query :=
  { q with fetch := settings.foldl (fun fetch s => fetch.set s.value s.param) q.fetch }

/-- A not-equal filter excludes every other inequality filter, before it and behind it. -/
def excludes (f : Filter) : Bool :=
  q.hasNotEqual || (f.op == .notEqual && 0 < q.inequalityCount)

/-- The field that an inequality filter claims for all others if it is the first. -/
def claim (f : Filter) : Option String := if q.excludes f then none else some f.field

def withFilter (f : Filter) : Query :=
  let filters := q.filters ++ [f]
  if f.op.isInequality then
    { q with
      filters
      inequalityField := q.inequalityField.or (q.claim f)
      inequalityCount := q.inequalityCount + 1
      hasNotEqual := q.hasNotEqual || f.op == .notEqual }
  else { q with filters }

def withSort (key : SortKey) : Query := { q with sorts := q.sorts ++ [key] }

/-- All inequality filters are on one field, a not-equal filter stands alone among them, and a sort
that is already there begins with their field. -/
def inequalityCauses (f : Filter) : List Cause :=
  match q.inequalityField with
  | some claimed =>
    if claimed ≠ f.field then [.inequalityConflict claimed f.field]
    else if q.excludes f then [.notEqualConflict]
    else []
  | none =>
    if q.excludes f then [.notEqualConflict]
    else
      match q.sorts with
      | first :: _ =>
        if first.field ≠ f.field then [.sortBeforeInequality first.field f.field] else []
      | [] => []

def countCauses (f : Filter) : List Cause :=
  if q.inequalityCount + 1 > maxInequalities then [.tooManyInequalities f.field] else []

/-- What a filter breaks in view of the query so far. -/
def filterCauses (settings : Settings) (f : Filter) : List Cause :=
  (if f.op.isInequality then q.inequalityCauses f ++ q.countCauses f else []) ++
    (if q.kindlessAncestor && f.field != settings.keyProperty then [.kindlessFilter f.field]
      else []) ++
    (if q.cursor && (f.op == .isIn || f.op == .notEqual) then [.cursorFilter f.field] else [])

/-- What a sort key breaks in view of the query so far. Only the first key of a statement has to
be the field of the inequality filters. -/
def sortCauses (settings : Settings) (first : Bool) (key : SortKey) : List Cause :=
  (if q.kindlessAncestor then
    if key.field ≠ settings.keyProperty then [.kindlessSort settings.keyProperty key.field]
    else if key.direction = .descending then [.kindlessDescending settings.keyProperty]
    else []
  else []) ++
    match q.inequalityField with
    | some required =>
      if first && required != key.field then [.sortBeforeInequality key.field required] else []
    | none => []

end Query

/-- A field that the type of the query does not have. The key stands for no field. -/
def fieldCauses (settings : Settings) (fields : Option FieldSet) (field : String) : List Cause :=
  match fields with
  | some fields =>
    if field == settings.keyProperty || fields.contains field then []
    else [.unknownField fields.typeName field (fields.suggest field)]
  | none => []

/-- How a statement takes its arguments into a query, one after the other. -/
structure Restriction (α : Type) where
  /-- What an argument says, and where its field is written. -/
  read : Expr → Except Diagnostic (α × Position)
  field : α → String
  /-- What it breaks in view of the query so far. The first argument is told from the others. -/
  causes : Query → Bool → α → List Cause
  add : Query → α → Query

namespace Restriction

def filtering (settings : Settings) : Restriction Filter where
  read := Filter.read
  field := Filter.field
  causes q _ f := q.filterCauses settings f
  add := Query.withFilter

def sorting (settings : Settings) : Restriction SortKey where
  read arg := (SortKey.read arg).map (·, arg.pos)
  field := SortKey.field
  causes q first key := q.sortCauses settings first key
  add := Query.withSort

end Restriction

/-- A query block as far as it has been compiled. -/
structure Draft where
  query : Query
  /-- The fields of the query's type, if they are known. -/
  fields : Option FieldSet
  diagnostics : List Diagnostic

namespace Draft

def empty : Draft := ⟨.empty, none, []⟩

variable (settings : Settings) (lookup : TypeLookup)

def report (d : Draft) (causes : List Cause) (pos : Position) : Draft :=
  { d with diagnostics := d.diagnostics ++ causes.map (⟨·, pos⟩) }

def reportAll (d : Draft) (problems : List Diagnostic) : Draft :=
  { d with diagnostics := d.diagnostics ++ problems }

def withClause (d : Draft) (clause : Clause) : Draft :=
  { d with query := d.query.withClause clause }

/-- Take the settings among `args` and report the others. -/
def takeSettings (d : Draft) (keyword : Keyword) (allowed : List FetchParam) (args : List Expr) :
    Draft × List Setting :=
  let results := args.map (Setting.read keyword allowed)
  let taken := accepted results
  ({ d.reportAll (refused results) with query := d.query.withSettings taken }, taken)

/-- The mode that `select` asks for. -/
def selectMode (pos : Position) : List Expr → Option Mode × List Diagnostic
  | [] => (none, [⟨.modeMissing, pos⟩])
  | first :: _ =>
    match first.name?.bind Mode.ofName? with
    | some mode => (some mode, [])
    | none => (none, [⟨.modeUnknown, first.pos⟩])

def select (d : Draft) (pos : Position) (args : List Expr) : Draft :=
  let (mode, problems) := selectMode pos args
  let (d, taken) := (d.reportAll problems).takeSettings .select [.limit, .offset] args.tail
  let query := { d.query with selection := mode.getD d.query.selection, cursor := false }
  { d with query }.withClause (.select mode taken)

/-- The mode of a cursor, if a name stands first, and the other arguments. -/
def cursorMode : List Expr → Mode × List Diagnostic × List Expr
  | .var pos name :: more =>
    if matchesWord name "keys" then (.keys, [], more)
    else if matchesWord name "all" then (.all, [], more)
    else (.all, [⟨.cursorModeUnknown, pos⟩], more)
  | args => (.all, [], args)

def cursor (d : Draft) (args : List Expr) : Draft :=
  let (mode, problems, others) := cursorMode args
  let (d, taken) :=
    (d.reportAll problems).takeSettings .cursor [.startCursor, .endCursor, .limit] others
  { d with query := { d.query with selection := mode, cursor := true } }.withClause
    (.cursor mode taken)

def fetchOptions (d : Draft) (args : List Expr) : Draft :=
  let (d, taken) := d.takeSettings .fetchOptions [.chunkSize, .prefetchSize] args
  d.withClause (.fetchOptions taken)

/-- What the arguments after the first add to an origin. A kind may have an ancestor, and an
ancestor alone may have nothing. -/
def completeOrigin (pos : Position) (first : Expr) (more : List Expr) (origin : Origin) :
    Origin × List Diagnostic :=
  match origin.kind, origin.ancestor, more with
  | some _, _, second :: _ =>
    match AncestorArg.read second with
    | .value text => ({ origin with ancestor := some text }, [])
    | .malformed => (origin, [⟨.invalidValue second.text, second.pos⟩])
    | .other => (origin, [⟨.fromSecond, second.pos⟩])
  | none, some _, _ :: _ => (origin, [⟨.fromTooMany, first.pos⟩])
  | none, none, _ => (origin, [⟨.fromUnsupported, pos⟩])
  | _, _, _ => (origin, [])

/-- The fields of a target's type, and a problem if there is no such type. -/
def resolve (first : Expr) : Option Target → Option FieldSet × List Diagnostic
  | some (.typed type _) =>
    (lookup.fields type,
      if lookup.knows type then [] else [⟨.unknownType (Token.simpleName type), first.pos⟩])
  | _ => (none, [])

def «from» (d : Draft) (pos : Position) : List Expr → Draft
  | [] => d.report [.fromArity] pos
  | first :: more =>
    let d := if more.length > 1 then d.report [.fromArity] pos else d
    let (target, problems) := Target.read first
    let (fields, unresolved) := resolve lookup first target
    let (origin, further) :=
      completeOrigin pos first more ((target.map Target.origin).getD .empty)
    let d := d.reportAll (problems ++ unresolved ++ further)
    let query := { d.query with origin, kindlessAncestor := origin.isKindless }
    { d with fields, query }.withClause (.from origin)

/-- Take one argument, with the problems of its field and of the rules, or report that it cannot be
read. -/
def take {α : Type} (r : Restriction α) (d : Draft) (first : Bool) (arg : Expr) :
    Draft × List α :=
  match r.read arg with
  | .error problem => (d.reportAll [problem], [])
  | .ok (item, fieldPos) =>
    let d := d.report (fieldCauses settings d.fields (r.field item)) fieldPos
    let d := d.report (r.causes d.query first item) arg.pos
    ({ d with query := r.add d.query item }, [item])

def takeAll {α : Type} (r : Restriction α) (d : Draft) (first : Bool) :
    List Expr → Draft × List α
  | [] => (d, [])
  | arg :: more =>
    let (d, taken) := d.take settings r first arg
    let (d, others) := takeAll r d false more
    (d, taken ++ others)

def «where» (d : Draft) (args : List Expr) : Draft :=
  let (d, taken) := d.takeAll settings (.filtering settings) true args
  d.withClause (.where taken)

def orderBy (d : Draft) (args : List Expr) : Draft :=
  let (d, taken) := d.takeAll settings (.sorting settings) true args
  d.withClause (.orderBy taken)

def keyword (d : Draft) (pos : Position) (args : List Expr) : Keyword → Draft
  | .select => d.select pos args
  | .cursor => d.cursor args
  | .from => d.from lookup pos args
  | .where => d.where settings args
  | .orderBy => d.orderBy settings args
  | .fetchOptions => d.fetchOptions args

/-- Compile one statement. A keyword that stands alone does nothing. -/
def statement (d : Draft) : Stmt → Draft
  | .eval _ e =>
    match e with
    | .var pos name => if isKeyword name then d else d.report [.unsupportedName name] pos
    | .call pos none name args =>
      match Keyword.ofName? name with
      | some word => d.keyword settings lookup pos args word
      | none => d.report [.unsupportedName name] pos
    | e => d.report [.unsupportedExpression e.text] e.pos
  | s => d.report [.unsupportedStatement] s.pos

end Draft

/-- Compile the statements of a query block. -/
def compile (settings : Settings) (lookup : TypeLookup) (statements : List Stmt) :
    Query × List Diagnostic :=
  let d := statements.foldl (Draft.statement settings lookup) .empty
  (d.query, d.diagnostics)

end QueryBlocks
