import QueryBlocks.Program.Code
import QueryBlocks.Proofs.Query.Written

/-!
Generated programs as trees. A program declares its slots, goes through the clauses of the query in
order, and fetches. The values that are written in the query stand in it as they are.
-/
namespace QueryBlocks.Program.Tree

/-- The place of all that no one has written. -/
def nowhere : Position := ⟨0, 0⟩

def null : Expr := .lit nowhere .null

def text (s : String) : Expr := .lit nowhere (.string s)

/-- Names with dots between them. -/
def dotted (first : String) (more : List String) : Expr :=
  more.foldl (.member nowhere) (.var nowhere first)

/-- The expression that a qualified name is. -/
def ofType (type : String) : Expr :=
  match type.toList.splitOn '.' with
  | [] => null
  | first :: more => dotted (String.ofList first) (more.map String.ofList)

def ask (object : Expr) (method : String) (args : List Expr) : Expr :=
  .call nowhere (some object) method args

def isA (e : Expr) (type : String) : Expr := .binary nowhere e .instanceOf (.var nowhere type)

def both (left right : Expr) : Expr := .binary nowhere left .and right

def run (e : Expr) : Stmt := .eval nowhere e

def branch (cond : Expr) (body : List Stmt) (other : Option (List Stmt)) : Stmt :=
  .branch nowhere cond ⟨nowhere, body⟩ (other.map (⟨nowhere, ·⟩))

def when (cond : Expr) (body : List Stmt) : Stmt := branch cond body none

def choose (cond : Expr) (body other : List Stmt) : Stmt := branch cond body (some other)

variable (settings : Settings)

def ref (s : Slot) : Expr := .var nowhere (slot settings s)

def assign (s : Slot) (value : Expr) : Stmt :=
  run (.binary nowhere (ref settings s) .assign value)

/-! ### Declarations -/

def initial : Slot → Expr
  | .whereFields | .orderByFields => text ""
  | .fetchOptions => ask (dotted "FetchOptions" ["Builder"]) "withDefaults" []
  | _ => null

def declaration (s : Slot) : Stmt := .declare nowhere none (slot settings s) (some (initial s))

/-! ### Clauses -/

/-- Each mode has a slot; the one of the mode is set and the others are cleared. -/
def mode (m : Mode) : List Stmt :=
  [(Slot.all, Mode.all), (.keys, .keys), (.single, .single), (.count, .count)].map
    fun (s, choice) => assign settings s (if choice = m then text choice.text else null)

/-- Hand a value to the fetch options. -/
def tune (param : FetchParam) (value : Expr) : Stmt :=
  run (ask (ref settings .fetchOptions) param.text [value])

def setting (s : Written.Setting) : List Stmt :=
  assign settings (.ofParam s.param) s.value ::
    if s.param = .limit ∨ s.param = .offset then
      [tune settings s.param (ref settings (.ofParam s.param))]
    else []

def tuneIfSet (param : FetchParam) : Stmt :=
  when (ref settings (.ofParam param)) [tune settings param (ref settings (.ofParam param))]

/-- A query of the kind, if there is one. -/
def construct : Stmt :=
  choose (ref settings .kind)
    [assign settings .query (.construct nowhere queryClass [ref settings .kind])]
    [assign settings .query (.construct nowhere queryClass [])]

/-- An ancestor is a key or has one. -/
def attachAncestor : Stmt :=
  when (ref settings .childOf)
    [choose (isA (ref settings .childOf) "Key")
      [run (ask (ref settings .query) "setAncestor" [ref settings .childOf])]
      [run (ask (ref settings .query) "setAncestor"
        [.member nowhere (ref settings .childOf) "key"])]]

def restrictToKeys : Stmt :=
  when (ref settings .keys) [run (ask (ref settings .query) "setKeysOnly" [])]

def origin (o : Written.Origin) : List Stmt :=
  assign settings .kind ((o.kind.map text).getD null) ::
    ((o.typeName.map fun type => assign settings .pojoClass (ofType type)).toList ++
      (o.representation.map fun r => assign settings .pojo (text r.text)).toList ++
      [assign settings .childOf (o.ancestor.getD null), construct settings,
        attachAncestor settings, restrictToKeys settings])

/-- How a field is named to the store. -/
def property (field : String) : Expr :=
  if field = settings.keyProperty then dotted "Entity" [field] else text field

/-- Add a field to a list of fields. -/
def note (s : Slot) (field : String) : Stmt :=
  run (.binary nowhere (ref settings s) .addAssign (text ("," ++ field)))

def addFilter (f : Written.Filter) : Stmt :=
  run (ask (ref settings .query) "addFilter"
    [property settings f.field, dotted "Query" ["FilterOperator", f.op.token], f.value])

def addSort (key : SortKey) : Stmt :=
  run (ask (ref settings .query) "addSort"
    [property settings key.field, dotted "Query" ["SortDirection", key.direction.token]])

def clause : Written.Clause → List Stmt
  | .select m values =>
    [assign settings .select (text "select"), assign settings .cursor null] ++
      (m.map (mode settings)).getD [] ++ values.flatMap (setting settings)
  | .cursor m values =>
    [assign settings .cursor (text "cursor"), assign settings .select null] ++
      mode settings m ++ values.flatMap (setting settings)
  | .from o => origin settings o
  | .where filters =>
    filters.flatMap fun f => [note settings .whereFields f.field, addFilter settings f]
  | .orderBy keys =>
    keys.flatMap fun key => [note settings .orderByFields key.field, addSort settings key]
  | .fetchOptions values =>
    values.flatMap (setting settings) ++
      [tuneIfSet settings .chunkSize, tuneIfSet settings .prefetchSize]

/-! ### The fetch -/

def prepare : Stmt :=
  assign settings .preparedQuery (ask (.var nowhere "it") "prepare" [ref settings .query])

/-- Whether a value is a text that says something. -/
def isTold (value : Expr) : Expr :=
  let trimmed := ask value "trim" []
  both (both (isA value "String") (.binary nowhere trimmed .ne (text "null")))
    (.not nowhere (ask trimmed "isEmpty" []))

/-- Hand a cursor over; a text is made one first. -/
def convertCursor (param : FetchParam) : Stmt :=
  let value := ref settings (.ofParam param)
  when value
    [choose (isTold value)
      [tune settings param (ask (.var nowhere "Cursor") "fromWebSafeString" [value])]
      [when (isA value "Cursor") [tune settings param value]]]

def fetching (method : String) (args : List Expr) : Stmt :=
  run (ask (ref settings .preparedQuery) method args)

/-- Fetch by cursor, or as the mode says. -/
def fetch : Stmt :=
  let options := [ref settings .fetchOptions]
  choose (ref settings .cursor)
    [convertCursor settings .startCursor, convertCursor settings .endCursor,
      fetching settings "asQueryResultList" options]
    [choose (ref settings .all) [fetching settings "asList" options]
      [choose (ref settings .count) [fetching settings "countEntities" options]
        [choose (ref settings .single) [fetching settings "asSingleEntity" []]
          [fetching settings "asList" options]]]]

end Tree

/-- The statements of the program for a query with these clauses. -/
def tree (settings : Settings) (clauses : List Written.Clause) : List Stmt :=
  Slot.everyOne.map (Tree.declaration settings) ++ clauses.flatMap (Tree.clause settings) ++
    [Tree.prepare settings, Tree.fetch settings]

end QueryBlocks.Program
