import QueryBlocks.Program.Instruction
import QueryBlocks.Settings
import QueryBlocks.Text.Quoted

/-! The text of generated programs. -/
namespace QueryBlocks

namespace Code

/-- Lines one level deeper. -/
def within (lines : List String) : List String := lines.map ("  " ++ ·)

/-- `if (cond) { body }`, and further arms after it. -/
def arms (cond : String) (body : List String) (others : List (String × List String)) :
    List String :=
  ("if (" ++ cond ++ ") \x7b") :: (within body ++
    (others.flatMap fun (head, body) => ("\x7d " ++ head ++ " \x7b") :: within body) ++ ["\x7d"])

def when (cond : String) (body : List String) : List String := arms cond body []

def elseIf (cond : String) (body : List String) : String × List String :=
  ("else if (" ++ cond ++ ")", body)

def orElse (body : List String) : String × List String := ("else", body)

end Code

namespace SlotValue

def written : SlotValue → String
  | null => "null"
  | text s => Text.quote s
  | code s => s

end SlotValue

namespace Program

/-- The class of the queries that are constructed. -/
def queryClass : String := "com.google.appengine.api.datastore.Query"

variable (settings : Settings)

def slot (s : Slot) : String := settings.slot s.name

/-- The value that a slot is declared with. -/
def initial : Slot → String
  | .whereFields | .orderByFields => Text.quote ""
  | .fetchOptions => "FetchOptions.Builder.withDefaults()"
  | _ => "null"

/-- How a field is named to the store. -/
def property (field : String) : String :=
  if field = settings.keyProperty then "Entity." ++ settings.keyProperty else Text.quote field

/-- Hand over a parameter of the fetch options. -/
def tuning (param : FetchParam) (value : String) : String :=
  slot settings .fetchOptions ++ "." ++ param.text ++ "(" ++ value ++ ")"

/-- Hand over a cursor: text is turned into a cursor first, anything else must be one. -/
def convertCursor (param : FetchParam) : List String :=
  let value := slot settings (.ofParam param)
  Code.when value (Code.arms
    (value ++ " instanceof String && " ++ value ++ ".trim() != \"null\" && !" ++ value ++
      ".trim().isEmpty()")
    [tuning settings param ("Cursor.fromWebSafeString(" ++ value ++ ")")]
    [Code.elseIf (value ++ " instanceof Cursor") [tuning settings param value]])

/-- Call a method of the prepared query. -/
def fetching (method : String) : String :=
  slot settings .preparedQuery ++ "." ++ method ++ "(" ++ slot settings .fetchOptions ++ ")"

def lines : Instruction → List String
  | .declare s => ["def " ++ slot settings s ++ " = " ++ initial s]
  | .store s value => [slot settings s ++ " = " ++ value.written]
  | .tune param => [tuning settings param (slot settings (.ofParam param))]
  | .tuneIfSet param =>
    let value := slot settings (.ofParam param)
    Code.when value [tuning settings param value]
  | .construct =>
    let new := slot settings .query ++ " = new " ++ queryClass
    Code.arms (slot settings .kind) [new ++ "(" ++ slot settings .kind ++ ")"]
      [Code.orElse [new ++ "()"]]
  | .attachAncestor =>
    let ancestor := slot settings .childOf
    let set := slot settings .query ++ ".setAncestor("
    Code.when ancestor (Code.arms (ancestor ++ " instanceof Key") [set ++ ancestor ++ ")"]
      [Code.orElse [set ++ ancestor ++ ".key)"]])
  | .restrictToKeys => Code.when (slot settings .keys) [slot settings .query ++ ".setKeysOnly()"]
  | .note s field => [slot settings s ++ " += \"," ++ field ++ "\""]
  | .addFilter f =>
    [slot settings .query ++ ".addFilter(" ++ property settings f.field ++
      ", Query.FilterOperator." ++ f.op.token ++ ", " ++ f.value ++ ")"]
  | .addSort key =>
    [slot settings .query ++ ".addSort(" ++ property settings key.field ++
      ", Query.SortDirection." ++ key.direction.token ++ ")"]
  | .prepare => [slot settings .preparedQuery ++ " = it.prepare(" ++ slot settings .query ++ ")"]
  | .fetch =>
    Code.arms (slot settings .cursor)
      (convertCursor settings .startCursor ++ convertCursor settings .endCursor ++
        [fetching settings "asQueryResultList"])
      [Code.elseIf (slot settings .all) [fetching settings "asList"],
        Code.elseIf (slot settings .count) [fetching settings "countEntities"],
        Code.elseIf (slot settings .single) [slot settings .preparedQuery ++ ".asSingleEntity()"],
        Code.orElse [fetching settings "asList"]]

/-- The text of the program for a query with these clauses. -/
def code (clauses : List Clause) : String :=
  String.join (((Instruction.ofClauses clauses).flatMap (lines settings)).map (· ++ "\n"))

end Program

end QueryBlocks
