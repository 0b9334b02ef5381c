import QueryBlocks.Query.Clause

/-!
The program that builds and runs a query. It is a list of instructions over fixed variables, its
slots; each instruction is written as one statement of a script.
-/
namespace QueryBlocks

/-- The variables of a generated program, in the order of their declarations. -/
inductive Slot where
  | markerProperty | whereFields | orderByFields | pojo | pojoClass | entity | fetchOptions
  | select | cursor | kind | all | keys | single | count | ancestorKey
  | limit | offset | chunkSize | prefetchSize | deadLine | startCursor | endCursor
  | childOf | query | preparedQuery
deriving DecidableEq, Repr

namespace Slot

def everyOne : List Slot :=
  [markerProperty, whereFields, orderByFields, pojo, pojoClass, entity, fetchOptions,
    select, cursor, kind, all, keys, single, count, ancestorKey,
    limit, offset, chunkSize, prefetchSize, deadLine, startCursor, endCursor,
    childOf, query, preparedQuery]

def name : Slot → String
  | markerProperty => "markerProperty"
  | whereFields => "whereFields"
  | orderByFields => "orderByFields"
  | pojo => "pojo"
  | pojoClass => "pojoClass"
  | entity => "entity"
  | fetchOptions => "fetchOptions"
  | select => "select"
  | cursor => "cursor"
  | kind => "kind"
  | all => "all"
  | keys => "keys"
  | single => "single"
  | count => "count"
  | ancestorKey => "ancestorKey"
  | limit => "limit"
  | offset => "offset"
  | chunkSize => "chunkSize"
  | prefetchSize => "prefetchSize"
  | deadLine => "deadLine"
  | startCursor => "startCursor"
  | endCursor => "endCursor"
  | childOf => "childOf"
  | query => "query"
  | preparedQuery => "preparedQuery"

def ofParam : FetchParam → Slot
  | .limit => limit
  | .offset => offset
  | .chunkSize => chunkSize
  | .prefetchSize => prefetchSize
  | .startCursor => startCursor
  | .endCursor => endCursor

/-- The slot that is set exactly when its mode is selected. -/
def ofMode? : Mode → Option Slot
  | .all => some all
  | .keys => some keys
  | .single => some single
  | .count => some count
  | .none => none

end Slot

/-- What is stored in a slot. -/
inductive SlotValue where
  | null
  | text (s : String)
  /-- An expression of the script. -/
  | code (s : String)
deriving DecidableEq, Repr

inductive Instruction where
  | declare (slot : Slot)
  | store (slot : Slot) (value : SlotValue)
  /-- Hand a parameter to the fetch options. -/
  | tune (param : FetchParam)
  /-- Hand a parameter to the fetch options if it is set. -/
  | tuneIfSet (param : FetchParam)
  /-- Put a new query, of the kind if there is one, into the query slot. -/
  | construct
  /-- Restrict the query to the ancestor if there is one. -/
  | attachAncestor
  /-- Restrict the query to keys if they are selected. -/
  | restrictToKeys
  /-- Add a field to a list of fields. -/
  | note (slot : Slot) (field : String)
  | addFilter (filter : Filter)
  | addSort (key : SortKey)
  | prepare
  /-- Fetch by cursor, or as the mode says. -/
  | fetch
deriving DecidableEq, Repr

namespace Instruction

/-- Set the slot of a mode and clear those of the others. -/
def selectMode (mode : Mode) : List Instruction :=
  Mode.choices.filterMap fun choice =>
    (Slot.ofMode? choice).map fun slot =>
      store slot (if choice = mode then .text choice.text else .null)

/-- Limit and offset go to the fetch options at once. -/
def applySetting (s : Setting) : List Instruction :=
  store (.ofParam s.param) (.code s.value) ::
    if s.param = .limit ∨ s.param = .offset then [tune s.param] else []

def applyOrigin (o : Origin) : List Instruction :=
  store .kind (match o.kind with
    | some kind => .text kind
    | none => .null) ::
  ((o.typeName.map fun type => store .pojoClass (.code type)).toList ++
    (o.representation.map fun r => store .pojo (.text r.text)).toList ++
    [store .childOf (match o.ancestor with
      | some ancestor => .code ancestor
      | none => .null),
      construct, attachAncestor, restrictToKeys])

/-- The instructions of one clause. -/
def ofClause : Clause → List Instruction
  | .select mode settings =>
    [store .select (.text "select"), store .cursor .null] ++
      (mode.map selectMode).getD [] ++ settings.flatMap applySetting
  | .cursor mode settings =>
    [store .cursor (.text "cursor"), store .select .null] ++
      selectMode mode ++ settings.flatMap applySetting
  | .from origin => applyOrigin origin
  | .where filters => filters.flatMap fun f => [note .whereFields f.field, addFilter f]
  | .orderBy keys => keys.flatMap fun key => [note .orderByFields key.field, addSort key]
  | .fetchOptions settings =>
    settings.flatMap applySetting ++ [tuneIfSet .chunkSize, tuneIfSet .prefetchSize]

/-- The whole program of a query: declarations, the clauses in order, and the fetch. -/
def ofClauses (clauses : List Clause) : List Instruction :=
  Slot.everyOne.map declare ++ clauses.flatMap ofClause ++ [prepare, fetch]

end Instruction

end QueryBlocks
