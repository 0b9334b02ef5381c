import QueryBlocks.Query.Vocabulary

/-! The clauses of a query. Values are kept as the text they are written with. -/
namespace QueryBlocks

/-- `limit = 10` or `limit(10)` -/
structure Setting where
  param : FetchParam
  value : String
deriving DecidableEq, Repr

structure Filter where
  field : String
  op : FilterOp
  value : String
deriving DecidableEq, Repr

structure SortKey where
  field : String
  direction : Direction
deriving DecidableEq, Repr

/-- Where the rows of a query come from. -/
structure Origin where
  kind : Option String
  /-- The type of `marker as Type`, as written. -/
  typeName : Option String
  representation : Option Representation
  ancestor : Option String
deriving DecidableEq, Repr, Inhabited

namespace Origin

def empty : Origin := ⟨none, none, none, none⟩

/-- A query of everything below an ancestor, of any kind. -/
def isKindless (o : Origin) : Bool := o.kind.isNone && o.ancestor.isSome

end Origin

inductive Clause where
  | select (mode : Option Mode) (settings : List Setting)
  | cursor (mode : Mode) (settings : List Setting)
  | from (origin : Origin)
  | where (filters : List Filter)
  | orderBy (keys : List SortKey)
  | fetchOptions (settings : List Setting)
deriving DecidableEq, Repr

/-- The values given for fetching, each the last one set. -/
structure FetchOptions where
  limit : Option String
  offset : Option String
  chunkSize : Option String
  prefetchSize : Option String
  startCursor : Option String
  endCursor : Option String
deriving DecidableEq, Repr

namespace FetchOptions

def empty : FetchOptions := ⟨none, none, none, none, none, none⟩

def set (o : FetchOptions) (value : String) : FetchParam → FetchOptions
  | .limit => { o with limit := some value }
  | .offset => { o with offset := some value }
  | .chunkSize => { o with chunkSize := some value }
  | .prefetchSize => { o with prefetchSize := some value }
  | .startCursor => { o with startCursor := some value }
  | .endCursor => { o with endCursor := some value }

def get (o : FetchOptions) : FetchParam → Option String
  | .limit => o.limit
  | .offset => o.offset
  | .chunkSize => o.chunkSize
  | .prefetchSize => o.prefetchSize
  | .startCursor => o.startCursor
  | .endCursor => o.endCursor

end FetchOptions

/-- A query as far as it has been read: its clauses in order, and a summary of them that the
rules for further clauses look at. -/
structure Query where
  selection : Mode
  cursor : Bool
  origin : Origin
  /-- Set with the origin, for the rules that queries of no kind have. -/
  kindlessAncestor : Bool
  fetch : FetchOptions
  filters : List Filter
  sorts : List SortKey
  /-- The field of the first inequality filter. -/
  inequalityField : Option String
  inequalityCount : Nat
  hasNotEqual : Bool
  clauses : List Clause
deriving DecidableEq, Repr

namespace Query

def empty : Query where
  selection := .none
  cursor := false
  origin := .empty
  kindlessAncestor := false
  fetch := .empty
  filters := []
  sorts := []
  inequalityField := none
  inequalityCount := 0
  hasNotEqual := false
  clauses := []

/-- Inequality filters that one query may have. -/
def maxInequalities : Nat := 2

end Query

end QueryBlocks
