import QueryBlocks.Text.Upper
import QueryBlocks.Script.Tree

/-!
The words of a query block. Every word is taken as it is spelled here and with its first letter
in upper case.
-/
namespace QueryBlocks

/-- Whether `name` is `word`, or `word` with its first letter in upper case. -/
def matchesWord (name word : String) : Bool :=
  name == word ||
    match name.toList, word.toList with
    | x :: name, y :: word => x == y.toUpper && name == word
    | _, _ => false

/-- The statements of a query block. -/
inductive Keyword where
  | select | cursor | from | where | orderBy | fetchOptions
deriving DecidableEq, Repr

namespace Keyword

def text : Keyword → String
  | select => "select"
  | cursor => "cursor"
  | «from» => "from"
  | «where» => "where"
  | orderBy => "orderBy"
  | fetchOptions => "fetchOptions"

/-- The words with the keyword each stands for; `options` is short for `fetchOptions`. -/
def words : List (String × Keyword) :=
  [("select", select), ("cursor", cursor), ("from", .from), ("where", .where),
    ("orderBy", orderBy), ("options", fetchOptions), ("fetchOptions", fetchOptions)]

def ofName? (name : String) : Option Keyword :=
  (words.find? fun (word, _) => matchesWord name word).map (·.2)

end Keyword

def isKeyword (name : String) : Bool := (Keyword.ofName? name).isSome

/-- Names that introduce the ancestor of a query: `childOf = key`, `parent(key)`. -/
def ancestorNames : List String :=
  ["childOf", "ChildOf", "asChildOf", "asChildsOf", "parent", "ancestor", "childsOf", "ChildsOf"]

def isAncestorName (name : String) : Bool := ancestorNames.contains name

/-- What tunes the fetching of results. -/
inductive FetchParam where
  | limit | offset | chunkSize | prefetchSize | startCursor | endCursor
deriving DecidableEq, Repr

namespace FetchParam

def all : List FetchParam := [limit, offset, chunkSize, prefetchSize, startCursor, endCursor]

def text : FetchParam → String
  | limit => "limit"
  | offset => "offset"
  | chunkSize => "chunkSize"
  | prefetchSize => "prefetchSize"
  | startCursor => "startCursor"
  | endCursor => "endCursor"

def ofName? (name : String) : Option FetchParam := all.find? fun p => matchesWord name p.text

end FetchParam

/-- What a query returns. -/
inductive Mode where
  | all | keys | single | count
  /-- Nothing has been selected. -/
  | none
deriving DecidableEq, Repr

namespace Mode

/-- The modes a query can ask for. -/
def choices : List Mode := [all, keys, single, count]

def text : Mode → String
  | all => "all"
  | keys => "keys"
  | single => "single"
  | count => "count"
  | none => "none"

def ofName? (name : String) : Option Mode := choices.find? fun m => matchesWord name m.text

end Mode

/-- How rows of a typed query come back. -/
inductive Representation where
  | pojo | entity
deriving DecidableEq, Repr

namespace Representation

def text : Representation → String
  | pojo => "pojo"
  | entity => "entity"

/-- Read the marker of `marker as Type`, in any case. -/
def ofMarker? (marker : String) : Option Representation :=
  let word := Text.upper marker
  if Text.holds "POJO".toList word || Text.holds "BEAN".toList word then some pojo
  else if Text.holds "ENTITY".toList word then some entity
  else none

end Representation

inductive FilterOp where
  | equal | notEqual | lessThan | lessThanOrEqual | greaterThan | greaterThanOrEqual | isIn
deriving DecidableEq, Repr

namespace FilterOp

/-- The filter that an operator of the script stands for; `<<` may be written for `in`. -/
def ofBinOp? : BinOp → Option FilterOp
  | .eq => some equal
  | .ne => some notEqual
  | .lt => some lessThan
  | .le => some lessThanOrEqual
  | .gt => some greaterThan
  | .ge => some greaterThanOrEqual
  | .isIn | .shiftLeft => some isIn
  | _ => none

def token : FilterOp → String
  | equal => "EQUAL"
  | notEqual => "NOT_EQUAL"
  | lessThan => "LESS_THAN"
  | lessThanOrEqual => "LESS_THAN_OR_EQUAL"
  | greaterThan => "GREATER_THAN"
  | greaterThanOrEqual => "GREATER_THAN_OR_EQUAL"
  | isIn => "IN"

/-- Everything but equality and membership. -/
def isInequality : FilterOp → Bool
  | equal | isIn => false
  | _ => true

end FilterOp

inductive Direction where
  | ascending | descending
deriving DecidableEq, Repr

namespace Direction

def token : Direction → String
  | ascending => "ASCENDING"
  | descending => "DESCENDING"

/-- Read a marker that begins with `ASC` or `DESC`, in any case. -/
def ofMarker? (marker : String) : Option Direction :=
  let word := Text.upper marker
  if "DESC".toList.isPrefixOf word then some descending
  else if "ASC".toList.isPrefixOf word then some ascending
  else none

end Direction

end QueryBlocks
