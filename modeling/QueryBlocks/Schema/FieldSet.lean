import QueryBlocks.Text.Distance

/-! The declared fields of a type. -/
namespace QueryBlocks

/-- Put a word into a sorted list, once. -/
def insertSorted (word : String) : List String → List String
  | [] => [word]
  | first :: more =>
    if word < first then word :: first :: more
    else if word = first then first :: more
    else first :: insertSorted word more

structure FieldSet where
  typeName : String
  /-- Sorted, each name once. -/
  names : List String
deriving DecidableEq, Repr

namespace FieldSet

def ofList (typeName : String) (fields : List String) : FieldSet :=
  ⟨typeName, fields.foldl (fun names field => insertSorted field names) []⟩

def contains (s : FieldSet) (field : String) : Bool := s.names.contains field

/-- How far a suggestion may be from a word; short words must match exactly. -/
def tolerance (word : String) : Nat :=
  if word.utf8ByteSize ≤ 2 then 0 else if word.utf8ByteSize ≤ 5 then 2 else 3

/-- The first of the nearest names. -/
def nearest (word : String) : List String → Option String
  | [] => none
  | name :: more =>
    match nearest word more with
    | some other =>
      if Text.distance word name ≤ Text.distance word other then some name else some other
    | none => some name

/-- The declared field nearest to `word`, if one is near enough. -/
def suggest (s : FieldSet) (word : String) : Option String :=
  nearest word (s.names.filter fun name => Text.distance word name ≤ tolerance word)

end FieldSet

end QueryBlocks
