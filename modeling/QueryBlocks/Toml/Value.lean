/-!
Values and tables of TOML, as far as settings can use them: texts, truth values, lists and tables.
A number or a date fits no setting, so a document that holds one is refused when it is read.
-/
namespace QueryBlocks.Toml

/-- How a table came to be, which decides whether it may still grow. -/
inductive Made where
  /-- Written in braces. -/
  | inline
  /-- Opened by a header of its own. -/
  | header
  /-- Named on the way to a dotted key. -/
  | dotted
  /-- Named on the way to a header. -/
  | implied
deriving DecidableEq, Repr

inductive Value where
  | text (s : String)
  | truth (b : Bool)
  | list (items : List Value)
  | table (made : Made) (entries : List (String × Value))
deriving Repr

/-- Keys with their values, in the order of the document. -/
abbrev Table := List (String × Value)

namespace Table

/-- Put a value in the place of the one that `key` has. -/
def replace (key : String) (value : Value) (table : Table) : Table :=
  table.map fun (k, v) => if k = key then (k, value) else (k, v)

/-- Change the table at a path. Tables that are missing on the way are made; those that are there
are entered if `enters` allows it. -/
def change (made : Made) (enters : Made → Bool) (f : Table → Option Table) :
    List String → Table → Option Table
  | [], table => f table
  | key :: path, table =>
    match table.lookup key with
    | none => do
      let entries ← change made enters f path []
      return table ++ [(key, .table made entries)]
    | some (.table as entries) =>
      if enters as then do
        let entries ← change made enters f path entries
        return replace key (.table as entries) table
      else none
    | some _ => none

/-- Add a key that is not there yet. -/
def add (key : String) (value : Value) (table : Table) : Option Table :=
  if (table.lookup key).isSome then none else some (table ++ [(key, value)])

/-- Add a value under a dotted key. A table with a header cannot be reached by dots, and one in
braces cannot be reached at all. -/
def addDotted (path : List String) (value : Value) (table : Table) : Option Table := do
  let key ← path.getLast?
  change .dotted (fun made => made = .dotted ∨ made = .implied) (add key value) path.dropLast table

/-- Open the table of a header. It must be new, or only have been named on the way to others. -/
def openHeader (path : List String) (table : Table) : Option Table := do
  let key ← path.getLast?
  change .implied (· ≠ .inline) (fun parent =>
    match parent.lookup key with
    | none => some (parent ++ [(key, .table .header [])])
    | some (.table .implied entries) => some (replace key (.table .header entries) parent)
    | some _ => none) path.dropLast table

/-- Add a value under a dotted key of the section with the given header. -/
def addIn (header path : List String) (value : Value) (table : Table) : Option Table :=
  change .implied (· ≠ .inline) (addDotted path value) header table

end Table

end QueryBlocks.Toml
