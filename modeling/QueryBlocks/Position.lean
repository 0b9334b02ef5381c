import QueryBlocks.Text.Bytes

/-!
Places in a text. Lines and columns count from one, and columns count characters. A place is found
by the number of bytes before it.
-/
namespace QueryBlocks

structure Position where
  line : Nat
  column : Nat
deriving DecidableEq, Repr, Inhabited

def Position.text (p : Position) : String := toString p.line ++ ":" ++ toString p.column

/-- Where a table goes over from entries with a property to entries without it, by halving what is
left to search between `lo` and `hi`. -/
def splitPoint {α : Type} (p : α → Bool) (table : Array α) (lo hi : Nat) (hhi : hi ≤ table.size) :
    Nat :=
  if h : lo < hi then
    let mid := lo + (hi - lo) / 2
    have : mid < table.size := by omega
    if p table[mid] then splitPoint p table (mid + 1) hi hhi
    else splitPoint p table lo mid (by omega)
  else lo
termination_by hi - lo

/-- A text and where its lines begin, so that a place is found without counting all the text. -/
structure LineIndex where
  text : List Char
  /-- Number of bytes in the text. -/
  size : Nat
  /-- Byte offsets of the first characters of the lines, in order. -/
  starts : Array Nat
deriving Repr

namespace LineIndex

/-- Byte offsets that follow a newline, for a text that begins at `offset`. -/
def startsFrom (offset : Nat) : List Char → List Nat
  | [] => []
  | c :: rest =>
    if c = '\n' then (offset + 1) :: startsFrom (offset + c.utf8Size) rest
    else startsFrom (offset + c.utf8Size) rest

def ofText (text : List Char) : LineIndex :=
  ⟨text, Text.byteSize text, (0 :: startsFrom 0 text).toArray⟩

/-- The number of lines that begin at or before a byte offset. -/
def lineAt (index : LineIndex) (offset : Nat) : Nat :=
  splitPoint (· ≤ offset) index.starts 0 index.starts.size (Nat.le_refl _)

/-- The entry of a line in the table. Lines count from one. -/
def start? (index : LineIndex) : Nat → Option Nat
  | 0 => none
  | line + 1 => index.starts[line]?

/-- The place of a byte offset: the line is the last one that has begun, and the column counts the
characters from its start. -/
def position? (index : LineIndex) (offset : Nat) : Option Position := do
  let line := index.lineAt offset
  let start ← index.start? line
  let before ← Text.slice? start offset index.text
  return ⟨line, before.length + 1⟩

/-- The place of `rest`, a suffix of the indexed text. -/
def locate? (index : LineIndex) (rest : List Char) : Option Position :=
  index.position? (index.size - Text.byteSize rest)

/-- The place of a suffix. What is no suffix is put at the start. -/
def locate (index : LineIndex) (rest : List Char) : Position := (index.locate? rest).getD ⟨1, 1⟩

end LineIndex

end QueryBlocks
