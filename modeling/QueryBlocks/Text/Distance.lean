/-! Edit distance: the fewest insertions, deletions and replacements of a character. -/
namespace QueryBlocks.Text

/-- The row of distances after one more character `c`. `corner` and the head of `above` are the
old distances on either side of the next character, and `left` the new distance before it. -/
def nextRow (c : Char) (left corner : Nat) : List Char → List Nat → List Nat
  | d :: word, up :: above =>
    let best := min (min (left + 1) (up + 1)) (corner + if c = d then 0 else 1)
    best :: nextRow c best up word above
  | _, _ => []

/-- Distances from the text read so far to every initial part of `word`. -/
def distances (word : List Char) : List Char → List Nat → List Nat
  | [], row => row
  | c :: rest, row =>
    let corner := row.headD 0
    distances word rest ((corner + 1) :: nextRow c (corner + 1) corner word row.tail)

def distance (a b : String) : Nat :=
  let word := b.toList
  (distances word a.toList (List.range (word.length + 1))).getLastD 0

end QueryBlocks.Text
