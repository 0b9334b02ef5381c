/-! White space, and cutting text at it. -/
namespace QueryBlocks.Text

/-- The white space of Unicode: controls 9 to 13, the spaces, and the line and paragraph
separators. The zero width no-break space is not among them. -/
def isBlank (c : Char) : Bool :=
  let n := c.toNat
  (9 ≤ n && n ≤ 13) || n == 0x20 || n == 0x85 || n == 0xA0 || n == 0x1680 ||
    (0x2000 ≤ n && n ≤ 0x200A) || n == 0x2028 || n == 0x2029 || n == 0x202F ||
    n == 0x205F || n == 0x3000

def trimStart (s : List Char) : List Char := s.dropWhile isBlank

def trimEnd (s : List Char) : List Char := (s.reverse.dropWhile isBlank).reverse

/-- Add a character to the front of the first line. -/
def consFirst (c : Char) : List (List Char) → List (List Char)
  | [] => [[c]]
  | line :: lines => (c :: line) :: lines

/-- Lines without their ends, which are LF or CR LF. A text that ends in a line end has no
further empty line. -/
def lines : List Char → List (List Char)
  | [] => []
  | '\n' :: rest => [] :: lines rest
  | '\r' :: '\n' :: rest => [] :: lines rest
  | c :: rest => consFirst c (lines rest)

/-- The start of a text, to show where reading stopped: at most 24 characters of its first line.
Only blanks at the end are lost, so a CR before the line end needs no rule of its own. -/
def snippet (s : List Char) : String :=
  String.ofList (trimEnd ((s.takeWhile (· != '\n')).take 24))

end QueryBlocks.Text
