/-! Texts in bytes of UTF-8. Offsets count bytes, and a text is cut between characters only. -/
namespace QueryBlocks.Text

/-- Number of bytes that a text takes. -/
def byteSize : List Char → Nat
  | [] => 0
  | c :: rest => c.utf8Size + byteSize rest

/-- The text before a byte offset and the text from it on, if no character lies across it. -/
def cut? : Nat → List Char → Option (List Char × List Char)
  | 0, s => some ([], s)
  | _ + 1, [] => none
  | n + 1, c :: rest =>
    if c.utf8Size ≤ n + 1 then
      (cut? (n + 1 - c.utf8Size) rest).map fun (before, rest) => (c :: before, rest)
    else none

/-- The text between two byte offsets. -/
def slice? (start stop : Nat) (text : List Char) : Option (List Char) :=
  if start ≤ stop then do
    let (_, rest) ← cut? start text
    let (part, _) ← cut? (stop - start) rest
    return part
  else none

end QueryBlocks.Text
