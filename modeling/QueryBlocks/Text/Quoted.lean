/-!
String literals. Writing uses double quotes and escapes; reading takes either quote and any
character after a backslash.
-/
namespace QueryBlocks.Text

def escape : Char → List Char
  | '"' => ['\\', '"']
  | '\\' => ['\\', '\\']
  | '\n' => ['\\', 'n']
  | '\t' => ['\\', 't']
  | '\r' => ['\\', 'r']
  | c => [c]

def unescape : Char → Char
  | 'n' => '\n'
  | 't' => '\t'
  | 'r' => '\r'
  | c => c

/-- The text as a double quoted literal. -/
def quote (s : String) : String :=
  String.ofList ('"' :: (s.toList.flatMap escape ++ ['"']))

/-- Read up to the closing `mark`: the decoded text and what follows. A literal never runs over
the end of its line, unless the newline is escaped. -/
def readQuoted (mark : Char) : List Char → Option (List Char × List Char)
  | [] => none
  | '\\' :: c :: rest =>
    (readQuoted mark rest).map fun (text, after) => (unescape c :: text, after)
  | c :: rest =>
    if c = mark then some ([], rest)
    else if c = '\\' ∨ c = '\n' then none
    else (readQuoted mark rest).map fun (text, after) => (c :: text, after)

end QueryBlocks.Text
