import QueryBlocks.Parser
import QueryBlocks.Toml.Value

/-! Reading TOML documents. -/
namespace QueryBlocks.Toml

open QueryBlocks.Parser

/-- Characters that may stand for themselves: no control but the tab. -/
def isPlain (c : Char) : Bool := c == '\t' || (32 ≤ c.toNat && c.toNat ≠ 127)

def isBlank (c : Char) : Bool := c == ' ' || c == '\t'

def blanks : Parser Unit := skipping (·.dropWhile isBlank)

def newline : Parser Unit := exactly "\n" <|> exactly "\r\n"

def comment : Parser Unit := do
  let _ ← char '#'
  skipping (·.dropWhile isPlain)

/-- What may stand between the items of a list: blanks, newlines and comments. -/
def filler : Parser Unit := do
  let _ ← many ((do let _ ← satisfy isBlank; return) <|> newline <|> comment)

def endOfText : Parser Unit
  | [] => .ok () []
  | s => .fail s

/-- The end of a line, after blanks and perhaps a comment. -/
def lineEnd : Parser Unit := do
  blanks
  let _ ← optional comment
  newline <|> endOfText

def hexDigit? (c : Char) : Option Nat :=
  if '0' ≤ c ∧ c ≤ '9' then some (c.toNat - '0'.toNat)
  else if 'a' ≤ c ∧ c ≤ 'f' then some (c.toNat - 'a'.toNat + 10)
  else if 'A' ≤ c ∧ c ≤ 'F' then some (c.toNat - 'A'.toNat + 10)
  else none

/-- A character by its code point, in exactly `n` hexadecimal digits. -/
def codePoint (n : Nat) : Parser Char := fun s =>
  match (s.take n).mapM hexDigit? with
  | some digits =>
    let code := digits.foldl (fun value d => 16 * value + d) 0
    if digits.length = n ∧ code.isValidChar then .ok (Char.ofNat code) (s.drop n) else .fail s
  | none => .fail s

def escapes : List (Char × Char) :=
  [('b', '\x08'), ('t', '\t'), ('n', '\n'), ('f', '\x0c'), ('r', '\r'), ('"', '"'), ('\\', '\\')]

/-- A backslash and what it stands for. -/
def escape : Parser Char := do
  let _ ← char '\\'
  let c ← satisfy fun _ => true
  match escapes.lookup c with
  | some meant => return meant
  | none => if c = 'u' then codePoint 4 else if c = 'U' then codePoint 8 else fail

def plainBut (excluded : List Char) : Parser Char :=
  satisfy fun c => isPlain c && !excluded.contains c

/-- A text in double quotes on one line, with escapes. -/
def basicText : Parser String := do
  let _ ← char '"'
  let text ← many (escape <|> plainBut ['"', '\\'])
  let _ ← char '"'
  return String.ofList text

/-- A text in single quotes on one line, as it stands. -/
def literalText : Parser String := do
  let _ ← char '\''
  let text ← many (plainBut ['\''])
  let _ ← char '\''
  return String.ofList text

/-- One or two quotes inside a text that three quotes end. -/
def innerQuotes (mark : Char) : Parser (List Char) := fun s =>
  let run := s.takeWhile (· == mark)
  if run.length = 1 ∨ run.length = 2 then .ok run (s.dropWhile (· == mark)) else .fail s

/-- Three quotes that end a text; up to two more in front of them belong to it. -/
def closingQuotes (mark : Char) : Parser (List Char) := fun s =>
  let count := (s.takeWhile (· == mark)).length
  if count < 3 then .fail s
  else
    let inside := min (count - 3) 2
    .ok (List.replicate inside mark) (s.drop (inside + 3))

/-- A backslash at the end of a line takes all blanks and newlines after it away. -/
def lineContinuation : Parser (List Char) := do
  let _ ← char '\\'
  blanks
  newline
  let _ ← many ((do let _ ← satisfy isBlank; return) <|> newline)
  return []

/-- A text over several lines between three quotes. A newline right at its start is dropped. -/
def longText (mark : Char) (part : Parser (List Char)) : Parser String := do
  exactly (String.ofList [mark, mark, mark])
  let _ ← optional newline
  let parts ← many ((do newline; return ['\n']) <|> innerQuotes mark <|> part)
  let rest ← closingQuotes mark
  return String.ofList (parts.flatten ++ rest)

def longBasicText : Parser String :=
  longText '"' ((do return [← escape]) <|> lineContinuation <|> (do return [← plainBut ['"', '\\']]))

def longLiteralText : Parser String := longText '\'' do return [← plainBut ['\'']]

def text : Parser String := longBasicText <|> longLiteralText <|> basicText <|> literalText

def bareKey : Parser String := do
  let isBare (c : Char) : Bool := c.isAlphanum || c == '-' || c == '_'
  let first ← satisfy isBare
  let more ← many (satisfy isBare)
  return String.ofList (first :: more)

/-- A key, perhaps with dots. -/
def key : Parser (List String) :=
  sepBy1 (do blanks; let _ ← char '.'; blanks) (basicText <|> literalText <|> bareKey)

/-- `key = value` -/
def assignment (value : Parser Value) : Parser (List String × Value) := do
  let path ← key
  blanks
  let _ ← char '='
  blanks
  return (path, ← value)

def listComma : Parser Unit := do
  filler
  let _ ← char ','
  filler

/-- A list, perhaps over several lines. A comma may stand after the last item. -/
def list (value : Parser Value) : Parser Value := do
  let _ ← char '['
  filler
  let items ← optional (do
    let items ← sepBy1 listComma value
    let _ ← optional listComma
    return items)
  filler
  let _ ← char ']'
  return .list (items.getD [])

/-- A table in braces, on one line. -/
def inlineTable (value : Parser Value) : Parser Value := do
  let _ ← char '\x7b'
  blanks
  let entries ← sepBy (do blanks; let _ ← char ','; blanks) (assignment value)
  blanks
  let _ ← char '\x7d'
  match entries.foldlM (fun table (path, value) => Table.addDotted path value table) [] with
  | some table => return .table .inline table
  | none => fail

/-- A value that holds others at most `depth` deep. -/
def value : Nat → Parser Value
  | 0 => fail
  | depth + 1 =>
    (do return .text (← text)) <|>
    (do exactly "true"; return .truth true) <|>
    (do exactly "false"; return .truth false) <|>
    list (value depth) <|> inlineTable (value depth)

/-- A line of a document that says something. -/
inductive Line where
  | header (path : List String)
  | entry (path : List String) (value : Value)

def header : Parser (List String) := do
  let _ ← char '['
  blanks
  let path ← key
  blanks
  let _ ← char ']'
  return path

/-- A line, up to and with its end. -/
def line (value : Parser Value) : Parser (Option Line) := do
  blanks
  let said ← optional ((do return .header (← header)) <|>
    (do
      let (path, value) ← assignment value
      return .entry path value))
  lineEnd
  return said

/-- Build the table of a document from its lines. -/
def build : List String → Table → List Line → Option Table
  | _, table, [] => some table
  | _, table, .header path :: more => do build path (← table.openHeader path) more
  | section_, table, .entry path value :: more => do
    build section_ (← table.addIn section_ path value) more

/-- Read a document. A byte order mark in front of it is skipped. -/
def read? (document : String) : Option Table :=
  let s := document.toList
  let s := if s.head? = some '\ufeff' then s.tail else s
  match manyUntil List.isEmpty (line (value s.length)) s with
  | .ok lines _ => build [] [] (lines.filterMap id)
  | _ => none

end QueryBlocks.Toml
