import QueryBlocks.Parser
import QueryBlocks.Query.Vocabulary
import QueryBlocks.Text.Quoted

/-! The lexical rules of scripts: gaps, words, names and literals. -/
namespace QueryBlocks.Token

open QueryBlocks.Parser

/-- Words that cannot name a variable. -/
def reserved : List String :=
  ["def", "if", "else", "return", "new", "true", "false", "null", "in", "instanceof", "as", "class"]

def primitives : List String :=
  ["int", "long", "short", "byte", "boolean", "double", "float", "char", "void"]

def modifierWords : List String :=
  ["public", "private", "protected", "static", "final", "abstract"]

def isReserved (word : String) : Bool := reserved.contains word

def isWordChar (c : Char) : Bool := c.isAlphanum || c == '_' || c == '$'

def isWordStart (c : Char) : Bool := c.isAlpha || c == '_' || c == '$'

/-- The text after the end of a block comment. -/
def afterComment : List Char → Option (List Char)
  | '*' :: '/' :: rest => some rest
  | _ :: rest => afterComment rest
  | [] => none

theorem length_afterComment {s rest : List Char} (h : afterComment s = some rest) :
    rest.length < s.length := by
  fun_induction afterComment s with
  | case1 r =>
    cases h
    simp only [List.length_cons]
    omega
  | case2 _ r _ ih =>
    have := ih h
    simp only [List.length_cons]
    omega
  | case3 => simp at h

/-- Skip the characters of `isGap` and comments. A line comment ends before its newline; a block
comment that is never closed is no comment. -/
def skip (isGap : Char → Bool) (s : List Char) : List Char :=
  match s with
  | '/' :: '/' :: rest => skip isGap (rest.dropWhile (· != '\n'))
  | '/' :: '*' :: rest =>
    match _h : afterComment rest with
    | some after => skip isGap after
    | none => s
  | c :: rest => if isGap c then skip isGap rest else s
  | [] => []
termination_by s.length
decreasing_by
  · have := (List.dropWhile_suffix (l := rest) (· != '\n')).length_le
    simp only [List.length_cons]
    omega
  · have := length_afterComment ‹_›
    simp only [List.length_cons]
    omega
  · simp

def isGap (c : Char) : Bool := c == ' ' || c == '\t' || c == '\r'

def isSpace (c : Char) : Bool := isGap c || c == '\n'

def isBreak (c : Char) : Bool := isSpace c || c == ';'

/-- What may stand between two words of a line. -/
def gap : Parser Unit := skipping (skip isGap)

/-- A gap that begins with a space or a tab. -/
def gap1 : Parser Unit := do
  let _ ← satisfy fun c => c == ' ' || c == '\t'
  gap

/-- A gap that may run over several lines. -/
def space : Parser Unit := skipping (skip isSpace)

/-- What may stand between two statements. -/
def breaks : Parser Unit := skipping (skip isBreak)

/-- `word`, with no further word character after it. -/
def keyword (word : String) : Parser Unit := do
  exactly word
  notNext (satisfy isWordChar)

def wordRest : Parser (List Char) := fun s =>
  .ok (s.takeWhile isWordChar) (s.dropWhile isWordChar)

def identifier : Parser String := do
  let first ← satisfy isWordStart
  let more ← wordRest
  return String.ofList (first :: more)

/-- An identifier that is not reserved. -/
def name : Parser String := verify identifier fun word => !isReserved word

/-- `a.b.C` -/
def qualifiedName : Parser String := do
  let first ← identifier
  let more ← many (do let _ ← char '.'; identifier)
  return ".".intercalate (first :: more)

/-- The part of a dotted name after its last dot. -/
def simpleName (name : String) : String :=
  String.ofList (name.toList.reverse.takeWhile (· != '.')).reverse

def isTypeName (name : String) : Bool :=
  ((simpleName name).toList.head?.any Char.isUpper || primitives.contains name) &&
    !isKeyword name

/-- A type of a declaration: primitive or with a capital, and no word of a query, so that
`From childOf = key` is a query statement and no declaration. -/
def typeName : Parser String := verify qualifiedName isTypeName

def modifier : Parser String := verify identifier modifierWords.contains

/-- A text in single or double quotes. -/
def stringLiteral : Parser String
  | '"' :: rest => finish '"' rest
  | '\'' :: rest => finish '\'' rest
  | s => .fail s
where
  finish (mark : Char) (rest : List Char) : Outcome String :=
    match Text.readQuoted mark rest with
    | some (text, after) => .ok (String.ofList text) after
    | none => .fail (mark :: rest)

/-- Greatest value of an integer literal. -/
def maxInt : Nat := 0x7fffffffffffffff

def digitsValue (digits : List Char) : Nat :=
  digits.foldl (fun n c => 10 * n + (c.toNat - '0'.toNat)) 0

/-- The digits at the front of a text; at least one is required. -/
def digits : Parser (List Char) := fun s =>
  match s.takeWhile Char.isDigit with
  | [] => .fail s
  | found => .ok found (s.dropWhile Char.isDigit)

/-- Digits, perhaps with a point and further digits. A word character may not follow. -/
def numeral : Parser Literal := do
  let whole ← digits
  let fraction ← optional (do let _ ← char '.'; digits)
  notNext (satisfy isWordChar)
  match fraction with
  | some fraction => return .decimal (String.ofList (whole ++ '.' :: fraction))
  | none => return .int (digitsValue whole)

def isInRange : Literal → Bool
  | .int n => n ≤ maxInt
  | _ => true

/-- An integer that is not too large, or a decimal that has digits on both sides of its point. -/
def number : Parser Literal := verify numeral isInRange

/-- `true`, `false` or `null`. -/
def wordLiteral : Parser Literal :=
  (do keyword "true"; return .bool true) <|>
  (do keyword "false"; return .bool false) <|>
  (do keyword "null"; return .null)

/-- Look ahead: an argument without parentheses can begin here. -/
def startsArgument : Parser Unit := do
  notNext (keyword "in" <|> keyword "instanceof" <|> keyword "as")
  ahead (satisfy fun c => isWordChar c || c == '"' || c == '\'' || c == '[')

end QueryBlocks.Token
