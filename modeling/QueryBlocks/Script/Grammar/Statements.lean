import QueryBlocks.Script.Grammar.Expressions

/-! Statements and blocks. -/
namespace QueryBlocks.Rules

open QueryBlocks.Parser QueryBlocks.Token

variable (g : Rules)

/-- Whether a statement is over: at the end of the text or before a newline, `;` or a closing
brace. -/
def ended : List Char → Bool
  | [] => true
  | c :: _ => c == '\n' || c == ';' || c == '\x7d'

/-- Anything else after a statement is an error that no alternative can mend. -/
def statementEnd : Parser Unit := do
  gap
  if ended (← remaining) then return else stop

/-- Whether a list of statements is over. -/
def closed : List Char → Bool
  | [] => true
  | c :: _ => c == '\x7d'

/-- Statements or declarations, up to a closing brace or the end of the text. -/
def sequence {α : Type} (p : Parser α) : Parser (List α) := do
  breaks
  manyUntil closed (do
    let a ← p
    statementEnd
    breaks
    return a)

/-- `def`, or a type that may be an array. -/
def declaredType : Parser (Option String) :=
  (do keyword "def"; return none) <|>
  (do
    let type ← typeName
    match ← optional (exactly "[]") with
    | some _ => return some (type ++ "[]")
    | none => return some type)

/-- A declared type and the gap after it. -/
def typeAhead : Parser (Option String) := do
  let type ← declaredType
  gap1
  return type

def initMark : Parser Unit := do
  gap
  let _ ← char '='
  notNext (char '=')
  space

def initializer : Parser (Option Expr) := do
  match ← optional initMark with
  | some _ => return some (← g.assignment)
  | none => return none

def declaration : Parser Stmt := do
  let pos ← g.here
  let type ← typeAhead
  let word ← name
  return .declare pos type word (← g.initializer)

/-- A call without parentheses: `select all, limit(10)`. -/
def command : Parser Stmt := do
  let pos ← g.here
  let word ← name
  gap1
  startsArgument
  let args ← g.bareArgs
  return .eval pos (.call pos none word args)

def returnStmt : Parser Stmt := do
  let pos ← g.here
  keyword "return"
  let value ← optional (do
    gap1
    if ended (← remaining) then fail else return)
  match value with
  | some _ => return .ret pos (some (← g.assignment))
  | none => return .ret pos none

/-- `{ statements }` -/
def block : Parser Block := do
  let pos ← g.here
  let _ ← char '\x7b'
  let statements ← g.stmts
  space
  let _ ← char '\x7d'
  return ⟨pos, statements⟩

/-- A block in braces, or one statement that stands for it. -/
def body : Parser Block := do
  let pos ← g.here
  match ← remaining with
  | '\x7b' :: _ => g.block
  | _ => return ⟨pos, [← g.stmt]⟩

def elseWord : Parser Unit := do
  space
  keyword "else"
  space

/-- What follows `else`: another condition, or a body. -/
def otherwise : Parser Block := do
  let pos ← g.here
  let next ← remaining
  match keyword "if" next with
  | .ok .. => return ⟨pos, [← g.branch]⟩
  | _ => g.body

def conditional : Parser Stmt := do
  let pos ← g.here
  keyword "if"
  space
  let _ ← char '('
  space
  let cond ← g.assignment
  space
  let _ ← char ')'
  space
  let body ← g.body
  match ← optional elseWord with
  | some _ => return .branch pos cond body (some (← g.otherwise))
  | none => return .branch pos cond body none

def evaluation : Parser Stmt := do
  let pos ← g.here
  return .eval pos (← g.assignment)

def statement : Parser Stmt :=
  g.conditional <|> g.returnStmt <|> g.declaration <|> g.command <|> g.evaluation

def statements : Parser (List Stmt) := sequence g.statement

end QueryBlocks.Rules
