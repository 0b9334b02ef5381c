import QueryBlocks.Script.Grammar.Basic
import QueryBlocks.Script.Grammar.Operators

/-!
Expressions. An operator stands on the line where its left operand ends; a newline before it ends
the expression.
-/
namespace QueryBlocks.Rules

open QueryBlocks.Parser QueryBlocks.Token

variable (g : Rules)

/-- A binary expression begins where its left operand does. -/
def join (left : Expr) (op : BinOp) (right : Expr) : Expr := .binary left.pos left op right

def comma (before after : Parser Unit) : Parser Unit := do
  before
  let _ ← char ','
  after

/-- An argument or list item; `*` in front spreads it. -/
def argument : Parser Expr := do
  let pos ← g.here
  match ← optional (char '*') with
  | some _ => return .spread pos (← g.expr)
  | none => g.expr

/-- `(a, b)` -/
def parenArgs : Parser (List Expr) := do
  let _ ← char '('
  space
  let args ← sepBy (comma space space) g.argument
  space
  let _ ← char ')'
  return args

/-- Arguments without parentheses; a comma may end a line. -/
def bareArgs : Parser (List Expr) := sepBy1 (comma gap space) g.argument

def closureParams : Parser (List String) := do
  let names ← sepBy (comma gap gap) name
  gap
  exactly "->"
  space
  return names

/-- `{ a, b -> statements }` -/
def closure : Parser (List String × Block) := do
  let pos ← g.here
  let _ ← char '\x7b'
  space
  let params ← closureParams <|> pure []
  let statements ← g.stmts
  space
  let _ ← char '\x7d'
  return (params, ⟨pos, statements⟩)

/-- A closure as an expression. -/
def closureExpr : Parser Expr := do
  let pos ← g.here
  let (params, body) ← g.closure
  return .closure pos params body

/-- Arguments in parentheses, a closure behind them, both or neither. -/
def callArgs : Parser (Option (List Expr)) := do
  let args ← optional (do gap; g.parenArgs)
  let last ← optional (do gap; g.closureExpr)
  match last with
  | some last => return some (args.getD [] ++ [last])
  | none => return args

def parenthesized : Parser Expr := do
  let _ ← char '('
  space
  let inner ← g.expr
  space
  let _ ← char ')'
  return inner

def listExpr : Parser Expr := do
  let pos ← g.here
  let _ ← char '['
  space
  let items ← sepBy (comma space space) g.argument
  space
  let _ ← optional (char ',')
  space
  let _ ← char ']'
  return .list pos items

/-- `new a.b.Type(args)` -/
def construction : Parser Expr := do
  let pos ← g.here
  keyword "new"
  gap1
  let type ← qualifiedName
  gap
  return .construct pos type (← g.parenArgs)

def literal (p : Parser Literal) : Parser Expr := do
  let pos ← g.here
  return .lit pos (← p)

def nameOrCall : Parser Expr := do
  let pos ← g.here
  let word ← name
  match ← g.callArgs with
  | some args => return .call pos none word args
  | none => return .var pos word

def primary : Parser Expr :=
  g.parenthesized <|> g.listExpr <|> g.closureExpr <|>
    g.literal (do return .string (← stringLiteral)) <|> g.literal number <|>
    g.literal wordLiteral <|> g.construction <|> g.nameOrCall

/-- A dot, perhaps on the next line, that does not begin a range. -/
def dot : Parser Unit := do
  space
  let _ ← char '.'
  notNext (char '.')
  gap

def castWord : Parser Unit := do
  gap
  keyword "as"
  gap

/-- One more member, index or cast after `e`. -/
def suffix (e : Expr) : Parser (Option Expr) := do
  if (← optional dot).isSome then
    let word ← identifier
    match ← g.callArgs with
    | some args => return some (.call e.pos (some e) word args)
    | none => return some (.member e.pos e word)
  else if (← optional (char '[')).isSome then
    space
    let index ← g.expr
    space
    let _ ← char ']'
    return some (join e .index index)
  else if (← optional castWord).isSome then
    return some (.cast e.pos e (← qualifiedName))
  else
    return none

def postfixed : Parser Expr := do
  let first ← g.primary
  extend g.suffix first

/-- A minus in front of a number is part of the number. -/
def negated (pos : Position) : Expr → Expr
  | .lit _ (.int n) => .lit pos (.int (-n))
  | .lit _ (.decimal text) => .lit pos (.decimal ("-" ++ text))
  | e => .negate pos e

def signed : Parser Expr := do
  let pos ← g.here
  if (← optional (char '!')).isSome then
    space
    return .not pos (← g.unary)
  else if (← optional (char '-')).isSome then
    return negated pos (← g.unary)
  else
    g.postfixed

/-- One more operator and operand after `left`. -/
def operation (operator : Parser BinOp) (operand : Parser Expr) (left : Expr) :
    Parser (Option Expr) := do
  match ← optional (do gap; operator) with
  | some op =>
    space
    return some (join left op (← operand))
  | none => return none

/-- Operands with operators between them, grouped to the left. -/
def leftGrouped (operator : Parser BinOp) (operand : Parser Expr) : Parser Expr := do
  let first ← operand
  extend (operation operator operand) first

/-- The levels of a ladder of operators, each built on the tighter ones. -/
def levels : List (Parser BinOp) → Parser Expr
  | [] => g.signed
  | operator :: tighter => leftGrouped operator (levels tighter)

/-- Assignments group to the right. -/
def assignment : Parser Expr := do
  let left ← g.levels ladder
  match ← optional (do gap; assignOp) with
  | some op =>
    space
    return join left op (← g.expr)
  | none => return left

end QueryBlocks.Rules
