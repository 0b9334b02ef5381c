import QueryBlocks.Script.Grammar.Statements

/-! Methods, classes and whole scripts. -/
namespace QueryBlocks.Rules

open QueryBlocks.Parser QueryBlocks.Token

variable (g : Rules)

def modifiers : Parser (List String) :=
  many (do
    let word ← modifier
    gap1
    return word)

def param : Parser String := do
  let _ ← optional typeAhead
  name

def params : Parser (List String) := do
  let _ ← char '('
  space
  let names ← sepBy (comma space space) param
  space
  let _ ← char ')'
  return names

/-- The type of a declaration that modifiers may already have announced. -/
def typeAfter (modifiers : List String) : Parser (Option String) :=
  if modifiers.isEmpty then typeAhead
  else do return (← optional typeAhead).join

def method : Parser Method := do
  let pos ← g.here
  let modifiers ← modifiers
  let returnType ← typeAfter modifiers
  let word ← name
  gap
  let params ← params
  space
  let body ← g.block
  return { pos, modifiers, returnType, name := word, params, body }

def field : Parser Field := do
  let pos ← g.here
  let modifiers ← modifiers
  let type ← optional typeAhead
  let word ← name
  let init ← g.initializer
  return { pos, modifiers, type := type.join, name := word, init }

def classMember : Parser (Field ⊕ Method) :=
  (do return .inr (← g.method)) <|> (do return .inl (← g.field))

def superclass : Parser String := do
  gap1
  keyword "extends"
  gap1
  qualifiedName

def classDecl : Parser ClassDecl := do
  let pos ← g.here
  let modifiers ← modifiers
  keyword "class"
  gap1
  let word ← identifier
  let superclass ← optional superclass
  space
  let _ ← char '\x7b'
  let members ← sequence g.classMember
  let _ ← char '\x7d'
  return {
    pos, modifiers, name := word, superclass
    fields := members.filterMap Sum.getLeft?
    methods := members.filterMap Sum.getRight? }

def item : Parser Item :=
  (do return .classDecl (← g.classDecl)) <|>
  (do return .method (← g.method)) <|>
  (do return .statement (← g.statement))

def script : Parser Script := do return ⟨← sequence g.item⟩

/-- The rules for text nested at most `depth` deep. -/
def nested (place : List Char → Position) : Nat → Rules
  | 0 => { place, expr := fail, unary := fail, stmt := fail, stmts := fail, branch := fail }
  | depth + 1 => {
      place
      expr := fun s => (nested place depth).assignment s
      unary := fun s => (nested place depth).signed s
      stmt := fun s => (nested place depth).statement s
      stmts := fun s => (nested place depth).statements s
      branch := fun s => (nested place depth).conditional s }

end QueryBlocks.Rules
