import QueryBlocks.Script.Token

/-! Operators of expressions, by how tightly they bind. -/
namespace QueryBlocks.Token

open QueryBlocks.Parser

def assignOp : Parser BinOp :=
  (do exactly "+="; return .addAssign) <|>
  (do exactly "-="; return .subAssign) <|>
  (do let _ ← char '='; notNext (char '='); return .assign)

def orOp : Parser BinOp := do
  exactly "||"
  return .or

def andOp : Parser BinOp := do
  exactly "&&"
  return .and

def equalityOp : Parser BinOp :=
  (do exactly "=="; return .eq) <|>
  (do exactly "!="; return .ne)

def relationOp : Parser BinOp :=
  (do exactly "<="; return .le) <|>
  (do exactly ">="; return .ge) <|>
  (do let _ ← char '<'; notNext (char '<'); return .lt) <|>
  (do let _ ← char '>'; return .gt) <|>
  (do keyword "instanceof"; return .instanceOf) <|>
  (do keyword "in"; return .isIn)

def shiftOp : Parser BinOp := do
  exactly "<<"
  notNext (char '=')
  return .shiftLeft

/-- A sign that is doubled, assigns or makes an arrow is not an operator of this level. -/
def sumOp : Parser BinOp :=
  (do let _ ← char '+'; notNext (oneOf ['+', '=']); return .add) <|>
  (do let _ ← char '-'; notNext (oneOf ['-', '=', '>']); return .sub)

def productOp : Parser BinOp :=
  (do let _ ← char '*'; notNext (char '='); return .mul) <|>
  (do let _ ← char '/'; notNext (oneOf ['/', '*', '=']); return .div) <|>
  (do let _ ← char '%'; notNext (char '='); return .rem)

/-- The operators that group to the left, loosest first. -/
def ladder : List (Parser BinOp) :=
  [orOp, andOp, equalityOp, relationOp, shiftOp, sumOp, productOp]

end QueryBlocks.Token
