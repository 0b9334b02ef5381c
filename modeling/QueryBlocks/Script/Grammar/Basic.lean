import QueryBlocks.Script.Token

/-!
The grammar of scripts is recursive: expressions hold closures, closures hold statements, and
statements hold expressions. Each rule below takes the rules for nested text as a record, so none
of them calls itself. `Rules.nested` ties the knot by depth: every nested text is shorter than the
text around it, so a depth of the text's length is never used up.
-/
namespace QueryBlocks

/-- The rules for text inside a construct, and the place of a remaining text. -/
structure Rules where
  place : List Char → Position
  expr : Parser Expr
  unary : Parser Expr
  stmt : Parser Stmt
  stmts : Parser (List Stmt)
  branch : Parser Stmt

namespace Rules

/-- The place of what comes next. -/
def here (g : Rules) : Parser Position := fun s => .ok (g.place s) s

end Rules

end QueryBlocks
