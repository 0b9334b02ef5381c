import QueryBlocks.Script.Tree

/-! The nodes of a script in the order in which they are visited, parents first. -/
namespace QueryBlocks

/-- A node that a walk comes to. -/
inductive Visit where
  | script (items : Nat)
  | classDecl (name : String)
  | field (name : String)
  | method (name : String)
  | block (pos : Position)
  | stmt (node : Stmt)
  | expr (node : Expr)

mutual

def Expr.walk : Expr → List Visit
  | .var p name => [.expr (.var p name)]
  | .lit p value => [.expr (.lit p value)]
  | .member p object name => .expr (.member p object name) :: object.walk
  | .call p none name args => .expr (.call p none name args) :: Expr.walkAll args
  | .call p (some receiver) name args =>
    .expr (.call p (some receiver) name args) :: (receiver.walk ++ Expr.walkAll args)
  | .construct p type args => .expr (.construct p type args) :: Expr.walkAll args
  | .cast p value type => .expr (.cast p value type) :: value.walk
  | .binary p left op right => .expr (.binary p left op right) :: (left.walk ++ right.walk)
  | .not p e => .expr (.not p e) :: e.walk
  | .negate p e => .expr (.negate p e) :: e.walk
  | .list p items => .expr (.list p items) :: Expr.walkAll items
  | .spread p e => .expr (.spread p e) :: e.walk
  | .closure p params body => .expr (.closure p params body) :: body.walk

def Expr.walkAll : List Expr → List Visit
  | [] => []
  | e :: more => e.walk ++ Expr.walkAll more

def Block.walk : Block → List Visit
  | ⟨p, statements⟩ => .block p :: Stmt.walkAll statements

def Stmt.walkAll : List Stmt → List Visit
  | [] => []
  | s :: more => s.walk ++ Stmt.walkAll more

def Stmt.walk : Stmt → List Visit
  | .eval p e => .stmt (.eval p e) :: e.walk
  | .declare p type name none => [.stmt (.declare p type name none)]
  | .declare p type name (some e) => .stmt (.declare p type name (some e)) :: e.walk
  | .branch p cond body none => .stmt (.branch p cond body none) :: (cond.walk ++ body.walk)
  | .branch p cond body (some other) =>
    .stmt (.branch p cond body (some other)) :: (cond.walk ++ body.walk ++ other.walk)
  | .ret p none => [.stmt (.ret p none)]
  | .ret p (some e) => .stmt (.ret p (some e)) :: e.walk

end

def Field.walk (f : Field) : List Visit :=
  .field f.name :: (f.init.map Expr.walk).getD []

def Method.walk (m : Method) : List Visit := .method m.name :: m.body.walk

/-- Fields come before methods, whatever their order in the text. -/
def ClassDecl.walk (c : ClassDecl) : List Visit :=
  .classDecl c.name :: (c.fields.flatMap Field.walk ++ c.methods.flatMap Method.walk)

def Item.walk : Item → List Visit
  | .classDecl c => c.walk
  | .method m => m.walk
  | .statement s => s.walk

def Script.walk (s : Script) : List Visit :=
  .script s.items.length :: s.items.flatMap Item.walk

end QueryBlocks
