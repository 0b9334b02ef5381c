import QueryBlocks.Position

/-!
Scripts as trees. Every node keeps the place where its text begins; two trees that differ in places
only stand for the same script.
-/
namespace QueryBlocks

inductive Literal where
  | null
  | bool (value : Bool)
  | int (value : Int)
  /-- A number with a point, kept as it was written. -/
  | decimal (text : String)
  | string (value : String)
deriving DecidableEq, Repr

/-- Binary operators. Assigning and indexing are among them. -/
inductive BinOp where
  | assign | addAssign | subAssign
  | or | and
  | eq | ne
  | lt | le | gt | ge | isIn | instanceOf
  | shiftLeft
  | add | sub
  | mul | div | rem
  | index
deriving DecidableEq, Repr

namespace BinOp

def token : BinOp → String
  | assign => "="
  | addAssign => "+="
  | subAssign => "-="
  | or => "||"
  | and => "&&"
  | eq => "=="
  | ne => "!="
  | lt => "<"
  | le => "<="
  | gt => ">"
  | ge => ">="
  | isIn => "in"
  | instanceOf => "instanceof"
  | shiftLeft => "<<"
  | add => "+"
  | sub => "-"
  | mul => "*"
  | div => "/"
  | rem => "%"
  | index => "["

def isAssignment : BinOp → Bool
  | assign | addAssign | subAssign => true
  | _ => false

end BinOp

mutual

inductive Expr where
  | var (pos : Position) (name : String)
  | lit (pos : Position) (value : Literal)
  /-- `object.name` -/
  | member (pos : Position) (object : Expr) (name : String)
  /-- `name(args)` or `receiver.name(args)` -/
  | call (pos : Position) (receiver : Option Expr) (name : String) (args : List Expr)
  /-- `new type(args)` -/
  | construct (pos : Position) (type : String) (args : List Expr)
  /-- `value as type` -/
  | cast (pos : Position) (value : Expr) (type : String)
  | binary (pos : Position) (left : Expr) (op : BinOp) (right : Expr)
  | not (pos : Position) (operand : Expr)
  | negate (pos : Position) (operand : Expr)
  | list (pos : Position) (items : List Expr)
  /-- `*operand`, an argument that stands for several -/
  | spread (pos : Position) (operand : Expr)
  /-- `{ params -> body }` -/
  | closure (pos : Position) (params : List String) (body : Block)

structure Block where
  pos : Position
  statements : List Stmt

inductive Stmt where
  | eval (pos : Position) (value : Expr)
  /-- A declaration; without a type it is written `def`. -/
  | declare (pos : Position) (type : Option String) (name : String) (init : Option Expr)
  | branch (pos : Position) (cond : Expr) (body : Block) (otherwise : Option Block)
  | ret (pos : Position) (value : Option Expr)

end

namespace Expr

def pos : Expr → Position
  | var p .. | lit p .. | member p .. | call p .. | construct p .. | cast p .. | binary p ..
  | not p .. | negate p .. | list p .. | spread p .. | closure p .. => p

/-- The name, if the expression is nothing but a name. -/
def name? : Expr → Option String
  | var _ name => some name
  | _ => none

end Expr

namespace Stmt

def pos : Stmt → Position
  | eval p .. | declare p .. | branch p .. | ret p .. => p

def isBranch : Stmt → Bool
  | branch .. => true
  | _ => false

end Stmt

structure Field where
  pos : Position
  modifiers : List String
  type : Option String
  name : String
  init : Option Expr

structure Method where
  pos : Position
  modifiers : List String
  returnType : Option String
  name : String
  params : List String
  body : Block

structure ClassDecl where
  pos : Position
  modifiers : List String
  name : String
  superclass : Option String
  fields : List Field
  methods : List Method

inductive Item where
  | classDecl (decl : ClassDecl)
  | method (decl : Method)
  | statement (stmt : Stmt)

/-- A source file: declarations and statements in order. -/
structure Script where
  items : List Item

namespace Script

def classes (script : Script) : List ClassDecl :=
  script.items.filterMap fun
    | .classDecl decl => some decl
    | _ => none

end Script

end QueryBlocks
