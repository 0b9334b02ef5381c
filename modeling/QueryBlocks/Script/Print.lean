import QueryBlocks.Script.Tree
import QueryBlocks.Text.Quoted

/-!
Writing trees as text. Parentheses stand only where an operand binds less tightly than its place
asks for. Comments and the layout of the text that was read are not kept.
-/
namespace QueryBlocks

/-- How tightly an operator binds, from assignment at 1 to indexing at 11. -/
def BinOp.strength : BinOp → Nat
  | assign | addAssign | subAssign => 1
  | or => 2
  | and => 3
  | eq | ne => 4
  | lt | le | gt | ge | isIn | instanceOf => 5
  | shiftLeft => 6
  | add | sub => 7
  | mul | div | rem => 8
  | index => 11

namespace Literal

def text : Literal → String
  | null => "null"
  | bool true => "true"
  | bool false => "false"
  | int n => toString n
  | decimal text => text
  | string s => Text.quote s

/-- Whether the written number begins with a minus. -/
def isSigned : Literal → Bool
  | int n => n < 0
  | decimal text => text.toList.head? == some '-'
  | _ => false

end Literal

namespace Expr

/-- A cast would take a following `.name` into its type, so it binds less tightly than a member. -/
def strength : Expr → Nat
  | binary _ _ op _ => op.strength
  | not .. | negate .. | spread .. => 9
  | lit _ value => if value.isSigned then 9 else 12
  | cast .. => 10
  | member .. | call _ (some _) .. => 11
  | _ => 12

def isClosure : Expr → Bool
  | closure .. => true
  | _ => false

end Expr

namespace Print

def indent (depth : Nat) : String := String.ofList (List.replicate (2 * depth) ' ')

/-- Lines in braces; the closing brace has a line of its own. -/
def braced (depth : Nat) (lines : String) : String := "\x7b\n" ++ lines ++ indent depth ++ "\x7d"

/-- The text of `e`, in parentheses if `e` binds less tightly than `least`. -/
def operand (least : Nat) (e : Expr) (text : String) : String :=
  if e.strength < least then "(" ++ text ++ ")" else text

/-- The call arguments `args`, whose texts are given. A closure in the last place is written
behind the parentheses, which are left out if nothing else is in them. -/
def arguments (args : List Expr) (texts : List String) : String :=
  if args.getLast?.any Expr.isClosure then
    let others := texts.dropLast
    (if others.isEmpty then "" else "(" ++ ", ".intercalate others ++ ")") ++
      " " ++ texts.getLastD ""
  else "(" ++ ", ".intercalate texts ++ ")"

mutual

/-- The text of an expression that begins on a line indented by `depth`. -/
def expr (depth : Nat) : Expr → String
  | .var _ name => name
  | .lit _ value => value.text
  | .member _ object name => operand 11 object (expr depth object) ++ "." ++ name
  | .call _ none name args => name ++ arguments args (exprs depth args)
  | .call _ (some receiver) name args =>
    operand 11 receiver (expr depth receiver) ++ "." ++ name ++ arguments args (exprs depth args)
  | .construct _ type args => "new " ++ type ++ "(" ++ ", ".intercalate (exprs depth args) ++ ")"
  | .cast _ value type => operand 10 value (expr depth value) ++ " as " ++ type
  | .binary _ left op right =>
    if op = .index then operand 11 left (expr depth left) ++ "[" ++ expr depth right ++ "]"
    else
      let (atLeft, atRight) :=
        if op.isAssignment then (op.strength + 1, op.strength)
        else (op.strength, op.strength + 1)
      operand atLeft left (expr depth left) ++ " " ++ op.token ++ " " ++
        operand atRight right (expr depth right)
  | .not _ e => "!" ++ operand 9 e (expr depth e)
  | .negate _ e => "-" ++ operand 9 e (expr depth e)
  | .list _ items => "[" ++ ", ".intercalate (exprs depth items) ++ "]"
  | .spread _ e => "*" ++ operand 9 e (expr depth e)
  | .closure _ params ⟨_, statements⟩ =>
    "\x7b" ++ (if params.isEmpty then "" else " " ++ ", ".intercalate params ++ " ->") ++
      if statements.isEmpty then " \x7d"
      else "\n" ++ stmts (depth + 1) statements ++ indent depth ++ "\x7d"

def exprs (depth : Nat) : List Expr → List String
  | [] => []
  | e :: more => expr depth e :: exprs depth more

/-- Statements on lines of their own. -/
def stmts (depth : Nat) : List Stmt → String
  | [] => ""
  | s :: more => indent depth ++ stmt depth s ++ "\n" ++ stmts depth more

/-- A statement without the indentation of its first line and without its line end. -/
def stmt (depth : Nat) : Stmt → String
  | .eval _ e => expr depth e
  | .declare _ type name none => type.getD "def" ++ " " ++ name
  | .declare _ type name (some e) => type.getD "def" ++ " " ++ name ++ " = " ++ expr depth e
  | .branch _ cond ⟨_, body⟩ none =>
    "if (" ++ expr depth cond ++ ") " ++ braced depth (stmts (depth + 1) body)
  | .branch _ cond ⟨_, body⟩ (some ⟨_, other⟩) =>
    "if (" ++ expr depth cond ++ ") " ++ braced depth (stmts (depth + 1) body) ++ " else " ++
      match other with
      | [s] => if s.isBranch then stmt depth s else braced depth (stmts (depth + 1) [s])
      | other => braced depth (stmts (depth + 1) other)
  | .ret _ none => "return"
  | .ret _ (some e) => "return " ++ expr depth e

end

def modifiers (words : List String) : String := String.join (words.map (· ++ " "))

def field (depth : Nat) (f : Field) : String :=
  indent depth ++ modifiers f.modifiers ++ f.type.getD "def" ++ " " ++ f.name ++
    (match f.init with
      | some e => " = " ++ expr depth e
      | none => "") ++ "\n"

def method (depth : Nat) (m : Method) : String :=
  indent depth ++ modifiers m.modifiers ++ m.returnType.getD "def" ++ " " ++ m.name ++
    "(" ++ ", ".intercalate m.params ++ ") " ++ braced depth (stmts (depth + 1) m.body.statements) ++
    "\n"

/-- Methods, with an empty line before each but a first one. -/
def methods (depth : Nat) (first : Bool) : List Method → String
  | [] => ""
  | m :: more => (if first then "" else "\n") ++ method depth m ++ methods depth false more

def classDecl (c : ClassDecl) : String :=
  modifiers c.modifiers ++ "class " ++ c.name ++
    (match c.superclass with
      | some type => " extends " ++ type
      | none => "") ++
    " " ++
    braced 0 (String.join (c.fields.map (field 1)) ++ methods 1 c.fields.isEmpty c.methods) ++
    "\n"

def item : Item → String
  | .classDecl c => classDecl c
  | .method m => method 0 m
  | .statement s => stmt 0 s ++ "\n"

def isDeclaration : Item → Bool
  | .statement _ => false
  | _ => true

/-- Items in order, with an empty line around every declaration. -/
def items : List Item → String
  | [] => ""
  | [last] => item last
  | first :: next :: more =>
    item first ++ (if isDeclaration first || isDeclaration next then "\n" else "") ++
      items (next :: more)

end Print

def Expr.text (e : Expr) : String := Print.expr 0 e

def Block.text (b : Block) : String := Print.stmts 0 b.statements

def Script.text (s : Script) : String := Print.items s.items

end QueryBlocks
