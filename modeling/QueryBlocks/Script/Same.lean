import QueryBlocks.Script.Tree

/-!
Renaming and moving the nodes of a tree, and comparing trees without regard to places.
-/
namespace QueryBlocks

variable (place : Position → Position) (rename : String → String)

mutual

/-- Change every place by `place` and every variable's name by `rename`. -/
def Expr.map : Expr → Expr
  | .var p name => .var (place p) (rename name)
  | .lit p value => .lit (place p) value
  | .member p object name => .member (place p) object.map name
  | .call p none name args => .call (place p) none name (Expr.mapAll args)
  | .call p (some receiver) name args =>
    .call (place p) (some receiver.map) name (Expr.mapAll args)
  | .construct p type args => .construct (place p) type (Expr.mapAll args)
  | .cast p value type => .cast (place p) value.map type
  | .binary p left op right => .binary (place p) left.map op right.map
  | .not p e => .not (place p) e.map
  | .negate p e => .negate (place p) e.map
  | .list p items => .list (place p) (Expr.mapAll items)
  | .spread p e => .spread (place p) e.map
  | .closure p params body => .closure (place p) params body.map

def Expr.mapAll : List Expr → List Expr
  | [] => []
  | e :: more => e.map :: Expr.mapAll more

def Block.map : Block → Block
  | ⟨p, statements⟩ => ⟨place p, Stmt.mapAll statements⟩

def Stmt.mapAll : List Stmt → List Stmt
  | [] => []
  | s :: more => s.map :: Stmt.mapAll more

def Stmt.map : Stmt → Stmt
  | .eval p e => .eval (place p) e.map
  | .declare p type name none => .declare (place p) type name none
  | .declare p type name (some e) => .declare (place p) type name (some e.map)
  | .branch p cond body none => .branch (place p) cond.map body.map none
  | .branch p cond body (some other) => .branch (place p) cond.map body.map (some other.map)
  | .ret p none => .ret (place p) none
  | .ret p (some e) => .ret (place p) (some e.map)

end

def Field.map (f : Field) : Field :=
  { f with pos := place f.pos, init := f.init.map (Expr.map place rename) }

def Method.map (m : Method) : Method :=
  { m with pos := place m.pos, body := m.body.map place rename }

def ClassDecl.map (c : ClassDecl) : ClassDecl :=
  { c with
    pos := place c.pos
    fields := c.fields.map (Field.map place rename)
    methods := c.methods.map (Method.map place rename) }

def Item.map : Item → Item
  | .classDecl c => .classDecl (c.map place rename)
  | .method m => .method (m.map place rename)
  | .statement s => .statement (s.map place rename)

def Script.map (s : Script) : Script := ⟨s.items.map (Item.map place rename)⟩

mutual

/-- Whether two expressions differ in places at most. -/
def Expr.same : Expr → Expr → Bool
  | .var _ a, .var _ b => a == b
  | .lit _ a, .lit _ b => a == b
  | .member _ a m, .member _ b n => a.same b && m == n
  | .call _ none m as, .call _ none n bs => m == n && Expr.sameAll as bs
  | .call _ (some a) m as, .call _ (some b) n bs => a.same b && m == n && Expr.sameAll as bs
  | .construct _ t as, .construct _ u bs => t == u && Expr.sameAll as bs
  | .cast _ a t, .cast _ b u => a.same b && t == u
  | .binary _ a op b, .binary _ c oq d => a.same c && op == oq && b.same d
  | .not _ a, .not _ b => a.same b
  | .negate _ a, .negate _ b => a.same b
  | .list _ as, .list _ bs => Expr.sameAll as bs
  | .spread _ a, .spread _ b => a.same b
  | .closure _ ps a, .closure _ qs b => ps == qs && a.same b
  | _, _ => false

def Expr.sameAll : List Expr → List Expr → Bool
  | [], [] => true
  | a :: as, b :: bs => a.same b && Expr.sameAll as bs
  | _, _ => false

def Block.same : Block → Block → Bool
  | ⟨_, as⟩, ⟨_, bs⟩ => Stmt.sameAll as bs

def Stmt.sameAll : List Stmt → List Stmt → Bool
  | [], [] => true
  | a :: as, b :: bs => a.same b && Stmt.sameAll as bs
  | _, _ => false

def Stmt.same : Stmt → Stmt → Bool
  | .eval _ a, .eval _ b => a.same b
  | .declare _ t m none, .declare _ u n none => t == u && m == n
  | .declare _ t m (some a), .declare _ u n (some b) => t == u && m == n && a.same b
  | .branch _ a b none, .branch _ c d none => a.same c && b.same d
  | .branch _ a b (some o), .branch _ c d (some q) => a.same c && b.same d && o.same q
  | .ret _ none, .ret _ none => true
  | .ret _ (some a), .ret _ (some b) => a.same b
  | _, _ => false

end

/-- Compare two lists item by item. -/
def sameLists {α : Type} (same : α → α → Bool) (as bs : List α) : Bool :=
  as.length == bs.length && (as.zip bs).all fun (a, b) => same a b

def Field.same (a b : Field) : Bool :=
  a.modifiers == b.modifiers && a.type == b.type && a.name == b.name &&
    sameLists Expr.same a.init.toList b.init.toList

def Method.same (a b : Method) : Bool :=
  a.modifiers == b.modifiers && a.returnType == b.returnType && a.name == b.name &&
    a.params == b.params && a.body.same b.body

def ClassDecl.same (a b : ClassDecl) : Bool :=
  a.modifiers == b.modifiers && a.name == b.name && a.superclass == b.superclass &&
    sameLists Field.same a.fields b.fields && sameLists Method.same a.methods b.methods

def Item.same : Item → Item → Bool
  | .classDecl a, .classDecl b => a.same b
  | .method a, .method b => a.same b
  | .statement a, .statement b => a.same b
  | _, _ => false

def Script.same (a b : Script) : Bool := sameLists Item.same a.items b.items

end QueryBlocks
