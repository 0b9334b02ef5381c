import QueryBlocks.Script.Tree
import QueryBlocks.Settings

/-!
The sites of query blocks: calls of an entry method of a store with a closure as only argument.
Nothing inside a site is searched for further sites.
-/
namespace QueryBlocks

structure Site where
  pos : Position
  receiver : String
  method : String
  params : List String
  body : Block

namespace Site

/-- The site that a call is, if it is one. -/
def ofCall? (settings : Settings) (pos : Position) (receiver : Option Expr) (method : String)
    (args : List Expr) : Option Site :=
  match receiver, args with
  | some (.var _ store), [.closure _ params body] =>
    if settings.receivers.contains store && settings.methods.contains method then
      some ⟨pos, store, method, params, body⟩
    else none
  | _, _ => none

/-- Put a block in the place of a closure's body. -/
def refill (body : Block) : Expr → Expr
  | .closure pos params _ => .closure pos params body
  | e => e

end Site

/-- What to do at a site: the new body, and what there is to say about it. -/
abbrev SiteAction (ω : Type) := Site → Block × List ω

variable {ω : Type} (settings : Settings) (act : SiteAction ω)

mutual

/-- Act on every site, in the order of the text. -/
def Expr.atSites : Expr → Expr × List ω
  | .var p name => (.var p name, [])
  | .lit p value => (.lit p value, [])
  | .member p object name =>
    let (object, said) := object.atSites
    (.member p object name, said)
  | .call p none name args =>
    let (args, said) := Expr.allAtSites args
    (.call p none name args, said)
  | .call p (some receiver) name args =>
    match Site.ofCall? settings p (some receiver) name args with
    | some site =>
      let (body, said) := act site
      (.call p (some receiver) name (args.map (Site.refill body)), said)
    | none =>
      let (receiver, first) := receiver.atSites
      let (args, second) := Expr.allAtSites args
      (.call p (some receiver) name args, first ++ second)
  | .construct p type args =>
    let (args, said) := Expr.allAtSites args
    (.construct p type args, said)
  | .cast p value type =>
    let (value, said) := value.atSites
    (.cast p value type, said)
  | .binary p left op right =>
    let (left, first) := left.atSites
    let (right, second) := right.atSites
    (.binary p left op right, first ++ second)
  | .not p e =>
    let (e, said) := e.atSites
    (.not p e, said)
  | .negate p e =>
    let (e, said) := e.atSites
    (.negate p e, said)
  | .list p items =>
    let (items, said) := Expr.allAtSites items
    (.list p items, said)
  | .spread p e =>
    let (e, said) := e.atSites
    (.spread p e, said)
  | .closure p params body =>
    let (body, said) := body.atSites
    (.closure p params body, said)

def Expr.allAtSites : List Expr → List Expr × List ω
  | [] => ([], [])
  | e :: more =>
    let (e, first) := e.atSites
    let (more, second) := Expr.allAtSites more
    (e :: more, first ++ second)

def Block.atSites : Block → Block × List ω
  | ⟨p, statements⟩ =>
    let (statements, said) := Stmt.allAtSites statements
    (⟨p, statements⟩, said)

def Stmt.allAtSites : List Stmt → List Stmt × List ω
  | [] => ([], [])
  | s :: more =>
    let (s, first) := s.atSites
    let (more, second) := Stmt.allAtSites more
    (s :: more, first ++ second)

def Stmt.atSites : Stmt → Stmt × List ω
  | .eval p e =>
    let (e, said) := e.atSites
    (.eval p e, said)
  | .declare p type name none => (.declare p type name none, [])
  | .declare p type name (some e) =>
    let (e, said) := e.atSites
    (.declare p type name (some e), said)
  | .branch p cond body none =>
    let (cond, first) := cond.atSites
    let (body, second) := body.atSites
    (.branch p cond body none, first ++ second)
  | .branch p cond body (some other) =>
    let (cond, first) := cond.atSites
    let (body, second) := body.atSites
    let (other, third) := other.atSites
    (.branch p cond body (some other), first ++ second ++ third)
  | .ret p none => (.ret p none, [])
  | .ret p (some e) =>
    let (e, said) := e.atSites
    (.ret p (some e), said)

end

def Field.atSites (f : Field) : Field × List ω :=
  match f.init with
  | some e =>
    let (e, said) := e.atSites settings act
    ({ f with init := some e }, said)
  | none => (f, [])

/-- Methods that are to be skipped have no sites. -/
def Method.atSites (m : Method) : Method × List ω :=
  if settings.skipMethods.contains m.name then (m, [])
  else
    let (body, said) := m.body.atSites settings act
    ({ m with body }, said)

/-- Collect what is said about the parts of a list. -/
def atEach {α : Type} (f : α → α × List ω) (parts : List α) : List α × List ω :=
  ((parts.map f).map (·.1), (parts.map f).flatMap (·.2))

def ClassDecl.atSites (c : ClassDecl) : ClassDecl × List ω :=
  let (fields, first) := atEach (Field.atSites settings act) c.fields
  let (methods, second) := atEach (Method.atSites settings act) c.methods
  ({ c with fields, methods }, first ++ second)

def Item.atSites : Item → Item × List ω
  | .classDecl c =>
    let (c, said) := c.atSites settings act
    (.classDecl c, said)
  | .method m =>
    let (m, said) := m.atSites settings act
    (.method m, said)
  | .statement s =>
    let (s, said) := s.atSites settings act
    (.statement s, said)

def Script.atSites (s : Script) : Script × List ω :=
  let (items, said) := atEach (Item.atSites settings act) s.items
  (⟨items⟩, said)

end QueryBlocks
