import QueryBlocks.Script.Tree

/-!
The parts of a script, of whatever sort, as one tree. A path gives the number of the child to take
at each step, and two parts are equal if their heads are equal along every path.
-/
namespace QueryBlocks

inductive Part where
  | script (script : Script)
  | classDecl (decl : ClassDecl)
  | field (field : Field)
  | method (decl : Method)
  | block (block : Block)
  | stmt (stmt : Stmt)
  | expr (expr : Expr)

def Item.part : Item → Part
  | .classDecl c => .classDecl c
  | .method m => .method m
  | .statement s => .stmt s

def Expr.children : Expr → List Part
  | .var .. | .lit .. => []
  | .member _ e _ | .cast _ e _ | .not _ e | .negate _ e | .spread _ e => [.expr e]
  | .call _ receiver _ args => receiver.toList.map .expr ++ args.map .expr
  | .construct _ _ args | .list _ args => args.map .expr
  | .binary _ left _ right => [.expr left, .expr right]
  | .closure _ _ body => [.block body]

def Stmt.children : Stmt → List Part
  | .eval _ e => [.expr e]
  | .declare _ _ _ init => init.toList.map .expr
  | .branch _ cond body otherwise => .expr cond :: .block body :: otherwise.toList.map .block
  | .ret _ value => value.toList.map .expr

/-- What stands for the children in a head. -/
def Expr.blank : Expr := .lit default .null

def Block.blank : Block := ⟨default, []⟩

/-- An expression without its children. How many there are shows in the paths. -/
def Expr.head : Expr → Expr
  | .var p name => .var p name
  | .lit p value => .lit p value
  | .member p _ name => .member p .blank name
  | .call p receiver name _ => .call p (receiver.map fun _ => .blank) name []
  | .construct p type _ => .construct p type []
  | .cast p _ type => .cast p .blank type
  | .binary p _ op _ => .binary p .blank op .blank
  | .not p _ => .not p .blank
  | .negate p _ => .negate p .blank
  | .list p _ => .list p []
  | .spread p _ => .spread p .blank
  | .closure p params _ => .closure p params .blank

def Stmt.head : Stmt → Stmt
  | .eval p _ => .eval p .blank
  | .declare p type name _ => .declare p type name none
  | .branch p _ _ _ => .branch p .blank .blank none
  | .ret p _ => .ret p none

namespace Part

/-- What a part is made of, in the order in which it is visited. -/
def children : Part → List Part
  | script s => s.items.map Item.part
  | classDecl c => c.fields.map field ++ c.methods.map method
  | field f => f.init.toList.map expr
  | method m => [block m.body]
  | block b => b.statements.map stmt
  | stmt s => s.children
  | expr e => e.children

/-- What a part is apart from its children. -/
def head : Part → Part
  | script _ => script ⟨[]⟩
  | classDecl c => classDecl { c with fields := [], methods := [] }
  | field f => field { f with init := none }
  | method m => method { m with body := .blank }
  | block b => block ⟨b.pos, []⟩
  | stmt s => stmt s.head
  | expr e => expr e.head

/-- The part at a path. -/
def find (n : Part) : List Nat → Option Part
  | [] => some n
  | i :: path => n.children[i]?.bind (find · path)

variable {m n : Part}

@[simp] theorem find_nil : n.find [] = some n := rfl

theorem find_cons (i : Nat) (path : List Nat) :
    n.find (i :: path) = n.children[i]?.bind (find · path) := rfl

theorem find_append (path rest : List Nat) :
    n.find (path ++ rest) = (n.find path).bind (find · rest) := by
  induction path generalizing n with
  | nil => rfl
  | cons i path ih =>
    simp only [List.cons_append, find_cons]
    cases n.children[i]? with
    | none => rfl
    | some c => exact ih

theorem sizeOf_expr_child {e : Expr} {c : Part} (h : c ∈ e.children) : sizeOf c < 1 + sizeOf e := by
  cases e with
  | var | lit => cases h
  | member | cast | not | negate | spread | closure =>
    obtain rfl := List.mem_singleton.1 h
    simp only [expr.sizeOf_spec, block.sizeOf_spec, Expr.member.sizeOf_spec, Expr.cast.sizeOf_spec,
      Expr.not.sizeOf_spec, Expr.negate.sizeOf_spec, Expr.spread.sizeOf_spec,
      Expr.closure.sizeOf_spec]
    omega
  | binary p left op right =>
    simp only [Expr.children, List.mem_cons, List.not_mem_nil, or_false] at h
    rcases h with rfl | rfl
    all_goals
      simp only [expr.sizeOf_spec, Expr.binary.sizeOf_spec]
      omega
  | call p receiver name args =>
    simp only [Expr.children, List.mem_append, List.mem_map, Option.mem_toList] at h
    rcases h with ⟨e, rfl, rfl⟩ | ⟨e, he, rfl⟩
    · simp only [expr.sizeOf_spec, Expr.call.sizeOf_spec, Option.some.sizeOf_spec]
      omega
    · have := List.sizeOf_lt_of_mem he
      simp only [expr.sizeOf_spec, Expr.call.sizeOf_spec]
      omega
  | construct | list =>
    obtain ⟨e, he, rfl⟩ := List.mem_map.1 h
    have := List.sizeOf_lt_of_mem he
    simp only [expr.sizeOf_spec, Expr.construct.sizeOf_spec, Expr.list.sizeOf_spec]
    omega

theorem sizeOf_stmt_child {s : Stmt} {c : Part} (h : c ∈ s.children) : sizeOf c < 1 + sizeOf s := by
  cases s with
  | eval p e =>
    obtain rfl := List.mem_singleton.1 h
    simp only [expr.sizeOf_spec, Stmt.eval.sizeOf_spec]
    omega
  | declare | ret =>
    simp only [Stmt.children, List.mem_map, Option.mem_toList] at h
    obtain ⟨e, rfl, rfl⟩ := h
    simp only [expr.sizeOf_spec, Stmt.declare.sizeOf_spec, Stmt.ret.sizeOf_spec,
      Option.some.sizeOf_spec]
    omega
  | branch p cond body otherwise =>
    simp only [Stmt.children, List.mem_cons, List.mem_map, Option.mem_toList] at h
    rcases h with rfl | rfl | ⟨b, rfl, rfl⟩
    all_goals
      simp only [expr.sizeOf_spec, block.sizeOf_spec, Stmt.branch.sizeOf_spec,
        Option.some.sizeOf_spec]
      omega

theorem sizeOf_child {c : Part} (h : c ∈ n.children) : sizeOf c < sizeOf n := by
  cases n with
  | expr e =>
    rw [expr.sizeOf_spec]
    exact sizeOf_expr_child h
  | stmt s =>
    rw [stmt.sizeOf_spec]
    exact sizeOf_stmt_child h
  | block b =>
    obtain ⟨s, hs, rfl⟩ := List.mem_map.1 h
    have := List.sizeOf_lt_of_mem hs
    cases b
    simp only [stmt.sizeOf_spec, block.sizeOf_spec, Block.mk.sizeOf_spec] at this ⊢
    omega
  | method m =>
    obtain rfl := List.mem_singleton.1 h
    cases m
    simp only [block.sizeOf_spec, method.sizeOf_spec, Method.mk.sizeOf_spec]
    omega
  | field f =>
    obtain ⟨e, he, rfl⟩ := List.mem_map.1 h
    rw [Option.mem_toList] at he
    cases f
    dsimp only at he
    simp only [he, expr.sizeOf_spec, field.sizeOf_spec, Field.mk.sizeOf_spec,
      Option.some.sizeOf_spec]
    omega
  | classDecl c =>
    cases c
    rcases List.mem_append.1 h with h | h
    all_goals
      obtain ⟨x, hx, rfl⟩ := List.mem_map.1 h
      have := List.sizeOf_lt_of_mem hx
      simp only [field.sizeOf_spec, method.sizeOf_spec, classDecl.sizeOf_spec,
        ClassDecl.mk.sizeOf_spec] at this ⊢
      omega
  | script s =>
    obtain ⟨item, hitem, rfl⟩ := List.mem_map.1 h
    have := List.sizeOf_lt_of_mem hitem
    cases s
    cases item
    all_goals
      simp only [Item.part, classDecl.sizeOf_spec, method.sizeOf_spec, stmt.sizeOf_spec,
        script.sizeOf_spec, Script.mk.sizeOf_spec, Item.classDecl.sizeOf_spec,
        Item.method.sizeOf_spec, Item.statement.sizeOf_spec] at this ⊢
      omega

/-- What holds of a part if it holds of its children holds of all parts. -/
theorem induct {P : Part → Prop} (step : ∀ n, (∀ c ∈ n.children, P c) → P n) (n : Part) : P n :=
  step n fun c _ => induct step c
termination_by sizeOf n
decreasing_by exact sizeOf_child ‹_›

theorem part_injective : Function.Injective Item.part := by
  intro a b h
  cases a <;> cases b <;> simp_all [Item.part]

theorem eq_of_toList_map {α : Type} {f : α → Part} (hf : Function.Injective f) {a b : Option α}
    (h : a.toList.map f = b.toList.map f) : a = b := by
  cases a <;> cases b <;> simp_all [hf.eq_iff]

theorem fields_methods_inj {fs gs : List Field} {ms ns : List Method}
    (h : fs.map field ++ ms.map method = gs.map field ++ ns.map method) : fs = gs ∧ ms = ns := by
  induction fs generalizing gs with
  | nil =>
    cases gs with
    | nil => exact ⟨rfl, (List.map_inj_right (fun _ _ => method.inj)).1 h⟩
    | cons g gs => cases ms <;> simp at h
  | cons f fs ih =>
    cases gs with
    | nil => cases ns <;> simp at h
    | cons g gs =>
      simp only [List.map_cons, List.cons_append, List.cons.injEq, field.injEq] at h
      obtain ⟨rfl, rfl⟩ := ih h.2
      exact ⟨by rw [h.1], rfl⟩

theorem expr_ext {a b : Expr} (hhead : a.head = b.head) (hchildren : a.children = b.children) :
    a = b := by
  have hinj : Function.Injective expr := fun _ _ => expr.inj
  cases a with
  | call p receiver name args =>
    cases b <;> simp only [Expr.head, reduceCtorEq, Expr.call.injEq] at hhead
    rename_i other _ _
    -- the receiver comes before the arguments, so it has to be there on both sides or on none
    cases receiver <;> cases other <;> simp_all [Expr.children, List.map_inj_right hinj]
  | _ => cases b <;> simp_all [Expr.head, Expr.children, List.map_inj_right hinj]

theorem stmt_ext {a b : Stmt} (hhead : a.head = b.head) (hchildren : a.children = b.children) :
    a = b := by
  have hexpr : Function.Injective expr := fun _ _ => expr.inj
  have hblock : Function.Injective block := fun _ _ => block.inj
  cases a <;> cases b <;> simp_all [Stmt.head, Stmt.children]
  · exact eq_of_toList_map hexpr hchildren
  · exact eq_of_toList_map hblock hchildren.2.2
  · exact eq_of_toList_map hexpr hchildren

theorem ext_children (hhead : m.head = n.head) (hchildren : m.children = n.children) : m = n := by
  cases m with
  | expr a =>
    cases n <;> simp only [head, reduceCtorEq, expr.injEq] at hhead
    rw [expr_ext hhead hchildren]
  | stmt a =>
    cases n <;> simp only [head, reduceCtorEq, stmt.injEq] at hhead
    rw [stmt_ext hhead hchildren]
  | block a =>
    cases n <;> simp only [head, reduceCtorEq, block.injEq] at hhead
    rename_i b
    cases a
    cases b
    simp_all [children, List.map_inj_right (fun _ _ => stmt.inj)]
  | method a =>
    cases n <;> simp only [head, reduceCtorEq, method.injEq] at hhead
    rename_i b
    cases a
    cases b
    simp_all [children]
  | field a =>
    cases n <;> simp only [head, reduceCtorEq, field.injEq] at hhead
    rename_i b
    have hinit : a.init = b.init := eq_of_toList_map (fun _ _ => expr.inj) hchildren
    cases a
    cases b
    simp_all
  | classDecl a =>
    cases n <;> simp only [head, reduceCtorEq, classDecl.injEq] at hhead
    rename_i b
    obtain ⟨hfields, hmethods⟩ := fields_methods_inj hchildren
    cases a
    cases b
    simp_all
  | script a =>
    cases n <;> simp only [head, reduceCtorEq] at hhead
    rename_i b
    cases a
    cases b
    simpa [children, List.map_inj_right part_injective] using hchildren

/-- Nodes that agree in the heads along every path are equal. -/
theorem ext_find (h : ∀ path, (m.find path).map head = (n.find path).map head) : m = n := by
  induction m using induct generalizing n with
  | step m ih =>
    refine ext_children (by simpa using h []) (List.ext_getElem? fun i => ?_)
    have hchild (path : List Nat) :
        (m.children[i]?.bind (find · path)).map head =
          (n.children[i]?.bind (find · path)).map head := h (i :: path)
    cases hm : m.children[i]? with
    | none =>
      have := hchild []
      cases hn : n.children[i]? <;> simp_all
    | some c =>
      cases hn : n.children[i]? with
      | none =>
        have := hchild []
        simp_all
      | some d =>
        rw [ih c (List.mem_of_getElem? hm) fun path => by simpa [hm, hn] using hchild path]

/-- The place of a part. A whole script has none. -/
def pos? : Part → Option Position
  | script _ => none
  | classDecl c => some c.pos
  | field f => some f.pos
  | method m => some m.pos
  | block b => some b.pos
  | stmt s => some s.pos
  | expr e => some e.pos

/-- The place is that of the part or of one inside it. -/
def Holds (n : Part) (p : Position) : Prop := ∃ path m, n.find path = some m ∧ m.pos? = some p

theorem Holds.self {p : Position} (h : n.pos? = some p) : n.Holds p := ⟨[], n, rfl, h⟩

theorem Holds.of_child {p : Position} {c : Part} (h : c.Holds p) (hc : c ∈ n.children) :
    n.Holds p := by
  obtain ⟨path, m, hm, hp⟩ := h
  obtain ⟨i, hi⟩ := List.mem_iff_getElem?.mp hc
  exact ⟨i :: path, m, by rw [find_cons, hi]; exact hm, hp⟩

end Part

end QueryBlocks
