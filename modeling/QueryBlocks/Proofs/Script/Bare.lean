import QueryBlocks.Script.Same

/-! Trees without places. Two trees with the same bare tree differ in places at most. -/
namespace QueryBlocks

/-- Forget a place. -/
def Position.forget (_ : Position) : Position := ⟨0, 0⟩

def Expr.bare (e : Expr) : Expr := e.map .forget id

def Block.bare (b : Block) : Block := b.map .forget id

def Stmt.bare (s : Stmt) : Stmt := s.map .forget id

def Field.bare (f : Field) : Field := f.map .forget id

def Method.bare (m : Method) : Method := m.map .forget id

def ClassDecl.bare (c : ClassDecl) : ClassDecl := c.map .forget id

def Item.bare (i : Item) : Item := i.map .forget id

def Script.bare (s : Script) : Script := s.map .forget id

variable {place : Position → Position} {rename : String → String}

theorem Expr.mapAll_eq_map (es : List Expr) :
    Expr.mapAll place rename es = es.map (Expr.map place rename) := by
  induction es with
  | nil => rfl
  | cons e more ih => rw [Expr.mapAll, ih, List.map_cons]

theorem Stmt.mapAll_eq_map (ss : List Stmt) :
    Stmt.mapAll place rename ss = ss.map (Stmt.map place rename) := by
  induction ss with
  | nil => rfl
  | cons s more ih => rw [Stmt.mapAll, ih, List.map_cons]

section moved

variable {p : Position} {e : Expr} {es : List Expr} {ss : List Stmt} {b : Block}
  {name type : String}

theorem Expr.map_call {receiver : Option Expr} :
    (Expr.call p receiver name es).map place rename =
      .call (place p) (receiver.map (Expr.map place rename)) name
        (es.map (Expr.map place rename)) := by
  cases receiver <;> rw [Expr.map, Expr.mapAll_eq_map] <;> rfl

theorem Expr.map_construct : (Expr.construct p type es).map place rename =
    .construct (place p) type (es.map (Expr.map place rename)) := by
  rw [Expr.map, Expr.mapAll_eq_map]

theorem Expr.map_list : (Expr.list p es).map place rename =
    .list (place p) (es.map (Expr.map place rename)) := by
  rw [Expr.map, Expr.mapAll_eq_map]

theorem Block.map_mk : (Block.mk p ss).map place rename =
    ⟨place p, ss.map (Stmt.map place rename)⟩ := by
  rw [Block.map, Stmt.mapAll_eq_map]

theorem Stmt.map_declare {declared : Option String} {init : Option Expr} :
    (Stmt.declare p declared name init).map place rename =
      .declare (place p) declared name (init.map (Expr.map place rename)) := by
  cases init <;> rfl

theorem Stmt.map_branch {other : Option Block} :
    (Stmt.branch p e b other).map place rename =
      .branch (place p) (e.map place rename) (b.map place rename)
        (other.map (Block.map place rename)) := by
  cases other <;> rfl

theorem Stmt.map_ret {value : Option Expr} :
    (Stmt.ret p value).map place rename =
      .ret (place p) (value.map (Expr.map place rename)) := by
  cases value <;> rfl

theorem Expr.pos_map : (e.map place rename).pos = place e.pos := by
  cases e with
  | call _ receiver => cases receiver <;> rfl
  | _ => rfl

end moved

section equations

variable {p : Position} {e left right : Expr} {es : List Expr} {s : Stmt} {ss : List Stmt}
  {b : Block} {name type : String} {names : List String} {value : Literal} {op : BinOp}

@[simp] theorem Position.forget_eq : p.forget = ⟨0, 0⟩ := rfl

@[simp] theorem Expr.bare_var : (Expr.var p name).bare = .var ⟨0, 0⟩ name := rfl

@[simp] theorem Expr.bare_lit : (Expr.lit p value).bare = .lit ⟨0, 0⟩ value := rfl

@[simp] theorem Expr.bare_member :
    (Expr.member p e name).bare = .member ⟨0, 0⟩ e.bare name := rfl

@[simp] theorem Expr.bare_call {receiver : Option Expr} :
    (Expr.call p receiver name es).bare =
      .call ⟨0, 0⟩ (receiver.map Expr.bare) name (es.map Expr.bare) := Expr.map_call

@[simp] theorem Expr.bare_construct :
    (Expr.construct p type es).bare = .construct ⟨0, 0⟩ type (es.map Expr.bare) :=
  Expr.map_construct

@[simp] theorem Expr.bare_cast :
    (Expr.cast p e type).bare = .cast ⟨0, 0⟩ e.bare type := rfl

@[simp] theorem Expr.bare_binary :
    (Expr.binary p left op right).bare = .binary ⟨0, 0⟩ left.bare op right.bare := rfl

@[simp] theorem Expr.bare_not : (Expr.not p e).bare = .not ⟨0, 0⟩ e.bare := rfl

@[simp] theorem Expr.bare_negate : (Expr.negate p e).bare = .negate ⟨0, 0⟩ e.bare := rfl

@[simp] theorem Expr.bare_list :
    (Expr.list p es).bare = .list ⟨0, 0⟩ (es.map Expr.bare) := Expr.map_list

@[simp] theorem Expr.bare_spread : (Expr.spread p e).bare = .spread ⟨0, 0⟩ e.bare := rfl

@[simp] theorem Expr.bare_closure :
    (Expr.closure p names b).bare = .closure ⟨0, 0⟩ names b.bare := rfl

@[simp] theorem Block.bare_mk : (Block.mk p ss).bare = ⟨⟨0, 0⟩, ss.map Stmt.bare⟩ :=
  Block.map_mk

@[simp] theorem Stmt.bare_eval : (Stmt.eval p e).bare = .eval ⟨0, 0⟩ e.bare := rfl

@[simp] theorem Stmt.bare_declare {type : Option String} {init : Option Expr} :
    (Stmt.declare p type name init).bare =
      .declare ⟨0, 0⟩ type name (init.map Expr.bare) := Stmt.map_declare

@[simp] theorem Stmt.bare_branch {other : Option Block} :
    (Stmt.branch p e b other).bare =
      .branch ⟨0, 0⟩ e.bare b.bare (other.map Block.bare) := Stmt.map_branch

@[simp] theorem Stmt.bare_ret {value : Option Expr} :
    (Stmt.ret p value).bare = .ret ⟨0, 0⟩ (value.map Expr.bare) := Stmt.map_ret

@[simp] theorem Expr.pos_bare : e.bare.pos = ⟨0, 0⟩ := Expr.pos_map

end equations

section same

-- Off the diagonal the constructors of the bare trees differ; on it their parts are compared.
mutual

theorem Expr.same_of_bare_eq : ∀ {a b : Expr}, a.bare = b.bare → a.same b = true
  | .var .., b, h => by
    cases b <;> simp at h
    simp [Expr.same, h]
  | .lit .., b, h => by
    cases b <;> simp at h
    simp [Expr.same, h]
  | .member _ e _, b, h => by
    cases b <;> simp at h
    simp [Expr.same, h.2, Expr.same_of_bare_eq h.1]
  | .call _ none _ es, b, h => by
    cases b with
    | call _ receiver =>
      cases receiver <;> simp at h
      simp [Expr.same, h.1, Expr.sameAll_of_bare_eq h.2]
    | _ => simp at h
  | .call _ (some e) _ es, b, h => by
    cases b with
    | call _ receiver =>
      cases receiver <;> simp at h
      simp [Expr.same, h.2.1, Expr.same_of_bare_eq h.1, Expr.sameAll_of_bare_eq h.2.2]
    | _ => simp at h
  | .construct _ _ es, b, h => by
    cases b <;> simp at h
    simp [Expr.same, h.1, Expr.sameAll_of_bare_eq h.2]
  | .cast _ e _, b, h => by
    cases b <;> simp at h
    simp [Expr.same, h.2, Expr.same_of_bare_eq h.1]
  | .binary _ l _ r, b, h => by
    cases b <;> simp at h
    simp [Expr.same, h.2.1, Expr.same_of_bare_eq h.1, Expr.same_of_bare_eq h.2.2]
  | .not _ e, b, h => by
    cases b <;> simp at h
    simp [Expr.same, Expr.same_of_bare_eq h]
  | .negate _ e, b, h => by
    cases b <;> simp at h
    simp [Expr.same, Expr.same_of_bare_eq h]
  | .list _ es, b, h => by
    cases b <;> simp at h
    simp [Expr.same, Expr.sameAll_of_bare_eq h]
  | .spread _ e, b, h => by
    cases b <;> simp at h
    simp [Expr.same, Expr.same_of_bare_eq h]
  | .closure _ _ body, b, h => by
    cases b <;> simp at h
    simp [Expr.same, h.1, Block.same_of_bare_eq h.2]

theorem Expr.sameAll_of_bare_eq :
    ∀ {as bs : List Expr}, as.map Expr.bare = bs.map Expr.bare → Expr.sameAll as bs = true
  | [], bs, h => by
    cases bs <;> simp at h
    simp [Expr.sameAll]
  | a :: as, bs, h => by
    cases bs <;> simp at h
    simp [Expr.sameAll, Expr.same_of_bare_eq h.1, Expr.sameAll_of_bare_eq h.2]

theorem Block.same_of_bare_eq : ∀ {a b : Block}, a.bare = b.bare → a.same b = true
  | ⟨_, as⟩, ⟨_, bs⟩, h => by
    simp at h
    simp [Block.same, Stmt.sameAll_of_bare_eq h]

theorem Stmt.sameAll_of_bare_eq :
    ∀ {as bs : List Stmt}, as.map Stmt.bare = bs.map Stmt.bare → Stmt.sameAll as bs = true
  | [], bs, h => by
    cases bs <;> simp at h
    simp [Stmt.sameAll]
  | a :: as, bs, h => by
    cases bs <;> simp at h
    simp [Stmt.sameAll, Stmt.same_of_bare_eq h.1, Stmt.sameAll_of_bare_eq h.2]

theorem Stmt.same_of_bare_eq : ∀ {a b : Stmt}, a.bare = b.bare → a.same b = true
  | .eval _ e, b, h => by
    cases b <;> simp at h
    simp [Stmt.same, Expr.same_of_bare_eq h]
  | .declare _ _ _ none, b, h => by
    cases b with
    | declare _ _ _ init => cases init <;> simp at h; simp [Stmt.same, h]
    | _ => simp at h
  | .declare _ _ _ (some e), b, h => by
    cases b with
    | declare _ _ _ init =>
      cases init <;> simp at h
      simp [Stmt.same, h.1, h.2.1, Expr.same_of_bare_eq h.2.2]
    | _ => simp at h
  | .branch _ c body none, b, h => by
    cases b with
    | branch _ _ _ other =>
      cases other <;> simp at h
      simp [Stmt.same, Expr.same_of_bare_eq h.1, Block.same_of_bare_eq h.2]
    | _ => simp at h
  | .branch _ c body (some other), b, h => by
    cases b with
    | branch _ _ _ other =>
      cases other <;> simp at h
      simp [Stmt.same, Expr.same_of_bare_eq h.1, Block.same_of_bare_eq h.2.1,
        Block.same_of_bare_eq h.2.2]
    | _ => simp at h
  | .ret _ none, b, h => by
    cases b with
    | ret _ value => cases value <;> simp at h; simp [Stmt.same]
    | _ => simp at h
  | .ret _ (some e), b, h => by
    cases b with
    | ret _ value => cases value <;> simp at h; simp [Stmt.same, Expr.same_of_bare_eq h]
    | _ => simp at h

end

theorem sameLists_of_map_eq {α β : Type} {f : α → β} {same : α → α → Bool}
    (hsame : ∀ a b, f a = f b → same a b = true) :
    ∀ {as bs : List α}, as.map f = bs.map f → sameLists same as bs = true
  | [], [], _ => rfl
  | a :: as, b :: bs, h => by
    simp only [List.map_cons, List.cons.injEq] at h
    have ih := sameLists_of_map_eq hsame h.2
    simp only [sameLists, Bool.and_eq_true, beq_iff_eq] at ih
    simp [sameLists, ih.1, ih.2, hsame a b h.1]

theorem Field.same_of_bare_eq {a b : Field} (h : a.bare = b.bare) : a.same b = true := by
  obtain ⟨_, _, _, _, init⟩ := a
  obtain ⟨_, _, _, _, init'⟩ := b
  simp only [Field.bare, Field.map, Field.mk.injEq] at h
  have hinit : init.toList.map Expr.bare = init'.toList.map Expr.bare := by
    cases init <;> cases init' <;> simp at h ⊢
    exact h.2.2.2
  simp [Field.same, h.2.1, h.2.2.1, h.2.2.2.1,
    sameLists_of_map_eq (fun _ _ => Expr.same_of_bare_eq) hinit]

theorem Method.same_of_bare_eq {a b : Method} (h : a.bare = b.bare) : a.same b = true := by
  obtain ⟨_, _, _, _, _, body⟩ := a
  obtain ⟨_, _, _, _, _, body'⟩ := b
  simp only [Method.bare, Method.map, Method.mk.injEq] at h
  simp [Method.same, h.2.1, h.2.2.1, h.2.2.2.1, h.2.2.2.2.1,
    Block.same_of_bare_eq h.2.2.2.2.2]

theorem ClassDecl.same_of_bare_eq {a b : ClassDecl} (h : a.bare = b.bare) : a.same b = true := by
  obtain ⟨_, _, _, _, fields, methods⟩ := a
  obtain ⟨_, _, _, _, fields', methods'⟩ := b
  simp only [ClassDecl.bare, ClassDecl.map, ClassDecl.mk.injEq] at h
  simp [ClassDecl.same, h.2.1, h.2.2.1, h.2.2.2.1,
    sameLists_of_map_eq (fun _ _ => Field.same_of_bare_eq) h.2.2.2.2.1,
    sameLists_of_map_eq (fun _ _ => Method.same_of_bare_eq) h.2.2.2.2.2]

theorem Item.same_of_bare_eq {a b : Item} (h : a.bare = b.bare) : a.same b = true := by
  cases a <;> cases b <;> simp only [Item.bare, Item.map, reduceCtorEq] at h
  · exact ClassDecl.same_of_bare_eq (Item.classDecl.inj h)
  · exact Method.same_of_bare_eq (Item.method.inj h)
  · exact Stmt.same_of_bare_eq (Item.statement.inj h)

theorem Script.same_of_bare_eq {a b : Script} (h : a.bare = b.bare) : a.same b = true :=
  sameLists_of_map_eq (fun _ _ => Item.same_of_bare_eq) (Script.mk.inj h)

end same

end QueryBlocks
