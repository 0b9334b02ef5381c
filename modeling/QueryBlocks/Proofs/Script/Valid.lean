import QueryBlocks.Script.Token
import QueryBlocks.Script.Tree

/-! What the trees of the grammar are like. Names and types are spelled as the lexical rules want
them, a minus never stands in front of a number, and only an argument can be spread. -/
namespace QueryBlocks

namespace Token

def isIdentifier (word : String) : Bool :=
  match word.toList with
  | c :: more => isWordStart c && more.all isWordChar
  | [] => false

def isName (word : String) : Bool := isIdentifier word && !isReserved word

/-- Identifiers with dots between them. -/
def IsQualified (type : String) : Prop :=
  ∃ first more, type = ".".intercalate (first :: more) ∧
    isIdentifier first = true ∧ ∀ word ∈ more, isIdentifier word = true

/-- The part of a dotted name before its first dot. -/
def firstSegment (type : String) : String := String.ofList (type.toList.takeWhile (· != '.'))

/-- A type that a declaration can begin with, perhaps an array. The word `def` is taken for the
absence of a type. -/
def IsType (type : String) : Prop :=
  ∃ base, IsQualified base ∧ isTypeName base = true ∧ firstSegment base ≠ "def" ∧
    (type = base ∨ type = base ++ "[]")

end Token

namespace Literal

/-- The signs of a decimal stand in front of its digits, as often as it was negated. -/
def Valid : Literal → Prop
  | int n => n.natAbs ≤ Token.maxInt
  | decimal text => ∃ signs whole fraction,
      text.toList = List.replicate signs '-' ++ (whole ++ '.' :: fraction) ∧
        whole ≠ [] ∧ whole.all Char.isDigit = true ∧
        fraction ≠ [] ∧ fraction.all Char.isDigit = true
  | _ => True

end Literal

def Expr.isNumber : Expr → Bool
  | .lit _ (.int _) | .lit _ (.decimal _) => true
  | _ => false

def Expr.isSpread : Expr → Bool
  | .spread .. => true
  | _ => false

section

variable (typeOk : String → Prop)

mutual

/-- A tree that the grammar gives, if `typeOk` holds of the types its statements declare. -/
def Expr.Valid : Expr → Prop
  | .var _ name => Token.isName name = true
  | .lit _ value => value.Valid
  | .member _ object name => object.Valid ∧ Token.isIdentifier name = true
  | .call _ none name args => Token.isName name = true ∧ Expr.ValidAll args
  | .call _ (some receiver) name args =>
    receiver.Valid ∧ Token.isIdentifier name = true ∧ Expr.ValidAll args
  | .construct _ type args => Token.IsQualified type ∧ Expr.ValidAll args
  | .cast _ value type => value.Valid ∧ Token.IsQualified type
  | .binary _ left _ right => left.Valid ∧ right.Valid
  | .not _ e => e.Valid
  | .negate _ e => e.Valid ∧ e.isNumber = false
  | .list _ items => Expr.ValidAll items
  | .spread .. => False
  | .closure _ params body => (∀ p ∈ params, Token.isName p = true) ∧ body.Valid

/-- Arguments; here an expression may be spread. -/
def Expr.ValidAll : List Expr → Prop
  | [] => True
  | .spread _ e :: more => e.Valid ∧ Expr.ValidAll more
  | e :: more => e.Valid ∧ Expr.ValidAll more

def Block.Valid : Block → Prop
  | ⟨_, statements⟩ => Stmt.ValidAll statements

def Stmt.ValidAll : List Stmt → Prop
  | [] => True
  | s :: more => s.Valid ∧ Stmt.ValidAll more

def Stmt.Valid : Stmt → Prop
  | .eval _ e => e.Valid
  | .declare _ type name none =>
    (∀ t ∈ type, typeOk t ∧ Token.firstSegment t ≠ "return") ∧ Token.isName name = true
  | .declare _ type name (some e) =>
    (∀ t ∈ type, typeOk t ∧ Token.firstSegment t ≠ "return") ∧ Token.isName name = true ∧
      e.Valid
  | .branch _ cond body none => cond.Valid ∧ body.Valid
  | .branch _ cond body (some other) => cond.Valid ∧ body.Valid ∧ other.Valid
  | .ret _ none => True
  | .ret _ (some e) => e.Valid

end

def Field.Valid (f : Field) : Prop :=
  (∀ word ∈ f.modifiers, word ∈ Token.modifierWords) ∧ (∀ t ∈ f.type, typeOk t) ∧
    Token.isName f.name = true ∧ ∀ e ∈ f.init, e.Valid typeOk

def Method.Valid (m : Method) : Prop :=
  (∀ word ∈ m.modifiers, word ∈ Token.modifierWords) ∧ (∀ t ∈ m.returnType, typeOk t) ∧
    Token.isName m.name = true ∧ (∀ p ∈ m.params, Token.isName p = true) ∧ m.body.Valid typeOk

def ClassDecl.Valid (c : ClassDecl) : Prop :=
  (∀ word ∈ c.modifiers, word ∈ Token.modifierWords) ∧ Token.isIdentifier c.name = true ∧
    (∀ type ∈ c.superclass, Token.IsQualified type) ∧ (∀ f ∈ c.fields, f.Valid typeOk) ∧
    ∀ m ∈ c.methods, m.Valid typeOk

def Item.Valid : Item → Prop
  | .classDecl c => c.Valid typeOk
  | .method m => m.Valid typeOk
  | .statement s => s.Valid typeOk

def Script.Valid (s : Script) : Prop := ∀ i ∈ s.items, i.Valid typeOk

end

/-! ### Declared types -/

mutual

/-- The types of the declarations inside an expression. -/
def Expr.declaredTypes : Expr → List String
  | .var .. | .lit .. => []
  | .member _ object _ => object.declaredTypes
  | .call _ none _ args => Expr.allDeclaredTypes args
  | .call _ (some receiver) _ args => receiver.declaredTypes ++ Expr.allDeclaredTypes args
  | .construct _ _ args => Expr.allDeclaredTypes args
  | .cast _ value _ => value.declaredTypes
  | .binary _ left _ right => left.declaredTypes ++ right.declaredTypes
  | .not _ e | .negate _ e | .spread _ e => e.declaredTypes
  | .list _ items => Expr.allDeclaredTypes items
  | .closure _ _ body => body.declaredTypes

def Expr.allDeclaredTypes : List Expr → List String
  | [] => []
  | e :: more => e.declaredTypes ++ Expr.allDeclaredTypes more

def Block.declaredTypes : Block → List String
  | ⟨_, statements⟩ => Stmt.allDeclaredTypes statements

def Stmt.allDeclaredTypes : List Stmt → List String
  | [] => []
  | s :: more => s.declaredTypes ++ Stmt.allDeclaredTypes more

def Stmt.declaredTypes : Stmt → List String
  | .eval _ e => e.declaredTypes
  | .declare _ type _ none => type.toList
  | .declare _ type _ (some e) => type.toList ++ e.declaredTypes
  | .branch _ cond body none => cond.declaredTypes ++ body.declaredTypes
  | .branch _ cond body (some other) =>
    cond.declaredTypes ++ body.declaredTypes ++ other.declaredTypes
  | .ret _ none => []
  | .ret _ (some e) => e.declaredTypes

end

def Field.declaredTypes (f : Field) : List String :=
  f.type.toList ++ f.init.toList.flatMap Expr.declaredTypes

def Method.declaredTypes (m : Method) : List String :=
  m.returnType.toList ++ m.body.declaredTypes

def ClassDecl.declaredTypes (c : ClassDecl) : List String :=
  c.fields.flatMap Field.declaredTypes ++ c.methods.flatMap Method.declaredTypes

def Item.declaredTypes : Item → List String
  | .classDecl c => c.declaredTypes
  | .method m => m.declaredTypes
  | .statement s => s.declaredTypes

/-- The types of all declarations, fields and methods. -/
def Script.declaredTypes (s : Script) : List String := s.items.flatMap Item.declaredTypes

section

variable {typeOk more : String → Prop}

-- What is known of the declared types besides can be added to the condition on them.
mutual

theorem Expr.Valid.and : ∀ {e : Expr}, e.Valid typeOk → (∀ t ∈ e.declaredTypes, more t) →
    e.Valid fun t => typeOk t ∧ more t
  | .var .., h, _ => h
  | .lit .., h, _ => h
  | .member .., h, ht => ⟨h.1.and ht, h.2⟩
  | .call _ none .., h, ht => ⟨h.1, Expr.ValidAll.and h.2 ht⟩
  | .call _ (some _) .., h, ht =>
    have ht := List.forall_mem_append.mp ht
    ⟨h.1.and ht.1, h.2.1, Expr.ValidAll.and h.2.2 ht.2⟩
  | .construct .., h, ht => ⟨h.1, Expr.ValidAll.and h.2 ht⟩
  | .cast .., h, ht => ⟨h.1.and ht, h.2⟩
  | .binary .., h, ht =>
    have ht := List.forall_mem_append.mp ht
    ⟨h.1.and ht.1, h.2.and ht.2⟩
  | .not _ e, h, ht => Expr.Valid.and (e := e) h ht
  | .negate .., h, ht => ⟨h.1.and ht, h.2⟩
  | .list _ items, h, ht => @Expr.ValidAll.and items h ht
  | .closure .., h, ht => ⟨h.1, Block.Valid.and h.2 ht⟩

theorem Expr.ValidAll.and : ∀ {es : List Expr}, Expr.ValidAll typeOk es →
    (∀ t ∈ Expr.allDeclaredTypes es, more t) → Expr.ValidAll (fun t => typeOk t ∧ more t) es
  | [], _, _ => trivial
  | e :: es, h, ht => by
    have ht := List.forall_mem_append.mp ht
    cases e with
    | spread _ e => exact ⟨Expr.Valid.and h.1 ht.1, Expr.ValidAll.and h.2 ht.2⟩
    | _ => exact ⟨Expr.Valid.and h.1 ht.1, Expr.ValidAll.and h.2 ht.2⟩

theorem Block.Valid.and : ∀ {b : Block}, b.Valid typeOk → (∀ t ∈ b.declaredTypes, more t) →
    b.Valid fun t => typeOk t ∧ more t
  | ⟨_, statements⟩, h, ht => @Stmt.ValidAll.and statements h ht

theorem Stmt.ValidAll.and : ∀ {ss : List Stmt}, Stmt.ValidAll typeOk ss →
    (∀ t ∈ Stmt.allDeclaredTypes ss, more t) → Stmt.ValidAll (fun t => typeOk t ∧ more t) ss
  | [], _, _ => trivial
  | _ :: _, h, ht =>
    have ht := List.forall_mem_append.mp ht
    ⟨h.1.and ht.1, Stmt.ValidAll.and h.2 ht.2⟩

theorem Stmt.Valid.and : ∀ {s : Stmt}, s.Valid typeOk → (∀ t ∈ s.declaredTypes, more t) →
    s.Valid fun t => typeOk t ∧ more t
  | .eval _ e, h, ht => Expr.Valid.and (e := e) h ht
  | .declare _ type _ none, h, ht => by
    refine ⟨fun t hm => ⟨⟨(h.1 t hm).1, ht t ?_⟩, (h.1 t hm).2⟩, h.2⟩
    exact Option.mem_toList.mpr hm
  | .declare _ type _ (some e), h, ht => by
    have ht := List.forall_mem_append.mp ht
    refine ⟨fun t hm => ⟨⟨(h.1 t hm).1, ht.1 t ?_⟩, (h.1 t hm).2⟩, h.2.1, h.2.2.and ht.2⟩
    exact Option.mem_toList.mpr hm
  | .branch _ _ _ none, h, ht =>
    have ht := List.forall_mem_append.mp ht
    ⟨h.1.and ht.1, h.2.and ht.2⟩
  | .branch _ _ _ (some _), h, ht =>
    have ht := List.forall_mem_append.mp ht
    have htt := List.forall_mem_append.mp ht.1
    ⟨h.1.and htt.1, h.2.1.and htt.2, h.2.2.and ht.2⟩
  | .ret _ none, _, _ => trivial
  | .ret _ (some e), h, ht => Expr.Valid.and (e := e) h ht

end

theorem Field.Valid.and {f : Field} (h : f.Valid typeOk) (ht : ∀ t ∈ f.declaredTypes, more t) :
    f.Valid fun t => typeOk t ∧ more t := by
  obtain ⟨hw, hty, hn, hi⟩ := h
  have ht := List.forall_mem_append.mp ht
  refine ⟨hw, fun t hm => ⟨hty t hm, ht.1 t (Option.mem_toList.mpr hm)⟩, hn, fun e he => ?_⟩
  refine (hi e he).and fun t hm => ht.2 t ?_
  exact List.mem_flatMap.mpr ⟨e, Option.mem_toList.mpr he, hm⟩

theorem Method.Valid.and {m : Method} (h : m.Valid typeOk)
    (ht : ∀ t ∈ m.declaredTypes, more t) : m.Valid fun t => typeOk t ∧ more t := by
  obtain ⟨hw, hty, hn, hp, hb⟩ := h
  have ht := List.forall_mem_append.mp ht
  exact ⟨hw, fun t hm => ⟨hty t hm, ht.1 t (Option.mem_toList.mpr hm)⟩, hn, hp, hb.and ht.2⟩

theorem ClassDecl.Valid.and {c : ClassDecl} (h : c.Valid typeOk)
    (ht : ∀ t ∈ c.declaredTypes, more t) : c.Valid fun t => typeOk t ∧ more t := by
  obtain ⟨hw, hn, hs, hf, hm⟩ := h
  have ht := List.forall_mem_append.mp ht
  refine ⟨hw, hn, hs, fun f hmem => ?_, fun m hmem => ?_⟩
  · exact (hf f hmem).and fun t htf => ht.1 t (List.mem_flatMap.mpr ⟨f, hmem, htf⟩)
  · exact (hm m hmem).and fun t htm => ht.2 t (List.mem_flatMap.mpr ⟨m, hmem, htm⟩)

theorem Item.Valid.and {i : Item} (h : i.Valid typeOk) (ht : ∀ t ∈ i.declaredTypes, more t) :
    i.Valid fun t => typeOk t ∧ more t := by
  cases i with
  | classDecl c => exact ClassDecl.Valid.and h ht
  | method m => exact Method.Valid.and h ht
  | statement s => exact Stmt.Valid.and h ht

theorem Script.Valid.and {s : Script} (h : s.Valid typeOk) (ht : ∀ t ∈ s.declaredTypes, more t) :
    s.Valid fun t => typeOk t ∧ more t := by
  intro i hi
  exact (h i hi).and fun t hm => ht t (List.mem_flatMap.mpr ⟨i, hi, hm⟩)

end

end QueryBlocks
