import QueryBlocks.Proofs.Script.Part
import QueryBlocks.Proofs.Script.Sound

/-! Blocks that come out of reading, alone or as a part of something larger. The grammar gives them
all. -/
namespace QueryBlocks

open QueryBlocks.Token

/-- A block that was read, or a block anywhere inside a block or a script that was read. -/
inductive Block.Parsed : Block → Prop
  | block {source : String} {root block : Block} {path : List Nat}
      (hread : Block.read source = .ok root)
      (hfind : (Part.block root).find path = some (.block block)) : Block.Parsed block
  | script {source : String} {script : Script} {block : Block} {path : List Nat}
      (hread : Script.read source = .ok script)
      (hfind : (Part.script script).find path = some (.block block)) : Block.Parsed block

namespace Part

variable {typeOk : String → Prop}

/-- A part that the grammar gives. An expression may be an argument. -/
def Valid (typeOk : String → Prop) : Part → Prop
  | script s => s.Valid typeOk
  | classDecl c => c.Valid typeOk
  | field f => f.Valid typeOk
  | method m => m.Valid typeOk
  | block b => b.Valid typeOk
  | stmt s => s.Valid typeOk
  | expr e => e.ValidArg typeOk

/-- What the grammar asks of a part besides what it asks of its children. -/
def Proper (typeOk : String → Prop) : Part → Prop
  | script _ | block _ | expr (.list ..) => True
  | classDecl c => (∀ word ∈ c.modifiers, word ∈ modifierWords) ∧ isIdentifier c.name = true ∧
      ∀ type ∈ c.superclass, IsQualified type
  | field f => (∀ word ∈ f.modifiers, word ∈ modifierWords) ∧ (∀ t ∈ f.type, typeOk t) ∧
      isName f.name = true ∧ ∀ e ∈ f.init, e.isSpread = false
  | method m => (∀ word ∈ m.modifiers, word ∈ modifierWords) ∧ (∀ t ∈ m.returnType, typeOk t) ∧
      isName m.name = true ∧ ∀ p ∈ m.params, isName p = true
  | stmt (.eval _ e) | stmt (.branch _ e _ _) | expr (.not _ e) | expr (.spread _ e) =>
    e.isSpread = false
  | stmt (.declare _ type name init) =>
    (∀ t ∈ type, typeOk t ∧ firstSegment t ≠ "return") ∧ isName name = true ∧
      ∀ e ∈ init, e.isSpread = false
  | stmt (.ret _ value) => ∀ e ∈ value, e.isSpread = false
  | expr (.var _ name) | expr (.call _ none name _) => isName name = true
  | expr (.lit _ value) => value.Valid
  | expr (.member _ e name) | expr (.call _ (some e) name _) =>
    e.isSpread = false ∧ isIdentifier name = true
  | expr (.construct _ type _) => IsQualified type
  | expr (.cast _ e type) => e.isSpread = false ∧ IsQualified type
  | expr (.binary _ left _ right) => left.isSpread = false ∧ right.isSpread = false
  | expr (.negate _ e) => e.isSpread = false ∧ e.isNumber = false
  | expr (.closure _ params _) => ∀ p ∈ params, isName p = true

/-- An argument that is not spread can stand anywhere. -/
theorem valid_operand {e : Expr} :
    e.Valid typeOk ↔ e.isSpread = false ∧ (expr e).Valid typeOk := by
  cases e <;> simp [Expr.isSpread, Valid, Expr.ValidArg, Expr.Valid]

theorem valid_arguments {es : List Expr} :
    Expr.ValidAll typeOk es ↔ ∀ e ∈ es, (expr e).Valid typeOk := Expr.validAll_iff

theorem valid_block {b : Block} : b.Valid typeOk ↔ (block b).Valid typeOk := Iff.rfl

theorem valid_iff_expr {e : Expr} (he : e.isSpread = false) :
    e.Valid typeOk ↔ (expr e).Proper typeOk ∧ ∀ c ∈ e.children, c.Valid typeOk := by
  rcases e with _ | _ | _ | ⟨_, _ | _, _, _⟩ | _ | _ | _ | _ | _ | _ | _ | _
  case spread => cases he
  all_goals
    simp only [Expr.Valid, valid_operand, valid_arguments, valid_block]
    simp [Proper, Expr.children, and_assoc, and_left_comm, and_comm]

theorem valid_iff (n : Part) :
    n.Valid typeOk ↔ n.Proper typeOk ∧ ∀ c ∈ n.children, c.Valid typeOk := by
  cases n with
  | script s =>
    have hitem (i : Item) : i.part.Valid typeOk ↔ i.Valid typeOk := by cases i <;> rfl
    simp only [Proper, children, List.forall_mem_map, hitem, true_and]
    rfl
  | classDecl c =>
    simp only [Valid, Proper, children, ClassDecl.Valid, List.forall_mem_append,
      List.forall_mem_map]
    tauto
  | field f =>
    obtain ⟨_, _, _, _, init⟩ := f
    have hvalid (f : Field) : (field f).Valid typeOk ↔ f.Valid typeOk := Iff.rfl
    cases init <;> simp [hvalid, Field.Valid, Proper, children, valid_operand, and_assoc]
  | method m => simp [Valid, Proper, children, Method.Valid, and_assoc]
  | block b =>
    obtain ⟨_, statements⟩ := b
    simp [Valid, Proper, children, Block.Valid, Stmt.validAll_iff]
  | stmt s =>
    have hvalid (s : Stmt) : (stmt s).Valid typeOk ↔ s.Valid typeOk := Iff.rfl
    rcases s with _ | ⟨_, _, _, _ | _⟩ | ⟨_, _, _, _ | _⟩ | ⟨_, _ | _⟩ <;>
      simp [hvalid, Stmt.Valid, Proper, children, Stmt.children, valid_operand, valid_block,
        and_assoc]
  | expr e =>
    cases hspread : e.isSpread with
    | false =>
      rw [children, ← valid_iff_expr hspread, valid_operand]
      simp [hspread]
    | true =>
      cases e with
      | spread p e =>
        have hvalid : (expr (.spread p e)).Valid typeOk ↔ e.Valid typeOk := Iff.rfl
        simpa [Proper, children, Expr.children, valid_operand] using hvalid
      | _ => cases hspread

theorem valid_child {n : Part} (h : n.Valid typeOk) : ∀ c ∈ n.children, c.Valid typeOk :=
  ((valid_iff n).1 h).2

theorem valid_find {n c : Part} {path : List Nat} (h : n.Valid typeOk)
    (hfind : n.find path = some c) : c.Valid typeOk := by
  induction path generalizing n with
  | nil =>
    cases hfind
    exact h
  | cons i path ih =>
    obtain ⟨child, hchild, hrest⟩ := Option.bind_eq_some_iff.mp hfind
    exact ih (valid_child h child (List.mem_of_getElem? hchild)) hrest

end Part

theorem Block.Parsed.valid {b : Block} (h : b.Parsed) : b.Valid IsType := by
  cases h with
  | block hread hfind => exact Part.valid_find (n := .block _) (Block.valid_of_read hread) hfind
  | script hread hfind => exact Part.valid_find (n := .script _) (Script.valid_of_read hread) hfind

end QueryBlocks
