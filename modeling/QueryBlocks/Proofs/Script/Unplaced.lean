import QueryBlocks.Proofs.Script.Bare
import QueryBlocks.Proofs.Script.Parsed
import QueryBlocks.Script.Print

/-!
What does not depend on places: how a script is printed, which parts it has, and that the grammar
gives it.
-/
namespace QueryBlocks

theorem Field.bare_eq (f : Field) :
    f.bare = { f with pos := ⟨0, 0⟩, init := f.init.map Expr.bare } := rfl

theorem Method.bare_eq (m : Method) : m.bare = { m with pos := ⟨0, 0⟩, body := m.body.bare } := rfl

theorem ClassDecl.bare_eq (c : ClassDecl) : c.bare = { c with
    pos := ⟨0, 0⟩
    fields := c.fields.map Field.bare
    methods := c.methods.map Method.bare } := rfl

theorem Script.bare_eq (s : Script) : s.bare = ⟨s.items.map Item.bare⟩ := rfl

/-! ### Printing -/

namespace Expr

@[simp] theorem strength_bare (e : Expr) : e.bare.strength = e.strength := by
  cases e with
  | call _ receiver => cases receiver <;> simp [strength]
  | _ => simp [strength]

@[simp] theorem isClosure_bare (e : Expr) : e.bare.isClosure = e.isClosure := by
  cases e <;> simp [isClosure]

end Expr

@[simp] theorem Stmt.isBranch_bare (s : Stmt) : s.bare.isBranch = s.isBranch := by
  cases s <;> simp [isBranch]

namespace Print

@[simp] theorem operand_bare (least : Nat) (e : Expr) (text : String) :
    operand least e.bare text = operand least e text := by
  simp [operand]

@[simp] theorem arguments_bare (args : List Expr) (texts : List String) :
    arguments (args.map Expr.bare) texts = arguments args texts := by
  simp [arguments, List.getLast?_map, Option.any_map]

mutual

theorem expr_bare (depth : Nat) : ∀ e : Expr, expr depth e.bare = expr depth e
  | .var .. => rfl
  | .lit .. => rfl
  | .member _ object _ => by simp [expr, expr_bare depth object]
  | .call _ none _ args => by simp [expr, exprs_bare depth args]
  | .call _ (some receiver) _ args => by
    simp [expr, expr_bare depth receiver, exprs_bare depth args]
  | .construct _ _ args => by simp [expr, exprs_bare depth args]
  | .cast _ value _ => by simp [expr, expr_bare depth value]
  | .binary _ left _ right => by simp [expr, expr_bare depth left, expr_bare depth right]
  | .not _ e => by simp [expr, expr_bare depth e]
  | .negate _ e => by simp [expr, expr_bare depth e]
  | .list _ items => by simp [expr, exprs_bare depth items]
  | .spread _ e => by simp [expr, expr_bare depth e]
  | .closure _ _ ⟨_, statements⟩ => by simp [expr, stmts_bare (depth + 1) statements]

theorem exprs_bare (depth : Nat) : ∀ es : List Expr, exprs depth (es.map Expr.bare) = exprs depth es
  | [] => rfl
  | e :: more => by simp [exprs, expr_bare depth e, exprs_bare depth more]

theorem stmts_bare (depth : Nat) : ∀ ss : List Stmt, stmts depth (ss.map Stmt.bare) = stmts depth ss
  | [] => rfl
  | s :: more => by simp [stmts, stmt_bare depth s, stmts_bare depth more]

theorem stmt_bare (depth : Nat) : ∀ s : Stmt, stmt depth s.bare = stmt depth s
  | .eval _ e => by simp [stmt, expr_bare depth e]
  | .declare _ _ _ none => by simp [stmt]
  | .declare _ _ _ (some e) => by simp [stmt, expr_bare depth e]
  | .branch _ cond ⟨_, body⟩ none => by
    simp [stmt, expr_bare depth cond, stmts_bare (depth + 1) body]
  | .branch _ cond ⟨_, body⟩ (some ⟨_, other⟩) => by
    have hcond := expr_bare depth cond
    have hbody := stmts_bare (depth + 1) body
    match other with
    | [] => simp [stmt, hcond, hbody, stmts]
    | [s] =>
      have hs := stmt_bare depth s
      have hlines := stmts_bare (depth + 1) [s]
      simp only [List.map_cons, List.map_nil] at hlines
      simp [stmt, hcond, hbody, hs, hlines]
    | s :: t :: more =>
      have hlines := stmts_bare (depth + 1) (s :: t :: more)
      simp only [List.map_cons] at hlines
      simp [stmt, hcond, hbody, hlines]
  | .ret _ none => by simp [stmt]
  | .ret _ (some e) => by simp [stmt, expr_bare depth e]

end

theorem field_bare (depth : Nat) (f : Field) : field depth f.bare = field depth f := by
  obtain ⟨_, modifiers, type, name, init⟩ := f
  cases init <;> simp [field, Field.bare_eq, expr_bare]

theorem method_bare (depth : Nat) (m : Method) : method depth m.bare = method depth m := by
  obtain ⟨_, modifiers, type, name, params, _, statements⟩ := m
  simp [method, Method.bare_eq, stmts_bare]

theorem methods_bare (depth : Nat) (first : Bool) (ms : List Method) :
    methods depth first (ms.map Method.bare) = methods depth first ms := by
  induction ms generalizing first with
  | nil => rfl
  | cons m ms ih => rw [List.map_cons, methods, methods, method_bare, ih]

theorem classDecl_bare (c : ClassDecl) : classDecl c.bare = classDecl c := by
  simp [classDecl, ClassDecl.bare_eq, methods_bare, Function.comp_def, field_bare]

theorem item_bare (i : Item) : item i.bare = item i := by
  cases i with
  | classDecl c => exact classDecl_bare c
  | method m => exact method_bare 0 m
  | statement s => exact congrArg (· ++ "\n") (stmt_bare 0 s)

theorem items_bare (is : List Item) : items (is.map Item.bare) = items is := by
  have hdeclaration (i : Item) : isDeclaration i.bare = isDeclaration i := by cases i <;> rfl
  induction is with
  | nil => rfl
  | cons i is ih =>
    cases is with
    | nil => exact item_bare i
    | cons j is =>
      simp only [List.map_cons, items, item_bare, hdeclaration] at ih ⊢
      rw [ih]

end Print

@[simp] theorem Expr.text_bare (e : Expr) : e.bare.text = e.text := Print.expr_bare 0 e

theorem Script.text_bare (s : Script) : s.bare.text = s.text := Print.items_bare s.items

/-! ### Parts -/

namespace Part

def bare : Part → Part
  | script s => script s.bare
  | classDecl c => classDecl c.bare
  | field f => field f.bare
  | method m => method m.bare
  | block b => block b.bare
  | stmt s => stmt s.bare
  | expr e => expr e.bare

theorem part_bare (i : Item) : i.bare.part = i.part.bare := by
  cases i <;> rfl

theorem children_bare (n : Part) : n.bare.children = n.children.map bare := by
  cases n with
  | script s => simp [bare, children, Script.bare_eq, part_bare]
  | classDecl c => simp [bare, children, ClassDecl.bare_eq, Function.comp_def]
  | field f =>
    obtain ⟨_, _, _, _, init⟩ := f
    cases init <;> simp [bare, children, Field.bare_eq]
  | method m => rfl
  | block b =>
    obtain ⟨_, statements⟩ := b
    simp [bare, children]
  | stmt s =>
    rcases s with _ | ⟨_, _, _, _ | _⟩ | ⟨_, _, _, _ | _⟩ | ⟨_, _ | _⟩ <;>
      simp [bare, children, Stmt.children]
  | expr e =>
    cases e with
    | call _ receiver => cases receiver <;> simp [bare, children, Expr.children]
    | _ => simp [bare, children, Expr.children]

end Part

/-! ### Validity -/

namespace Expr

@[simp] theorem isSpread_bare (e : Expr) : e.bare.isSpread = e.isSpread := by
  cases e <;> simp [isSpread]

@[simp] theorem isNumber_bare (e : Expr) : e.bare.isNumber = e.isNumber := by
  cases e with
  | lit _ value => cases value <;> rfl
  | _ => simp [isNumber]

end Expr

namespace Part

variable {typeOk : String → Prop}

theorem proper_bare (n : Part) : n.bare.Proper typeOk ↔ n.Proper typeOk := by
  cases n with
  | script s => rfl
  | classDecl c => rfl
  | field f =>
    obtain ⟨_, _, _, _, init⟩ := f
    cases init <;> simp [bare, Proper, Field.bare_eq]
  | method m => rfl
  | block b => rfl
  | stmt s =>
    rcases s with _ | ⟨_, _, _, _ | _⟩ | ⟨_, _, _, _ | _⟩ | ⟨_, _ | _⟩ <;>
      simp [bare, Proper]
  | expr e =>
    cases e with
    | call _ receiver => cases receiver <;> simp [bare, Proper]
    | _ => simp [bare, Proper]

theorem valid_bare (n : Part) : n.bare.Valid typeOk ↔ n.Valid typeOk := by
  induction n using induct with
  | step n ih =>
    rw [valid_iff, valid_iff n, proper_bare, children_bare, List.forall_mem_map]
    exact and_congr_right fun _ => forall₂_congr ih

end Part

end QueryBlocks
