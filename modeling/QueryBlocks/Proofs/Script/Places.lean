import QueryBlocks.Proofs.Script.InStep

/-! The grammar does not look at places. Rules over two texts of places read alike, and the depth
that ties their recursion has no effect once it exceeds the length of the text. So there is one set
of rules without places and without a depth, `Rules.bare`, that stands for all the others. -/
namespace QueryBlocks

open QueryBlocks.Parser QueryBlocks.Token

section

variable {α : Type} {φ : α → α} {k n : Nat} {p q : Parser α}

/-- To agree is to read the same text in step. -/
theorem Parser.Agree.reads (h : Parser.Agree φ k n p q) : Pairing.same.Reads φ k n p q := by
  rintro s _ rfl hn
  obtain ⟨hq, hwithin⟩ := h s hn
  rw [hq]
  refine ⟨?_, hwithin, hwithin.map⟩
  cases p s with
  | ok a rest => exact .ok rfl rfl
  | fail place => exact .fail rfl
  | stop place => exact .stop rfl

theorem Pairing.Reads.agree (h : Pairing.same.Reads φ k n p q) : Parser.Agree φ k n p q := by
  intro s hn
  obtain ⟨halike, hwithin, -⟩ := h s s rfl hn
  refine ⟨?_, hwithin⟩
  generalize p s = o, q s = o' at halike
  cases halike with
  | ok hb hrest => rw [hb, show _ = _ from hrest]; rfl
  | fail hplace => rw [show _ = _ from hplace]; rfl
  | stop hplace => rw [show _ = _ from hplace]; rfl

end

namespace Rules

/-- Both sets of rules read the same on texts shorter than `n`; the second has no places. -/
structure Agree (n : Nat) (g h : Rules) : Prop where
  place : ∀ s, h.place s = ⟨0, 0⟩
  expr : Parser.Agree Expr.bare 1 n g.expr h.expr
  unary : Parser.Agree Expr.bare 1 n g.unary h.unary
  stmt : Parser.Agree Stmt.bare 1 n g.stmt h.stmt
  stmts : Parser.Agree (List.map Stmt.bare) 0 n g.stmts h.stmts
  branch : Parser.Agree Stmt.bare 1 n g.branch h.branch

namespace Agree

variable {n : Nat} {g h : Rules} (hg : Agree n g h)

include hg

theorem inStep : InStep .same Position.forget n g h where
  place := by
    rintro s _ rfl
    exact hg.place s
  expr := hg.expr.reads
  unary := hg.unary.reads
  stmt := hg.stmt.reads
  stmts := hg.stmts.reads
  branch := hg.branch.reads

theorem argument : Parser.Agree Expr.bare 1 n g.argument h.argument :=
  Pairing.Reads.agree hg.inStep.argument

theorem parenArgs : Parser.Agree (List.map Expr.bare) 1 (n + 1) g.parenArgs h.parenArgs :=
  Pairing.Reads.agree hg.inStep.parenArgs.reads

theorem primary : Parser.Agree Expr.bare 1 (n + 1) g.primary h.primary :=
  Pairing.Reads.agree hg.inStep.primary

theorem signed : Parser.Agree Expr.bare 1 (n + 1) g.signed h.signed :=
  Pairing.Reads.agree hg.inStep.signed

theorem levels {ops : List (Parser BinOp)} (ho : ∀ op ∈ ops, Advances 1 op) :
    Parser.Agree Expr.bare 1 (n + 1) (g.levels ops) (h.levels ops) :=
  Pairing.Reads.agree (hg.inStep.levels fun op hop _ => (ho op hop).agree.reads)

theorem assignment : Parser.Agree Expr.bare 1 (n + 1) g.assignment h.assignment :=
  Pairing.Reads.agree hg.inStep.assignment

theorem body : Parser.Agree Block.bare 1 n g.body h.body :=
  Pairing.Reads.agree hg.inStep.body

theorem conditional : Parser.Agree Stmt.bare 1 (n + 1) g.conditional h.conditional :=
  Pairing.Reads.agree hg.inStep.conditional

theorem statement : Parser.Agree Stmt.bare 1 (n + 1) g.statement h.statement :=
  Pairing.Reads.agree hg.inStep.statement

theorem statements :
    Parser.Agree (List.map Stmt.bare) 0 (n + 1) g.statements h.statements :=
  Pairing.Reads.agree hg.inStep.statements.reads

theorem script : Parser.Agree Script.bare 0 (n + 1) g.script h.script :=
  Pairing.Reads.agree hg.inStep.script.reads

end Agree

theorem nested_place (place : List Char → Position) (n : Nat) :
    (nested place n).place = place := by
  cases n <;> rfl

theorem agree_nested (place : List Char → Position) {k n m : Nat} (hn : k ≤ n) (hm : k ≤ m) :
    Agree k (nested place n) (nested (fun _ => ⟨0, 0⟩) m) := by
  have hstep : InStep .same Position.forget k (nested place n) (nested (fun _ => ⟨0, 0⟩) m) := by
    rw [nested_eq_deepened place, nested_eq_deepened fun _ => ⟨0, 0⟩]
    refine inStep_deepened ?_ hn hm
    rintro s _ rfl
    rfl
  exact {
    place := fun s => by rw [nested_place]
    expr := Pairing.Reads.agree hstep.expr
    unary := Pairing.Reads.agree hstep.unary
    stmt := Pairing.Reads.agree hstep.stmt
    stmts := Pairing.Reads.agree hstep.stmts
    branch := Pairing.Reads.agree hstep.branch }

/-- The rules without places. The depth is taken from the text, so they have none of their own. -/
def bare : Rules where
  place _ := ⟨0, 0⟩
  expr s := (nested (fun _ => ⟨0, 0⟩) s.length).assignment s
  unary s := (nested (fun _ => ⟨0, 0⟩) s.length).signed s
  stmt s := (nested (fun _ => ⟨0, 0⟩) s.length).statement s
  stmts s := (nested (fun _ => ⟨0, 0⟩) s.length).statements s
  branch s := (nested (fun _ => ⟨0, 0⟩) s.length).conditional s

theorem agree_bare (place : List Char → Position) (n : Nat) :
    Agree n (nested place n) bare where
  place _ := rfl
  expr s hs := (agree_nested place hs (Nat.le_refl _)).expr s (Nat.lt_succ_self _)
  unary s hs := (agree_nested place hs (Nat.le_refl _)).unary s (Nat.lt_succ_self _)
  stmt s hs := (agree_nested place hs (Nat.le_refl _)).stmt s (Nat.lt_succ_self _)
  stmts s hs := (agree_nested place hs (Nat.le_refl _)).stmts s (Nat.lt_succ_self _)
  branch s hs := (agree_nested place hs (Nat.le_refl _)).branch s (Nat.lt_succ_self _)

theorem advances_assignment : Advances 1 bare.assignment :=
  Parser.Agree.advances fun n => (agree_bare (fun _ => ⟨0, 0⟩) n).assignment

theorem advances_argument : Advances 1 bare.argument :=
  Parser.Agree.advances fun n => (agree_bare (fun _ => ⟨0, 0⟩) (n + 1)).argument

theorem advances_parenArgs : Advances 1 bare.parenArgs :=
  Parser.Agree.advances fun n => (agree_bare (fun _ => ⟨0, 0⟩) n).parenArgs

theorem advances_primary : Advances 1 bare.primary :=
  Parser.Agree.advances fun n => (agree_bare (fun _ => ⟨0, 0⟩) n).primary

theorem advances_levels {ops : List (Parser BinOp)} (ho : ∀ op ∈ ops, Advances 1 op) :
    Advances 1 (bare.levels ops) :=
  Parser.Agree.advances fun n => (agree_bare (fun _ => ⟨0, 0⟩) n).levels ho

theorem advances_statement : Advances 1 bare.statement :=
  Parser.Agree.advances fun n => (agree_bare (fun _ => ⟨0, 0⟩) n).statement

theorem advances_statements : Advances 0 bare.statements :=
  Parser.Agree.advances fun n => (agree_bare (fun _ => ⟨0, 0⟩) n).statements

theorem advances_body : Advances 1 bare.body :=
  Parser.Agree.advances fun n => (agree_bare (fun _ => ⟨0, 0⟩) (n + 1)).body

theorem Agree.run_eq {α : Type} {φ : α → α} {k n : Nat} {p q : Parser α} {s : List Char}
    (hpp : Parser.Agree φ k n p p) (hpq : Parser.Agree φ k n p q) (hs : s.length < n) :
    p s = q s :=
  (hpp s hs).1.trans (hpq s hs).1.symm

theorem agree_self (s : List Char) : Agree s.length (nested (fun _ => ⟨0, 0⟩) s.length)
    (nested (fun _ => ⟨0, 0⟩) s.length) := agree_nested _ (Nat.le_refl _) (Nat.le_refl _)

theorem bare_expr : bare.expr = bare.assignment := by
  funext s
  have h := Agree.run_eq (agree_self s).assignment (agree_bare _ _).assignment (Nat.lt_succ_self _)
  rw [← h]
  rfl

theorem advances_expr : Advances 1 bare.expr := bare_expr ▸ advances_assignment

theorem bare_unary : bare.unary = bare.signed := by
  funext s
  have h := Agree.run_eq (agree_self s).signed (agree_bare _ _).signed (Nat.lt_succ_self _)
  rw [← h]
  rfl

theorem bare_stmt : bare.stmt = bare.statement := by
  funext s
  have h := Agree.run_eq (agree_self s).statement (agree_bare _ _).statement (Nat.lt_succ_self _)
  rw [← h]
  rfl

theorem bare_stmts : bare.stmts = bare.statements := by
  funext s
  have h := Agree.run_eq (agree_self s).statements (agree_bare _ _).statements (Nat.lt_succ_self _)
  rw [← h]
  rfl

theorem advances_stmts : Advances 0 bare.stmts := bare_stmts ▸ advances_statements

theorem bare_branch : bare.branch = bare.conditional := by
  funext s
  have h :=
    Agree.run_eq (agree_self s).conditional (agree_bare _ _).conditional (Nat.lt_succ_self _)
  rw [← h]
  rfl

end Rules

end QueryBlocks
