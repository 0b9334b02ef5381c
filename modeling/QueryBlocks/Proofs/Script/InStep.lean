import QueryBlocks.Proofs.Script.Bare
import QueryBlocks.Proofs.Script.Pairing

/-!
Rules in step. Two sets of rules read two paired texts alike, and the places of the second are those
of the first, moved by a function. Every rule of the grammar keeps this, and so do the rules tied by
depth, whatever stands at the bottom: a depth that exceeds the length of the text is never used up.
-/
namespace QueryBlocks.Rules

open QueryBlocks.Parser QueryBlocks.Token QueryBlocks.Pairing

variable {π : Pairing} {f : Position → Position}

/-- Both sets of rules read alike on texts shorter than `n`. -/
structure InStep (π : Pairing) (f : Position → Position) (n : Nat) (g h : Rules) : Prop where
  place : ∀ {s t}, π.aligned s t → h.place t = f (g.place s)
  expr : π.Reads (Expr.map f id) 1 n g.expr h.expr
  unary : π.Reads (Expr.map f id) 1 n g.unary h.unary
  stmt : π.Reads (Stmt.map f id) 1 n g.stmt h.stmt
  stmts : π.Reads (List.map (Stmt.map f id)) 0 n g.stmts h.stmts
  branch : π.Reads (Stmt.map f id) 1 n g.branch h.branch

theorem negated_map (pos : Position) (e : Expr) :
    negated (f pos) (e.map f id) = (negated pos e).map f id := by
  cases e with
  | lit _ value => cases value <;> rfl
  | call _ receiver => cases receiver <;> rfl
  | _ => rfl

theorem join_map (left : Expr) (op : BinOp) (right : Expr) :
    join (left.map f id) op (right.map f id) = (join left op right).map f id := by
  rw [join, join, Expr.map, Expr.pos_map]

/-- One entry of a sequence, with what stands between it and the next. -/
def entry {α : Type} (p : Parser α) : Parser α := do
  let a ← p
  statementEnd
  breaks
  return a

namespace InStep

variable {n m : Nat} {g h : Rules} (hg : InStep π f n g h)

include hg

theorem here : π.Reads f 0 m g.here h.here := by
  intro s t hst _
  exact ⟨.ok (hg.place hst) hst, ⟨List.suffix_refl s, Nat.le_refl _⟩,
    ⟨List.suffix_refl t, Nat.le_refl _⟩⟩

theorem argument : π.Reads (Expr.map f id) 1 n g.argument h.argument := by
  refine hg.here.bind fun pos => (takes_char '*' rfl).reads.optional_bind (fun _ => ?_) hg.expr
  exact hg.expr.bind_left fun e => .of_eq rfl

theorem arguments : π.Reads (List.map (Expr.map f id)) 0 n
    (sepBy (comma space space) g.argument) (sepBy (comma space space) h.argument) :=
  .sepBy takes_comma_space.reads hg.argument id

theorem parenArgs : π.Starts (List.map (Expr.map f id)) 1 (n + 1) g.parenArgs h.parenArgs := by
  refine (takes_char '(' rfl).bind_read fun _ => takes_space.reads.bind fun _ => ?_
  refine hg.arguments.bind fun args => takes_space.reads.bind fun _ => ?_
  exact (takes_char ')' rfl).reads.bind fun _ => .of_eq rfl

theorem bareArgs : π.Reads (List.map (Expr.map f id)) 1 n g.bareArgs h.bareArgs :=
  .sepBy1 takes_comma_gap_space.reads hg.argument id

theorem closure :
    π.Reads (Prod.map id (Block.map f id)) 1 (n + 1) g.closure h.closure := by
  refine hg.here.bind fun pos => (takes_char '\x7b' rfl).reads.bind_read fun _ => ?_
  refine takes_space.reads.bind fun _ => ?_
  refine (reads_closureParams.orElse (.of_eq rfl)).bind fun params => ?_
  refine hg.stmts.bind fun statements => takes_space.reads.bind fun _ => ?_
  exact (takes_char '\x7d' rfl).reads.bind fun _ => .of_eq (by simp [Block.map_mk])

theorem closureExpr_aligned :
    π.Reads (Expr.map f id) 1 (n + 1) g.closureExpr h.closureExpr :=
  hg.here.bind fun _ => hg.closure.bind_left fun _ => .of_eq rfl

omit hg in
theorem closureExpr_fail {s : List Char} (hs : s.head? ≠ some '\x7b') :
    g.closureExpr s = .fail s := by
  have hbrace : char '\x7b' s = .fail s := by
    cases s with
    | nil => rfl
    | cons c s =>
      have hc : (c == '\x7b') = false := by
        rw [beq_eq_false_iff_ne]
        rintro rfl
        exact hs rfl
      simp [char, satisfy, hc]
  simp only [Rules.closureExpr, Rules.closure, Rules.here, run_bind, Outcome.andThen_ok, hbrace,
    Outcome.andThen_fail]

/-- A closure may be looked for behind a gap. At the end of a line there is none, wherever the two
texts stand there. -/
theorem closureExpr : π.Starts (Expr.map f id) 1 (n + 1) g.closureExpr h.closureExpr := by
  intro s t hst hn
  have hnone (hs : s.head? ≠ some '\x7b') (ht : t.head? ≠ some '\x7b') :
      (g.closureExpr s).Alike π.loose π.aligned (Expr.map f id) (h.closureExpr t) ∧
        (g.closureExpr s).Within 1 s ∧ (h.closureExpr t).Within 1 t := by
    rw [closureExpr_fail hs, closureExpr_fail ht]
    exact ⟨.fail hst, List.suffix_refl s, List.suffix_refl t⟩
  cases π.fronts hst with
  | nil => exact hnone (by simp) (by simp)
  | char hc here next => exact hg.closureExpr_aligned _ _ here hn
  | lineEnd hc hd =>
    have hbrace {c : Char} (hc : isLineEnd c = true) (s : List Char) :
        (c :: s).head? ≠ some '\x7b' := by
      intro heq
      cases heq
      cases hc
    exact hnone (hbrace hc _) (hbrace hd _)

theorem callArgs : π.Reads (Option.map (List.map (Expr.map f id))) 0 (n + 1)
    g.callArgs h.callArgs := by
  have hgap {m : Nat} : Parallel π.loose π.aligned π.loose id 0 m gap gap :=
    parallel_gap.reads
  refine ((hgap.bind fun _ => hg.parenArgs).optional id).bind fun args => ?_
  refine (hgap.bind fun _ => hg.closureExpr).optional_bind (fun last => ?_) (.of_eq rfl)
  cases args <;> exact .of_eq (by simp)

theorem parenthesized : π.Reads (Expr.map f id) 1 (n + 1) g.parenthesized h.parenthesized :=
  (takes_char '(' rfl).reads.bind_read fun _ => takes_space.reads.bind fun _ =>
    hg.expr.bind fun _ => takes_space.reads.bind fun _ =>
      (takes_char ')' rfl).reads.bind fun _ => .of_eq rfl

theorem listExpr : π.Reads (Expr.map f id) 1 (n + 1) g.listExpr h.listExpr := by
  refine hg.here.bind fun pos => (takes_char '[' rfl).reads.bind_read fun _ => ?_
  refine takes_space.reads.bind fun _ => hg.arguments.bind fun items => ?_
  refine takes_space.reads.bind fun _ => ((takes_char ',' rfl).reads.optional id).bind fun _ => ?_
  exact takes_space.reads.bind fun _ => (takes_char ']' rfl).reads.bind fun _ =>
    .of_eq Expr.map_list.symm

theorem construction : π.Reads (Expr.map f id) 1 (n + 1) g.construction h.construction := by
  refine hg.here.bind fun pos => (takes_keyword (by decide)).reads.bind_read fun _ => ?_
  refine parallel_gap1.reads.bind fun _ => ?_
  refine takes_qualifiedName.bind fun type => ?_
  refine parallel_gap.reads.bind fun _ => ?_
  exact (hg.parenArgs.restrict (Nat.le_succ n)).bind fun args => .of_eq Expr.map_construct.symm

theorem literal {p : Parser Literal} (hp : π.Reads id 1 m p p) :
    π.Reads (Expr.map f id) 1 m (g.literal p) (h.literal p) :=
  hg.here.bind fun _ => hp.bind_left fun _ => .of_eq rfl

theorem nameOrCall : π.Reads (Expr.map f id) 1 (n + 1) g.nameOrCall h.nameOrCall := by
  refine hg.here.bind fun pos => takes_name.reads.bind_left fun word => ?_
  refine hg.callArgs.bind fun args => ?_
  cases args with
  | none => exact .of_eq rfl
  | some args => exact .of_eq (by simp [Expr.map_call])

theorem primary : π.Reads (Expr.map f id) 1 (n + 1) g.primary h.primary := by
  have hstring {m : Nat} : π.Reads id 1 m (do return Literal.string (← stringLiteral))
      (do return Literal.string (← stringLiteral)) :=
    takes_stringLiteral.reads.bind_left fun _ => .of_eq rfl
  exact hg.parenthesized.orElse (hg.listExpr.orElse (hg.closureExpr_aligned.orElse
    ((hg.literal hstring).orElse ((hg.literal reads_number).orElse
      ((hg.literal takes_wordLiteral.reads).orElse (hg.construction.orElse hg.nameOrCall))))))

theorem suffix (e : Expr) : ParallelStep π.loose π.aligned π.aligned (Expr.map f id) n (g.suffix e)
    (h.suffix (e.map f id)) := by
  refine .optional_bind parallel_dot.reads (fun _ => ?_) ?_
  · refine takes_identifier.bind fun word => ?_
    refine (hg.callArgs.restrict (Nat.le_succ n)).bind fun args => ?_
    cases args with
    | none => exact .of_eq (by simp [Expr.map, Expr.pos_map])
    | some args => exact .of_eq (by simp [Expr.map_call, Expr.pos_map])
  · refine .optional_bind (takes_char '[' rfl).reads (fun _ => ?_) ?_
    · refine takes_space.reads.bind fun _ => hg.expr.bind fun index => ?_
      refine takes_space.reads.bind fun _ => (takes_char ']' rfl).reads.bind fun _ => ?_
      exact .of_eq (by simp [join_map])
    · refine .optional_bind parallel_castWord.reads (fun _ => ?_) .done
      exact (takes_qualifiedName.weaken (Nat.zero_le _)).bind fun type =>
        .of_eq (by simp [Expr.map, Expr.pos_map])

theorem postfixed : π.Reads (Expr.map f id) 1 (n + 1) g.postfixed h.postfixed :=
  hg.primary.bind_read fun first => .extend hg.suffix first

theorem signed : π.Reads (Expr.map f id) 1 (n + 1) g.signed h.signed := by
  refine hg.here.bind fun pos => ?_
  refine (takes_char '!' rfl).reads.optional_read (fun _ => ?_) ?_
  · exact takes_space.reads.bind fun _ =>
      (hg.unary.weaken (Nat.zero_le _)).bind fun e => .of_eq rfl
  · refine (takes_char '-' rfl).reads.optional_read (fun _ => ?_) hg.postfixed
    exact (hg.unary.weaken (Nat.zero_le _)).bind fun e => .of_eq (negated_map pos e)

omit hg in
theorem operation {operator : Parser BinOp} {p q : Parser Expr} (ho : ∀ {m}, π.Takes 1 m operator)
    (hp : π.Reads (Expr.map f id) 1 (n + 1) p q) (left : Expr) :
    ParallelStep π.loose π.aligned π.aligned (Expr.map f id) n (operation operator p left)
      (operation operator q (left.map f id)) := by
  refine .optional_bind (φ := Expr.map f id) (parallel_gap.reads.bind
    fun _ => ho) (fun op => ?_) .done
  exact takes_space.reads.bind fun _ => (hp.restrict (Nat.le_succ n)).bind fun right =>
    .of_eq (by simp [join_map])

omit hg in
theorem leftGrouped {operator : Parser BinOp} {p q : Parser Expr} (ho : ∀ {m}, π.Takes 1 m operator)
    (hp : π.Reads (Expr.map f id) 1 (n + 1) p q) :
    π.Reads (Expr.map f id) 1 (n + 1) (leftGrouped operator p) (leftGrouped operator q) :=
  hp.bind_read fun first => .extend (operation ho hp) first

theorem levels : ∀ {ops : List (Parser BinOp)}, (∀ op ∈ ops, ∀ {m}, π.Takes 1 m op) →
    π.Reads (Expr.map f id) 1 (n + 1) (g.levels ops) (h.levels ops)
  | [], _ => hg.signed
  | op :: _, ho =>
    leftGrouped (ho op List.mem_cons_self)
      (levels fun op' h' => ho op' (List.mem_cons_of_mem _ h'))

theorem assignment : π.Reads (Expr.map f id) 1 (n + 1) g.assignment h.assignment := by
  refine (hg.levels fun _ ho _ => takes_ladder ho).bind_read fun left => ?_
  refine (parallel_gap.reads.bind fun _ => takes_assignOp).optional_bind
    (fun op => ?_) (.of_eq rfl)
  exact takes_space.reads.bind fun _ => (hg.expr.weaken (Nat.zero_le _)).bind fun right =>
    .of_eq (join_map left op right)

omit hg in
theorem closed_eq {s t : List Char} (hst : π.aligned s t) : closed s = closed t := by
  cases π.fronts (π.loose_of_aligned hst) with
  | nil => rfl
  | char => rfl
  | lineEnd hc hd =>
    have hbrace {c : Char} (hc : isLineEnd c = true) (s : List Char) : closed (c :: s) = false := by
      rw [closed, beq_eq_false_iff_ne]
      rintro rfl
      cases hc
    rw [hbrace hc, hbrace hd]

omit hg in
theorem entry {α : Type} {φ : α → α} {p q : Parser α} (hp : π.Reads φ 1 m p q) :
    π.Reads φ 1 m (entry p) (entry q) :=
  hp.bind_left fun _ => parallel_statementEnd.reads.bind fun _ => takes_breaks.bind fun _ =>
    .of_eq rfl

omit hg in
theorem sequence {α : Type} {φ : α → α} {p q : Parser α} (hp : π.Reads φ 1 m p q) :
    π.Starts (List.map φ) 0 m (sequence p) (sequence q) :=
  takes_breaks.bind fun _ => .manyUntil closed_eq (entry hp)

theorem initializer :
    π.Reads (Option.map (Expr.map f id)) 0 (n + 1) g.initializer h.initializer :=
  takes_initMark.reads.optional_bind
    (fun _ => (hg.assignment.weaken (Nat.zero_le _)).bind fun _ => .of_eq rfl) (.of_eq rfl)

theorem declaration : π.Reads (Stmt.map f id) 1 (n + 1) g.declaration h.declaration := by
  refine hg.here.bind fun pos => ?_
  refine parallel_typeAhead.reads.bind_left fun type => ?_
  exact takes_name.bind fun word => hg.initializer.bind fun init => .of_eq Stmt.map_declare.symm

theorem command : π.Reads (Stmt.map f id) 1 (n + 1) g.command h.command := by
  refine hg.here.bind fun pos => takes_name.reads.bind_read fun word => ?_
  refine parallel_gap1.reads.bind fun _ => takes_startsArgument.bind fun _ => ?_
  exact hg.bareArgs.bind fun args => .of_eq (by simp [Stmt.map, Expr.map_call])

theorem returnStmt : π.Reads (Stmt.map f id) 1 (n + 1) g.returnStmt h.returnStmt := by
  refine hg.here.bind fun pos => (takes_keyword (by decide)).reads.bind_left fun _ => ?_
  refine takes_value.reads.optional_bind (fun _ => ?_) (.of_eq rfl)
  exact (hg.assignment.weaken (Nat.zero_le _)).bind fun e => .of_eq rfl

theorem block : π.Reads (Block.map f id) 1 (n + 1) g.block h.block := by
  refine hg.here.bind fun pos => (takes_char '\x7b' rfl).reads.bind_read fun _ => ?_
  refine hg.stmts.bind fun statements => takes_space.reads.bind fun _ => ?_
  exact (takes_char '\x7d' rfl).reads.bind fun _ => .of_eq Block.map_mk.symm

omit hg in
/-- Without a brace a body is one statement. -/
theorem body_eq {s : List Char} (hs : s.head? ≠ some '\x7b') : g.body s =
    (do let pos ← g.here; return ⟨pos, [← g.stmt]⟩ : Parser Block) s := by
  simp only [Rules.body, Rules.here, remaining, run_bind, Outcome.andThen_ok]
  split
  · exact absurd rfl hs
  · rw [run_bind]

theorem body : π.Reads (Block.map f id) 1 n g.body h.body := by
  have hsingle : π.Reads (Block.map f id) 1 n (do let pos ← g.here; return ⟨pos, [← g.stmt]⟩)
      (do let pos ← h.here; return ⟨pos, [← h.stmt]⟩) :=
    hg.here.bind fun pos => hg.stmt.bind_left fun s => .of_eq (by simp [Block.map_mk])
  intro s t hst hn
  have hone (hs : s.head? ≠ some '\x7b') (ht : t.head? ≠ some '\x7b') :
      (g.body s).Alike π.loose π.aligned (Block.map f id) (h.body t) ∧
        (g.body s).Within 1 s ∧ (h.body t).Within 1 t := by
    rw [body_eq hs, body_eq ht]
    exact hsingle s t hst hn
  cases π.fronts (π.loose_of_aligned hst) with
  | nil => exact hone (by simp) (by simp)
  | @char c s t hc here next =>
    by_cases hbrace : c = '\x7b'
    · subst hbrace
      exact hg.block _ _ here (Nat.lt_succ_of_lt hn)
    · exact hone (by simpa using hbrace) (by simpa using hbrace)
  | lineEnd hc hd =>
    have hbrace {c : Char} (hc : isLineEnd c = true) (s : List Char) :
        (c :: s).head? ≠ some '\x7b' := by
      intro heq
      cases heq
      cases hc
    exact hone (hbrace hc _) (hbrace hd _)

omit hg in
theorem otherwise_eq_branch {s : List Char} (hif : ∃ u rest, keyword "if" s = .ok u rest) :
    g.otherwise s = (do let pos ← g.here; return ⟨pos, [← g.branch]⟩ : Parser Block) s := by
  obtain ⟨u, rest, hif⟩ := hif
  simp only [Rules.otherwise, Rules.here, remaining, run_bind, Outcome.andThen_ok, hif]

omit hg in
theorem otherwise_eq_body {s : List Char} (hif : ¬ ∃ u rest, keyword "if" s = .ok u rest) :
    g.otherwise s = g.body s := by
  simp only [Rules.otherwise, Rules.here, remaining, run_bind, Outcome.andThen_ok]
  cases h : keyword "if" s with
  | ok u rest => exact absurd ⟨u, rest, h⟩ hif
  | fail => rfl
  | stop => rfl

theorem otherwise : π.Reads (Block.map f id) 1 n g.otherwise h.otherwise := by
  have hnested : π.Reads (Block.map f id) 1 n (do let pos ← g.here; return ⟨pos, [← g.branch]⟩)
      (do let pos ← h.here; return ⟨pos, [← h.branch]⟩) :=
    hg.here.bind fun pos => hg.branch.bind_left fun s => .of_eq (by simp [Block.map_mk])
  have hif : π.Takes 1 n (keyword "if") := takes_keyword (by decide)
  intro s t hst hn
  have hsame := (hif.reads s t hst hn).1.ok_iff
  by_cases hs : ∃ u rest, keyword "if" s = .ok u rest
  · rw [otherwise_eq_branch hs, otherwise_eq_branch (hsame.mp hs)]
    exact hnested s t hst hn
  · rw [otherwise_eq_body hs, otherwise_eq_body (mt hsame.mpr hs)]
    exact hg.body s t hst hn

theorem conditional : π.Reads (Stmt.map f id) 1 (n + 1) g.conditional h.conditional := by
  refine hg.here.bind fun pos => (takes_keyword (by decide)).reads.bind_read fun _ => ?_
  refine takes_space.reads.bind fun _ => (takes_char '(' rfl).reads.bind fun _ => ?_
  refine takes_space.reads.bind fun _ => ?_
  refine (hg.assignment.restrict (Nat.le_succ n)).bind fun cond => ?_
  refine takes_space.reads.bind fun _ => (takes_char ')' rfl).reads.bind fun _ => ?_
  refine takes_space.reads.bind fun _ => hg.body.bind fun body => ?_
  refine takes_elseWord.reads.optional_bind (fun _ => ?_) (.of_eq rfl)
  exact (hg.otherwise.weaken (Nat.zero_le _)).bind fun other => .of_eq rfl

theorem evaluation : π.Reads (Stmt.map f id) 1 (n + 1) g.evaluation h.evaluation :=
  hg.here.bind fun _ => hg.assignment.bind_left fun _ => .of_eq rfl

theorem statement : π.Reads (Stmt.map f id) 1 (n + 1) g.statement h.statement :=
  hg.conditional.orElse (hg.returnStmt.orElse (hg.declaration.orElse
    (hg.command.orElse hg.evaluation)))

theorem statements :
    π.Starts (List.map (Stmt.map f id)) 0 (n + 1) g.statements h.statements :=
  sequence hg.statement

theorem method : π.Reads (Method.map f id) 1 (n + 1) g.method h.method := by
  refine hg.here.bind fun pos => ?_
  refine parallel_modifiers.reads.bind fun words => ?_
  refine (parallel_typeAfter words).bind fun type => ?_
  refine takes_name.bind_left fun word => parallel_gap.reads.bind fun _ => ?_
  refine takes_params.bind fun params => takes_space.reads.bind fun _ => ?_
  exact (hg.block.weaken (Nat.zero_le _)).bind fun body => .of_eq rfl

theorem field : π.Reads (Field.map f id) 1 (n + 1) g.field h.field := by
  refine hg.here.bind fun pos => ?_
  refine parallel_modifiers.reads.bind fun words => ?_
  refine (parallel_typeAhead.optional id).bind fun type => ?_
  refine takes_name.bind_left fun word => hg.initializer.bind fun init => .of_eq ?_
  simp [Field.map]

theorem classMember : π.Reads (Sum.map (Field.map f id) (Method.map f id)) 1 (n + 1)
    g.classMember h.classMember := by
  refine Parallel.orElse ?_ ?_
  · exact hg.method.bind_left fun _ => .of_eq rfl
  · exact hg.field.bind_left fun _ => .of_eq rfl

theorem classDecl : π.Reads (ClassDecl.map f id) 1 (n + 1) g.classDecl h.classDecl := by
  refine hg.here.bind fun pos => ?_
  refine parallel_modifiers.reads.bind fun words => ?_
  refine (takes_keyword (by decide)).bind_left fun _ => ?_
  refine parallel_gap1.reads.bind fun _ => takes_identifier.bind fun word => ?_
  refine (takes_superclass.reads.optional id).bind fun super => ?_
  refine takes_space.reads.bind fun _ => (takes_char '\x7b' rfl).reads.bind fun _ => ?_
  refine (sequence hg.classMember).reads.bind fun members => ?_
  refine (takes_char '\x7d' rfl).reads.bind fun _ => .of_eq ?_
  have hfields (member : Field ⊕ Method) : (Sum.map (Field.map f id) (Method.map f id)
      member).getLeft? = member.getLeft?.map (Field.map f id) := by cases member <;> rfl
  have hmethods (member : Field ⊕ Method) : (Sum.map (Field.map f id) (Method.map f id)
      member).getRight? = member.getRight?.map (Method.map f id) := by cases member <;> rfl
  simp [ClassDecl.map, List.filterMap_map, List.map_filterMap, hfields, hmethods]

theorem item : π.Reads (Item.map f id) 1 (n + 1) g.item h.item := by
  refine Parallel.orElse ?_ (Parallel.orElse ?_ ?_)
  · exact hg.classDecl.bind_left fun _ => .of_eq rfl
  · exact hg.method.bind_left fun _ => .of_eq rfl
  · exact hg.statement.bind_left fun _ => .of_eq rfl

theorem script : π.Starts (Script.map f id) 0 (n + 1) g.script h.script :=
  (sequence hg.item).bind fun _ => .of_eq rfl

end InStep

/-- The rules tied by depth, with any rules at the bottom. -/
def deepened (bottom : Rules) : Nat → Rules
  | 0 => bottom
  | depth + 1 => {
      place := bottom.place
      expr := (deepened bottom depth).assignment
      unary := (deepened bottom depth).signed
      stmt := (deepened bottom depth).statement
      stmts := (deepened bottom depth).statements
      branch := (deepened bottom depth).conditional }

theorem deepened_place (bottom : Rules) (n : Nat) : (deepened bottom n).place = bottom.place := by
  cases n <;> rfl

theorem nested_eq_deepened (place : List Char → Position) (n : Nat) :
    nested place n = deepened (nested place 0) n := by
  induction n with
  | zero => rfl
  | succ n ih =>
    unfold nested
    simp only [ih]
    rfl

/-- Where the depth is enough on both sides, the bottom does not matter. -/
theorem inStep_deepened {bottom bottom' : Rules}
    (hplace : ∀ {s t}, π.aligned s t → bottom'.place t = f (bottom.place s)) {k n m : Nat}
    (hn : k ≤ n) (hm : k ≤ m) : InStep π f k (deepened bottom n) (deepened bottom' m) := by
  induction k generalizing n m with
  | zero =>
    refine ⟨?_, ?_, ?_, ?_, ?_, ?_⟩
    · intro s t hst
      rw [deepened_place, deepened_place]
      exact hplace hst
    all_goals
      intro s t _ hlen
      exact absurd hlen (Nat.not_lt_zero _)
  | succ k ih =>
    obtain ⟨n, rfl⟩ := Nat.exists_eq_succ_of_ne_zero (by omega : n ≠ 0)
    obtain ⟨m, rfl⟩ := Nat.exists_eq_succ_of_ne_zero (by omega : m ≠ 0)
    have hg := ih (n := n) (m := m) (by omega) (by omega)
    exact ⟨hplace, hg.assignment, hg.signed, hg.statement, hg.statements.reads, hg.conditional⟩

end QueryBlocks.Rules
