import QueryBlocks.Script.Read
import QueryBlocks.Proofs.Script.Lexeme

/-! The grammar gives valid trees only. -/
namespace QueryBlocks

open QueryBlocks.Parser

namespace Token

theorem ensures_satisfy (good : Char → Bool) : Ensures (satisfy good) fun c => good c = true := by
  intro s c rest h
  cases s with
  | nil => cases h
  | cons d s =>
    by_cases hd : good d
    · simp only [satisfy, hd, if_true, Outcome.ok.injEq] at h
      rw [← h.1]
      exact hd
    · simp [satisfy, hd] at h

theorem ensures_wordRest : Ensures wordRest fun cs => cs.all isWordChar = true := by
  intro s cs rest h
  cases h
  exact List.all_takeWhile

theorem ensures_identifier : Ensures identifier fun word => isIdentifier word = true := by
  refine (ensures_satisfy _).bind fun first hfirst => ensures_wordRest.bind fun more hmore => ?_
  refine .pure ?_
  rw [isIdentifier, String.toList_ofList, Bool.and_eq_true]
  exact ⟨hfirst, hmore⟩

theorem ensures_name : Ensures name fun word => isName word = true :=
  ensures_identifier.verify.mono fun word h => by
    rw [isName, Bool.and_eq_true]
    exact h

theorem ensures_qualifiedName : Ensures qualifiedName IsQualified := by
  refine ensures_identifier.bind fun first hfirst => ?_
  refine (Ensures.many (.after fun _ => ensures_identifier)).bind fun more hmore => ?_
  exact .pure ⟨first, more, rfl, hfirst, hmore⟩

theorem ensures_digits :
    Ensures digits fun cs => cs ≠ [] ∧ cs.all Char.isDigit = true := by
  intro s cs rest h
  unfold digits at h
  split at h
  · cases h
  · rename_i hne
    cases h
    exact ⟨hne, List.all_takeWhile⟩

theorem ensures_number : Ensures number Literal.Valid := by
  have hnumeral : Ensures numeral fun value => value.Valid ∨ ∃ n : Nat, value = .int n := by
    refine ensures_digits.bind fun whole hwhole => ?_
    refine (Ensures.optional (.after fun _ => ensures_digits)).bind fun fraction hfraction => ?_
    refine .after fun _ => ?_
    cases fraction with
    | none => exact .pure (.inr ⟨_, rfl⟩)
    | some fraction =>
      obtain ⟨hne, hall⟩ := hfraction fraction rfl
      refine .pure (.inl ⟨0, whole, fraction, ?_, hwhole.1, hwhole.2, hne, hall⟩)
      simp
  refine hnumeral.verify.mono ?_
  rintro value ⟨h | ⟨n, rfl⟩, hrange⟩
  · exact h
  · simpa [isInRange, Literal.Valid] using hrange

theorem ensures_wordLiteral : Ensures wordLiteral Literal.Valid :=
  (Ensures.after fun _ => .pure trivial).orElse
    ((Ensures.after fun _ => .pure trivial).orElse (.after fun _ => .pure trivial))

theorem firstSegment_of_array {base w : String} (hw : isIdentifier w = true)
    (h : firstSegment (base ++ "[]") = w) : firstSegment base = w := by
  rw [firstSegment, String.toList_append, List.takeWhile_append] at h
  split at h
  · -- without a dot in it the whole type would be a word
    have hall := all_isWordChar hw
    rw [← h] at hall
    simp [isWordChar] at hall
  · exact h

theorem typeName_eq_ok {s rest : List Char} {type : String} (h : typeName s = .ok type rest) :
    qualifiedName s = .ok type rest ∧ isTypeName type = true := verify_eq_ok.mp h

/-- A declared type was read off the text as a dotted name, perhaps with brackets. -/
theorem declaredType_eq_ok {s rest : List Char} {type : String}
    (h : Rules.declaredType s = .ok (some type) rest) :
    ∃ base mid, typeName s = .ok base mid ∧ (keyword "def" s).Failed ∧
      (type = base ∨ type = base ++ "[]") := by
  rw [Rules.declaredType, run_orElse, Outcome.or_eq_ok] at h
  rcases h with h | ⟨hdef, h⟩
  · rw [run_bind, Outcome.andThen_eq_ok] at h
    obtain ⟨_, _, _, h⟩ := h
    cases h
  · rw [run_bind, Outcome.andThen_eq_ok] at h
    obtain ⟨base, mid, hbase, h⟩ := h
    refine ⟨base, mid, hbase, ?_, ?_⟩
    · rw [run_bind] at hdef
      cases hk : keyword "def" s with
      | ok _ mid => simp [hk] at hdef
      | fail _ => trivial
      | stop _ => simp [hk] at hdef
    · rw [run_bind, Outcome.andThen_eq_ok] at h
      obtain ⟨found, _, _, h⟩ := h
      cases found with
      | none =>
        cases h
        exact .inl rfl
      | some _ =>
        cases h
        exact .inr rfl

theorem ensures_declaredType : Ensures Rules.declaredType fun type => ∀ t ∈ type, IsType t := by
  intro s type rest h t ht
  cases ht
  obtain ⟨base, mid, hbase, hdef, htype⟩ := declaredType_eq_ok h
  obtain ⟨hqual, hname⟩ := typeName_eq_ok hbase
  refine ⟨base, ensures_qualifiedName s base mid hqual, hname, fun hseg => ?_, htype⟩
  obtain ⟨after, hword, -⟩ := qualifiedName_eq_ok hqual
  rw [keyword_of_identifier (hseg ▸ hword)] at hdef
  exact hdef

theorem ensures_typeAhead : Ensures Rules.typeAhead fun type => ∀ t ∈ type, IsType t :=
  ensures_declaredType.bind fun _ ht => .after fun _ => .pure ht

/-- Where a type begins with the segment `return`, a return statement without a value is read. -/
theorem returnStmt_of_type (g : Rules) {s rest : List Char} {type : String}
    (h : Rules.typeAhead s = .ok (some type) rest) (hseg : firstSegment type = "return") :
    ¬ (g.returnStmt s).Failed := by
  rw [Rules.typeAhead, run_bind, Outcome.andThen_eq_ok] at h
  obtain ⟨found, mid, htype, h⟩ := h
  rw [run_bind, Outcome.andThen_eq_ok] at h
  obtain ⟨_, _, _, h⟩ := h
  cases h
  obtain ⟨base, mid, hbase, -, hshape⟩ := declaredType_eq_ok htype
  obtain ⟨hqual, hname⟩ := typeName_eq_ok hbase
  have hfirst : firstSegment base = "return" := by
    rcases hshape with rfl | rfl
    · exact hseg
    · exact firstSegment_of_array (by decide) hseg
  obtain ⟨after, hword, hafter⟩ := qualifiedName_eq_ok hqual
  rw [hfirst] at hword hafter
  rcases hafter with rfl | ⟨more, rfl⟩
  · exact absurd hname (by decide)
  · simp only [Rules.returnStmt, Rules.here, run_bind, Outcome.andThen_ok,
      keyword_of_identifier hword]
    exact id

end Token

namespace Rules

open QueryBlocks.Token

/-- The nested rules give valid trees. -/
structure Sound (g : Rules) : Prop where
  expr : Ensures g.expr (Expr.Valid IsType)
  unary : Ensures g.unary (Expr.Valid IsType)
  stmt : Ensures g.stmt (Stmt.Valid IsType)
  stmts : Ensures g.stmts (Stmt.ValidAll IsType)
  branch : Ensures g.branch (Stmt.Valid IsType)

end Rules

/-- An argument: an expression that may be spread. -/
def Expr.ValidArg (typeOk : String → Prop) : Expr → Prop
  | .spread _ e => e.Valid typeOk
  | e => e.Valid typeOk

variable {typeOk : String → Prop}

theorem Expr.ValidArg.of_valid {e : Expr} (h : e.Valid typeOk) : e.ValidArg typeOk := by
  cases e with
  | spread => exact h.elim
  | _ => exact h

theorem Expr.validAll_iff {es : List Expr} :
    Expr.ValidAll typeOk es ↔ ∀ e ∈ es, e.ValidArg typeOk := by
  induction es with
  | nil => simp [Expr.ValidAll]
  | cons e es ih =>
    rw [List.forall_mem_cons, ← ih]
    cases e <;> exact Iff.rfl

theorem Stmt.validAll_iff {ss : List Stmt} :
    Stmt.ValidAll typeOk ss ↔ ∀ s ∈ ss, s.Valid typeOk := by
  induction ss with
  | nil => simp [Stmt.ValidAll]
  | cons s ss ih => rw [List.forall_mem_cons, ← ih]; exact Iff.rfl

namespace Rules

open QueryBlocks.Token

theorem valid_negated {e : Expr} (pos : Position) (h : e.Valid typeOk) :
    (negated pos e).Valid typeOk := by
  cases e with
  | lit _ value =>
    cases value with
    | int n => simpa [negated, Expr.Valid, Literal.Valid] using h
    | decimal text =>
      obtain ⟨signs, whole, fraction, htext, hrest⟩ := h
      refine ⟨signs + 1, whole, fraction, ?_, hrest⟩
      rw [String.toList_append, htext, List.replicate_succ]
      rfl
    | _ => exact ⟨h, rfl⟩
  | _ => exact ⟨h, rfl⟩

namespace Sound

variable {g : Rules} (hg : g.Sound)

include hg

theorem argument : Ensures g.argument (Expr.ValidArg IsType) := by
  refine .after fun pos => .after fun star => ?_
  cases star with
  | none => exact hg.expr.mono fun _ => .of_valid
  | some _ => exact hg.expr.bind fun e he => .pure he

theorem parenArgs : Ensures g.parenArgs (Expr.ValidAll IsType) :=
  .after fun _ => .after fun _ => (Ensures.sepBy hg.argument).bind fun _ hargs =>
    .after fun _ => .after fun _ => .pure (Expr.validAll_iff.mpr hargs)

theorem bareArgs : Ensures g.bareArgs (Expr.ValidAll IsType) :=
  (Ensures.sepBy1 hg.argument).mono fun _ => Expr.validAll_iff.mpr

theorem closure : Ensures g.closure fun c =>
    (∀ p ∈ c.1, isName p = true) ∧ c.2.Valid IsType := by
  refine .after fun pos => .after fun _ => .after fun _ => ?_
  have hparams : Ensures (closureParams <|> pure []) fun ps => ∀ p ∈ ps, isName p = true := by
    refine Ensures.orElse ?_ (.pure fun _ hp => by cases hp)
    exact (Ensures.sepBy ensures_name).bind fun names hnames =>
      .after fun _ => .after fun _ => .after fun _ => .pure hnames
  refine hparams.bind fun params hp => hg.stmts.bind fun statements hs => ?_
  exact .after fun _ => .after fun _ => .pure ⟨hp, hs⟩

theorem closureExpr : Ensures g.closureExpr (Expr.Valid IsType) :=
  .after fun _ => hg.closure.bind fun _ h => .pure h

theorem callArgs : Ensures g.callArgs fun args => ∀ as ∈ args, Expr.ValidAll IsType as := by
  refine (Ensures.optional (.after fun _ => hg.parenArgs)).bind fun args hargs => ?_
  refine (Ensures.optional (.after fun _ => hg.closureExpr)).bind fun last hlast => ?_
  cases last with
  | none => exact .pure hargs
  | some last =>
    refine .pure fun as has => ?_
    cases has
    rw [Expr.validAll_iff]
    intro e he
    rcases List.mem_append.mp he with he | he
    · cases args with
      | none => cases he
      | some args => exact Expr.validAll_iff.mp (hargs args rfl) e he
    · rw [List.mem_singleton.mp he]
      exact .of_valid (hlast last rfl)

theorem listExpr : Ensures g.listExpr (Expr.Valid IsType) :=
  .after fun _ => .after fun _ => .after fun _ => (Ensures.sepBy hg.argument).bind
    fun _ hitems => .after fun _ => .after fun _ => .after fun _ => .after fun _ =>
      .pure (Expr.validAll_iff.mpr hitems)

theorem construction : Ensures g.construction (Expr.Valid IsType) :=
  .after fun _ => .after fun _ => .after fun _ => ensures_qualifiedName.bind fun _ ht =>
    .after fun _ => hg.parenArgs.bind fun _ hargs => .pure ⟨ht, hargs⟩

omit hg in
theorem literal {p : Parser Literal} (hp : Ensures p Literal.Valid) :
    Ensures (g.literal p) (Expr.Valid IsType) :=
  .after fun _ => hp.bind fun _ hv => .pure hv

theorem nameOrCall : Ensures g.nameOrCall (Expr.Valid IsType) := by
  refine .after fun pos => ensures_name.bind fun word hword => ?_
  refine hg.callArgs.bind fun args hargs => ?_
  cases args with
  | none => exact .pure hword
  | some args => exact .pure ⟨hword, hargs args rfl⟩

theorem primary : Ensures g.primary (Expr.Valid IsType) := by
  refine Ensures.orElse ?_ (hg.listExpr.orElse (hg.closureExpr.orElse (Ensures.orElse ?_
    ((literal ensures_number).orElse ((literal ensures_wordLiteral).orElse
      (hg.construction.orElse hg.nameOrCall))))))
  · exact .after fun _ => .after fun _ => hg.expr.bind fun _ he =>
      .after fun _ => .after fun _ => .pure he
  · exact literal (.after fun _ => .pure trivial)

theorem suffix (e : Expr) (he : e.Valid IsType) :
    Ensures (g.suffix e) fun o => ∀ e' ∈ o, e'.Valid IsType := by
  have hsome {e' : Expr} (h : e'.Valid IsType) : ∀ x ∈ some e', x.Valid IsType := by
    intro x hx
    cases hx
    exact h
  refine .after fun found => ?_
  split
  · refine ensures_identifier.bind fun word hword => hg.callArgs.bind fun args hargs => ?_
    cases args with
    | none => exact .pure (hsome ⟨he, hword⟩)
    | some args => exact .pure (hsome ⟨he, hword, hargs args rfl⟩)
  · refine .after fun found => ?_
    split
    · exact .after fun _ => hg.expr.bind fun index hi => .after fun _ => .after fun _ =>
        .pure (hsome ⟨he, hi⟩)
    · refine .after fun found => ?_
      split
      · exact ensures_qualifiedName.bind fun type ht => .pure (hsome ⟨he, ht⟩)
      · exact .pure fun _ hx => by cases hx

theorem postfixed : Ensures g.postfixed (Expr.Valid IsType) :=
  hg.primary.bind fun _ hfirst => .extend hg.suffix hfirst

theorem signed : Ensures g.signed (Expr.Valid IsType) := by
  refine .after fun pos => .after fun found => ?_
  split
  · exact .after fun _ => hg.unary.bind fun e he => .pure he
  · refine .after fun found => ?_
    split
    · exact hg.unary.bind fun e he => .pure (valid_negated pos he)
    · exact hg.postfixed

omit hg in
theorem leftGrouped {operator : Parser BinOp} {p : Parser Expr}
    (hp : Ensures p (Expr.Valid IsType)) :
    Ensures (leftGrouped operator p) (Expr.Valid IsType) := by
  refine hp.bind fun first hfirst => .extend (fun left hleft => ?_) hfirst
  refine .after fun op => ?_
  cases op with
  | none => exact .pure fun _ hx => by cases hx
  | some op =>
    refine .after fun _ => hp.bind fun right hright => .pure fun x hx => ?_
    cases hx
    exact ⟨hleft, hright⟩

theorem levels : ∀ ops : List (Parser BinOp), Ensures (g.levels ops) (Expr.Valid IsType)
  | [] => hg.signed
  | _ :: ops => leftGrouped (levels ops)

theorem assignment : Ensures g.assignment (Expr.Valid IsType) := by
  refine (hg.levels ladder).bind fun left hleft => .after fun op => ?_
  cases op with
  | none => exact .pure hleft
  | some op => exact .after fun _ => hg.expr.bind fun right hright => .pure ⟨hleft, hright⟩

omit hg in
theorem sequence {α : Type} {p : Parser α} {P : α → Prop} (hp : Ensures p P) :
    Ensures (sequence p) fun as => ∀ a ∈ as, P a :=
  .after fun _ => .manyUntil (hp.bind fun _ ha => .after fun _ => .after fun _ => .pure ha)

theorem initializer : Ensures g.initializer fun init => ∀ e ∈ init, e.Valid IsType := by
  refine .after fun found => ?_
  cases found with
  | none => exact .pure fun _ hx => by cases hx
  | some _ =>
    refine hg.assignment.bind fun e he => .pure fun x hx => ?_
    cases hx
    exact he

theorem block : Ensures g.block (Block.Valid IsType) :=
  .after fun _ => .after fun _ => hg.stmts.bind fun _ hs => .after fun _ => .after fun _ =>
    .pure hs

theorem body : Ensures g.body (Block.Valid IsType) := by
  refine .after fun pos => .after fun next => ?_
  split
  · exact hg.block
  · exact hg.stmt.bind fun s hs => .pure ⟨hs, trivial⟩

theorem otherwise : Ensures g.otherwise (Block.Valid IsType) := by
  refine .after fun pos => .after fun next => ?_
  split
  · exact hg.branch.bind fun s hs => .pure ⟨hs, trivial⟩
  · exact hg.body

theorem conditional : Ensures g.conditional (Stmt.Valid IsType) := by
  refine .after fun _ => .after fun _ => .after fun _ => .after fun _ => .after fun _ => ?_
  refine hg.assignment.bind fun cond hc => .after fun _ => .after fun _ => .after fun _ => ?_
  refine hg.body.bind fun body hb => .after fun found => ?_
  cases found with
  | none => exact .pure ⟨hc, hb⟩
  | some _ => exact hg.otherwise.bind fun other ho => .pure ⟨hc, hb, ho⟩

theorem returnStmt : Ensures g.returnStmt (Stmt.Valid IsType) := by
  refine .after fun pos => .after fun _ => .after fun value => ?_
  cases value with
  | none => exact .pure trivial
  | some _ => exact hg.assignment.bind fun e he => .pure he

theorem command : Ensures g.command (Stmt.Valid IsType) :=
  .after fun _ => ensures_name.bind fun _ hword => .after fun _ => .after fun _ =>
    hg.bareArgs.bind fun _ hargs => .pure ⟨hword, hargs⟩

theorem evaluation : Ensures g.evaluation (Stmt.Valid IsType) :=
  .after fun _ => hg.assignment.bind fun _ he => .pure he

/-- A declaration is only read where no return statement was. -/
theorem declaration_of_failed {s rest : List Char} {stmt : Stmt}
    (h : g.declaration s = .ok stmt rest) (hret : (g.returnStmt s).Failed) :
    stmt.Valid IsType := by
  rw [Rules.declaration, run_bind, Outcome.andThen_eq_ok] at h
  obtain ⟨pos, _, hpos, h⟩ := h
  cases hpos
  rw [run_bind, Outcome.andThen_eq_ok] at h
  obtain ⟨type, mid, htype, h⟩ := h
  have htypes : ∀ t ∈ type, IsType t ∧ firstSegment t ≠ "return" := by
    intro t ht
    refine ⟨ensures_typeAhead _ _ _ htype t ht, fun hseg => ?_⟩
    cases ht
    exact returnStmt_of_type g htype hseg hret
  have hrest : Ensures (do
      let word ← name
      return Stmt.declare (g.place s) type word (← g.initializer)) (Stmt.Valid IsType) := by
    refine ensures_name.bind fun word hword => hg.initializer.bind fun init hinit => ?_
    cases init with
    | none => exact .pure ⟨htypes, hword⟩
    | some e => exact .pure ⟨htypes, hword, hinit e rfl⟩
  exact hrest mid stmt rest h

theorem statement : Ensures g.statement (Stmt.Valid IsType) := by
  intro s stmt rest h
  rw [Rules.statement, run_orElse, Outcome.or_eq_ok] at h
  rcases h with h | ⟨-, h⟩
  · exact hg.conditional s stmt rest h
  · rw [run_orElse, Outcome.or_eq_ok] at h
    rcases h with h | ⟨hret, h⟩
    · exact hg.returnStmt s stmt rest h
    · rw [run_orElse, Outcome.or_eq_ok] at h
      rcases h with h | ⟨-, h⟩
      · exact hg.declaration_of_failed h hret
      · exact (hg.command.orElse hg.evaluation) s stmt rest h

theorem statements : Ensures g.statements (Stmt.ValidAll IsType) :=
  (sequence hg.statement).mono fun _ => Stmt.validAll_iff.mpr

omit hg in
theorem modifiers : Ensures Rules.modifiers fun words => ∀ w ∈ words, w ∈ modifierWords :=
  .many (ensures_identifier.verify.bind fun word hword => .after fun _ =>
    .pure (by simpa using hword.2))

omit hg in
theorem params : Ensures Rules.params fun names => ∀ p ∈ names, isName p = true :=
  .after fun _ => .after fun _ => (Ensures.sepBy (.after fun _ => ensures_name)).bind
    fun _ hnames => .after fun _ => .after fun _ => .pure hnames

omit hg in
theorem typeAhead_join : Ensures (do return (← optional typeAhead).join)
    fun type => ∀ t ∈ type, IsType t := by
  refine ensures_typeAhead.optional.bind fun found hfound => .pure fun t ht => ?_
  cases found with
  | none => cases ht
  | some type => exact hfound type rfl t ht

omit hg in
theorem typeAfter (words : List String) : Ensures (typeAfter words)
    fun type => ∀ t ∈ type, IsType t := by
  unfold Rules.typeAfter
  split
  · exact ensures_typeAhead
  · exact typeAhead_join

theorem method : Ensures g.method (Method.Valid IsType) :=
  .after fun _ => modifiers.bind fun words hwords => (typeAfter words).bind fun _ htype =>
    ensures_name.bind fun _ hname => .after fun _ => params.bind fun _ hparams =>
      .after fun _ => hg.block.bind fun _ hbody => .pure ⟨hwords, htype, hname, hparams, hbody⟩

theorem field : Ensures g.field (Field.Valid IsType) := by
  refine .after fun _ => modifiers.bind fun words hwords => ?_
  refine ensures_typeAhead.optional.bind fun type htype => ensures_name.bind fun word hword => ?_
  refine hg.initializer.bind fun init hinit => .pure ⟨hwords, fun t ht => ?_, hword, hinit⟩
  cases type with
  | none => cases ht
  | some type => exact htype type rfl t ht

theorem classMember : Ensures g.classMember
    (Sum.elim (Field.Valid IsType) (Method.Valid IsType)) :=
  .orElse (hg.method.bind fun _ hm => .pure hm) (hg.field.bind fun _ hf => .pure hf)

theorem classDecl : Ensures g.classDecl (ClassDecl.Valid IsType) := by
  refine .after fun pos => modifiers.bind fun words hwords => .after fun _ => .after fun _ => ?_
  refine ensures_identifier.bind fun word hword => ?_
  have hsuper : Ensures Rules.superclass IsQualified :=
    .after fun _ => .after fun _ => .after fun _ => ensures_qualifiedName
  refine hsuper.optional.bind fun super hs => .after fun _ => .after fun _ => ?_
  refine (sequence hg.classMember).bind fun members hmembers => .after fun _ => ?_
  refine .pure ⟨hwords, hword, hs, fun f hf => ?_, fun m hm => ?_⟩
  · obtain ⟨member, hmem, hget⟩ := List.mem_filterMap.mp hf
    rw [Sum.getLeft?_eq_some_iff] at hget
    subst hget
    exact hmembers _ hmem
  · obtain ⟨member, hmem, hget⟩ := List.mem_filterMap.mp hm
    rw [Sum.getRight?_eq_some_iff] at hget
    subst hget
    exact hmembers _ hmem

theorem item : Ensures g.item (Item.Valid IsType) :=
  .orElse (hg.classDecl.bind fun _ hc => .pure hc) (.orElse
    (hg.method.bind fun _ hm => .pure hm) (hg.statement.bind fun _ hs => .pure hs))

theorem script : Ensures g.script (Script.Valid IsType) :=
  (sequence hg.item).bind fun _ hitems => .pure hitems

end Sound

theorem sound_nested (place : List Char → Position) (n : Nat) : (nested place n).Sound := by
  induction n with
  | zero => exact ⟨.fail, .fail, .fail, .fail, .fail⟩
  | succ n ih =>
    exact ⟨ih.assignment, ih.signed, ih.statement, ih.statements, ih.conditional⟩

end Rules

section

variable {α : Type} {source : Source} {outcome : Outcome α} {a : α}

theorem Source.finish_eq_ok (h : source.finish outcome = .ok a) :
    ∃ rest, outcome = .ok a rest ∧ Token.skip Token.isBreak rest = [] := by
  cases outcome with
  | ok b rest =>
    cases hs : Token.skip Token.isBreak rest with
    | nil =>
      simp only [Source.finish, hs, Except.ok.injEq] at h
      subst h
      exact ⟨rest, rfl, hs⟩
    | cons c more => simp [Source.finish, hs] at h
  | fail place => cases h
  | stop place => cases h

end

/-- What passes a check has come out. -/
theorem exists_ok {ε α : Type} {x : Except ε α} {p : α → Prop} [DecidablePred p]
    (h : x.toOption.any (decide <| p ·) = true) : ∃ a, x = .ok a ∧ p a := by
  cases x with
  | error e => cases h
  | ok a => exact ⟨a, rfl, of_decide_eq_true h⟩

theorem Script.valid_of_read {text : String} {script : Script}
    (h : Script.read text = .ok script) : script.Valid Token.IsType := by
  obtain ⟨rest, hrun, -⟩ := Source.finish_eq_ok h
  exact (Rules.sound_nested _ _).script _ _ _ hrun

theorem Block.valid_of_read {text : String} {block : Block}
    (h : Block.read text = .ok block) : block.Valid Token.IsType := by
  cases hs : (Source.ofString text).finish
      ((Source.ofString text).rules.statements (Source.ofString text).text) with
  | error e => simp [Block.read, hs, Except.map] at h
  | ok statements =>
    simp only [Block.read, hs, Except.map, Except.ok.injEq] at h
    subst h
    obtain ⟨rest, hrun, -⟩ := Source.finish_eq_ok hs
    exact (Rules.sound_nested _ _).statements _ _ _ hrun

theorem Expr.valid_of_read {text : String} {e : Expr} (h : Expr.read text = .ok e) :
    e.Valid Token.IsType := by
  obtain ⟨rest, hrun, -⟩ := Source.finish_eq_ok h
  exact (Rules.sound_nested _ _).assignment _ _ _ hrun

end QueryBlocks
