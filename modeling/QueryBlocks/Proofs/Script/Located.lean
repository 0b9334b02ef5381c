import QueryBlocks.Proofs.Parser.Gives
import QueryBlocks.Proofs.Position
import QueryBlocks.Proofs.Script.Advance
import QueryBlocks.Proofs.Script.Part
import QueryBlocks.Proofs.Script.Sound

/-!
Where the parts of a script stand. Every part that is read begins at an end of the text, and what it
is made of begins no earlier. An expression may begin at the place of its first operand, so a part
is known to begin between the text it was read from and the text that is left.
-/
namespace QueryBlocks

open QueryBlocks.Parser QueryBlocks.Token

namespace Part

/-- The part begins at an end of `s`, and all that it is made of begins behind that. -/
inductive Lies (place : List Char → Position) : List Char → Part → Prop
  | mk {s u : List Char} {n : Part} (hu : u <:+ s) (hpos : n.pos? = some (place u))
    (hchildren : ∀ c ∈ n.children, Lies place u c) : Lies place s n

/-- The part begins no later than at `rest`, too. -/
def Begins (place : List Char → Position) (s rest : List Char) (n : Part) : Prop :=
  ∃ u, u <:+ s ∧ rest <:+ u ∧ n.pos? = some (place u) ∧ ∀ c ∈ n.children, c.Lies place u

variable {place : List Char → Position} {s t rest mid : List Char} {n : Part}

theorem Lies.widen (h : n.Lies place s) (hs : s <:+ t) : n.Lies place t := by
  obtain ⟨hu, hpos, hchildren⟩ := h
  exact .mk (hu.trans hs) hpos hchildren

theorem Begins.lies (h : n.Begins place s rest) : n.Lies place s := by
  obtain ⟨u, hu, -, hpos, hchildren⟩ := h
  exact .mk hu hpos hchildren

theorem Begins.widen (h : n.Begins place s rest) (hs : s <:+ t) : n.Begins place t rest := by
  obtain ⟨u, hu, hrest, hpos, hchildren⟩ := h
  exact ⟨u, hu.trans hs, hrest, hpos, hchildren⟩

theorem Begins.later (h : n.Begins place s mid) (hrest : rest <:+ mid) :
    n.Begins place s rest := by
  obtain ⟨u, hu, hmid, hpos, hchildren⟩ := h
  exact ⟨u, hu, hrest.trans hmid, hpos, hchildren⟩

/-- A part that takes its place from its first child, with further children behind it. -/
theorem Begins.grow {first : Part} (h : first.Begins place s mid) (hrest : rest <:+ mid)
    (hpos : n.pos? = first.pos?)
    (hchildren : ∀ c ∈ n.children, c = first ∨ c.Lies place mid) : n.Begins place s rest := by
  obtain ⟨u, hu, hmid, hfirst, hlies⟩ := h
  refine ⟨u, hu, hrest.trans hmid, hpos.trans hfirst, ?_⟩
  intro c hc
  rcases hchildren c hc with rfl | hc
  · exact .mk (List.suffix_refl u) hfirst hlies
  · exact hc.widen hmid

end Part

namespace Rules

open QueryBlocks.Part

variable {place : List Char → Position} {base : List Char}

/-- The rules for nested text read parts that lie where they were read. -/
structure Located (g : Rules) : Prop where
  expr : ∀ {base}, Gives base g.expr fun e rest => (Part.expr e).Begins g.place base rest
  unary : ∀ {base}, Gives base g.unary fun e rest => (Part.expr e).Begins g.place base rest
  stmt : ∀ {base}, Gives base g.stmt fun s _ => (Part.stmt s).Lies g.place base
  stmts : ∀ {base}, Gives base g.stmts fun ss _ => ∀ s ∈ ss, (Part.stmt s).Lies g.place base
  branch : ∀ {base}, Gives base g.branch fun s _ => (Part.stmt s).Lies g.place base

/-- What begins here is read from here on. -/
theorem gives_here {α : Type} {g : Rules} {f : Position → Parser α} {P : α → List Char → Prop}
    (h : ∀ s, s <:+ base → Gives s (f (g.place s)) P) : Gives base (g.here >>= f) P :=
  fun s hs => h s hs s (List.suffix_refl s)

/-- A part that begins where its rule does. -/
theorem gives_pure {α : Type} {node : α → Part} {a : α} {s : List Char} (hs : s <:+ base)
    (hpos : (node a).pos? = some (place s)) (hchildren : ∀ c ∈ (node a).children, c.Lies place s) :
    Gives s (pure a) fun a rest => (node a).Begins place base rest :=
  .pure fun _ hrest => ⟨s, hs, hrest, hpos, hchildren⟩

theorem pos_negated (pos : Position) (e : Expr) : (negated pos e).pos = pos := by
  cases e with
  | lit _ value => cases value <;> rfl
  | _ => rfl

theorem children_negated (pos : Position) (e : Expr) {c : Part}
    (h : c ∈ (Part.expr (negated pos e)).children) : c = .expr e := by
  have hone (h : c ∈ [Part.expr e]) : c = .expr e := List.mem_singleton.mp h
  cases e with
  | lit _ value =>
    cases value with
    | int | decimal => cases h
    | null | bool | string => exact hone h
  | _ => exact hone h

namespace Located

variable {g : Rules} (hg : g.Located)

include hg

theorem lies_expr : Gives base g.expr fun e _ => (Part.expr e).Lies g.place base :=
  hg.expr.mono fun _ _ => Begins.lies

theorem argument : Gives base g.argument fun e _ => (Part.expr e).Lies g.place base := by
  refine gives_here fun s hs => .after (advances_char '*').optional fun star => ?_
  cases star with
  | none => exact hg.lies_expr.mono fun _ _ he => he.widen hs
  | some _ =>
    refine hg.lies_expr.andThen fun e _ he => .pure fun _ _ => .mk hs rfl ?_
    exact List.forall_mem_singleton.mpr he

theorem arguments : Gives base (sepBy (comma space space) g.argument)
    fun es _ => ∀ c ∈ es.map Part.expr, c.Lies g.place base :=
  (Gives.sepBy (advances_comma advances_space advances_space) hg.argument).mono
    fun _ _ => List.forall_mem_map.mpr

theorem parenArgs :
    Gives base g.parenArgs fun es _ => ∀ c ∈ es.map Part.expr, c.Lies g.place base :=
  .after (advances_char '(') fun _ => .after advances_space fun _ =>
    hg.arguments.andThen fun _ _ hargs => .after advances_space fun _ =>
      .after (advances_char ')') fun _ => .pure fun _ _ => hargs

theorem bareArgs :
    Gives base g.bareArgs fun es _ => ∀ c ∈ es.map Part.expr, c.Lies g.place base :=
  (Gives.sepBy1 (advances_comma advances_gap advances_space) hg.argument).mono
    fun _ _ => List.forall_mem_map.mpr

theorem closure : Gives base g.closure fun c _ => (Part.block c.2).Lies g.place base := by
  refine gives_here fun s hs => .after (advances_char '\x7b') fun _ => ?_
  refine .after advances_space fun _ => .after (advances_closureParams.orElse (.pure _)) fun _ => ?_
  refine hg.stmts.andThen fun statements _ hstmts => ?_
  refine .after advances_space fun _ => .after (advances_char '\x7d') fun _ => ?_
  exact .pure fun _ _ => .mk hs rfl (List.forall_mem_map.mpr hstmts)

theorem closureExpr :
    Gives base g.closureExpr fun e rest => (Part.expr e).Begins g.place base rest :=
  gives_here fun _ hs => hg.closure.andThen fun _ _ hbody =>
    gives_pure hs rfl (List.forall_mem_singleton.mpr hbody)

theorem callArgs : Gives base g.callArgs
    fun args _ => ∀ es ∈ args, ∀ c ∈ es.map Part.expr, c.Lies g.place base := by
  refine (Gives.optional (.after advances_gap fun _ => hg.parenArgs)).andThen
    fun args _ hargs => ?_
  refine (Gives.optional (.after advances_gap fun _ => hg.closureExpr)).andThen
    fun last _ hlast => ?_
  cases last with
  | none => exact .pure fun _ _ => hargs
  | some last =>
    refine .pure fun _ _ es hes => ?_
    cases hes
    rw [List.map_append, List.forall_mem_append]
    constructor
    · cases args with
      | none => exact fun c hc => by cases hc
      | some args => exact hargs args rfl
    · exact List.forall_mem_singleton.mpr (hlast last rfl).lies

theorem parenthesized :
    Gives base g.parenthesized fun e rest => (Part.expr e).Begins g.place base rest :=
  .after (advances_char '(') fun _ => .after advances_space fun _ =>
    hg.expr.bind fun _ _ _ he => .after advances_space fun _ =>
      .after (advances_char ')') fun _ => .pure fun _ hrest => he.later hrest

theorem listExpr : Gives base g.listExpr fun e rest => (Part.expr e).Begins g.place base rest := by
  refine gives_here fun s hs => .after (advances_char '[') fun _ => ?_
  refine .after advances_space fun _ => hg.arguments.andThen fun items _ hitems => ?_
  refine .after advances_space fun _ => .after (advances_char ',').optional fun _ => ?_
  exact .after advances_space fun _ => .after (advances_char ']') fun _ =>
    gives_pure hs rfl hitems

theorem construction :
    Gives base g.construction fun e rest => (Part.expr e).Begins g.place base rest := by
  refine gives_here fun s hs => .after (advances_keyword (by decide)) fun _ => ?_
  refine .after advances_gap1 fun _ => .after advances_qualifiedName fun type => ?_
  exact .after advances_gap fun _ => hg.parenArgs.andThen fun args _ hargs =>
    gives_pure hs rfl hargs

omit hg in
theorem literal {k : Nat} {p : Parser Literal} (hp : Advances k p) :
    Gives base (g.literal p) fun e rest => (Part.expr e).Begins g.place base rest :=
  gives_here fun _ hs => .after hp fun _ => gives_pure hs rfl fun _ hc => by cases hc

theorem nameOrCall :
    Gives base g.nameOrCall fun e rest => (Part.expr e).Begins g.place base rest := by
  refine gives_here fun s hs => .after advances_name fun word => ?_
  refine hg.callArgs.andThen fun args _ hargs => ?_
  cases args with
  | none => exact gives_pure hs rfl fun _ hc => by cases hc
  | some args => exact gives_pure hs rfl (hargs args rfl)

theorem primary : Gives base g.primary fun e rest => (Part.expr e).Begins g.place base rest := by
  have hstring : Advances 1 (do return Literal.string (← stringLiteral)) :=
    advances_stringLiteral.bind_read fun _ => .pure _
  exact hg.parenthesized.orElse (hg.listExpr.orElse (hg.closureExpr.orElse
    ((literal hstring).orElse ((literal advances_number).orElse
      ((literal advances_wordLiteral).orElse (hg.construction.orElse hg.nameOrCall))))))

/-- A member, an index or a cast begins where the operand before it does. -/
theorem suffix {e : Expr} {mid : List Char} (he : (Part.expr e).Begins g.place base mid) :
    Gives mid (g.suffix e) fun o rest => (Part.expr (o.getD e)).Begins g.place base rest := by
  refine .after advances_dot.optional fun found => ?_
  split
  · refine .after advances_identifier fun word => hg.callArgs.andThen fun args _ hargs => ?_
    cases args with
    | none =>
      refine .pure fun _ hrest => he.grow hrest rfl ?_
      exact List.forall_mem_singleton.mpr (.inl rfl)
    | some args =>
      refine .pure fun _ hrest => he.grow hrest rfl ?_
      exact List.forall_mem_cons.mpr ⟨.inl rfl, fun c hc => .inr (hargs args rfl c hc)⟩
  · refine .after (advances_char '[').optional fun found => ?_
    split
    · refine .after advances_space fun _ => hg.lies_expr.andThen fun index _ hindex => ?_
      refine .after advances_space fun _ => .after (advances_char ']') fun _ => ?_
      refine .pure fun _ hrest => he.grow hrest rfl ?_
      exact List.forall_mem_cons.mpr ⟨.inl rfl, List.forall_mem_singleton.mpr (.inr hindex)⟩
    · refine .after advances_castWord.optional fun found => ?_
      split
      · refine .after advances_qualifiedName fun type => .pure fun _ hrest => ?_
        exact he.grow hrest rfl (List.forall_mem_singleton.mpr (.inl rfl))
      · exact .pure fun _ hrest => he.later hrest

theorem postfixed :
    Gives base g.postfixed fun e rest => (Part.expr e).Begins g.place base rest := by
  refine hg.primary.bind fun first mid _ hfirst => ?_
  apply Gives.extend
  · intro e mid he
    exact hg.suffix he
  · intro e mid rest he hrest
    exact he.later hrest
  · exact hfirst

theorem signed : Gives base g.signed fun e rest => (Part.expr e).Begins g.place base rest := by
  have hunary {s : List Char} : Gives s g.unary fun e _ => (Part.expr e).Lies g.place s :=
    hg.unary.mono fun _ _ => Begins.lies
  refine gives_here fun s hs => .after (advances_char '!').optional fun found => ?_
  split
  · exact .after advances_space fun _ => hunary.andThen fun e _ he =>
      gives_pure hs rfl (List.forall_mem_singleton.mpr he)
  · refine .after (advances_char '-').optional fun found => ?_
    split
    · refine hunary.andThen fun e _ he => gives_pure hs (congrArg some (pos_negated _ e)) ?_
      intro c hc
      rw [children_negated _ e hc]
      exact he
    · exact hg.postfixed.mono fun _ _ he => he.widen hs

omit hg in
/-- An operation begins where its left operand does. -/
theorem leftGrouped {operator : Parser BinOp} {p : Parser Expr} (ho : Advances 1 operator)
    (hp : ∀ {base}, Gives base p fun e rest => (Part.expr e).Begins place base rest) :
    Gives base (leftGrouped operator p) fun e rest => (Part.expr e).Begins place base rest := by
  refine hp.bind fun first mid _ hfirst => ?_
  apply Gives.extend
  · intro left mid hleft
    refine .after (advances_gap.bind fun _ => ho).optional fun op => ?_
    cases op with
    | none => exact .pure fun _ hrest => hleft.later hrest
    | some op =>
      refine .after advances_space fun _ => hp.andThen fun right _ hright => ?_
      refine .pure fun _ hrest => hleft.grow hrest rfl ?_
      exact List.forall_mem_cons.mpr ⟨.inl rfl, List.forall_mem_singleton.mpr (.inr hright.lies)⟩
  · intro e mid rest he hrest
    exact he.later hrest
  · exact hfirst

theorem levels : ∀ {ops : List (Parser BinOp)}, (∀ op ∈ ops, Advances 1 op) → ∀ {base},
    Gives base (g.levels ops) fun e rest => (Part.expr e).Begins g.place base rest
  | [], _, _ => hg.signed
  | op :: _, ho, _ =>
    leftGrouped (ho op List.mem_cons_self) (levels fun op' h' => ho op' (List.mem_cons_of_mem _ h'))

theorem assignment :
    Gives base g.assignment fun e rest => (Part.expr e).Begins g.place base rest := by
  refine (hg.levels fun _ => advances_ladder).bind fun left mid _ hleft => ?_
  refine .after (advances_gap.bind fun _ => advances_assignOp).optional fun op => ?_
  cases op with
  | none => exact .pure fun _ hrest => hleft.later hrest
  | some op =>
    refine .after advances_space fun _ => hg.lies_expr.andThen fun right _ hright => ?_
    refine .pure fun _ hrest => hleft.grow hrest rfl ?_
    exact List.forall_mem_cons.mpr ⟨.inl rfl, List.forall_mem_singleton.mpr (.inr hright)⟩

theorem lies_assignment : Gives base g.assignment fun e _ => (Part.expr e).Lies g.place base :=
  hg.assignment.mono fun _ _ => Begins.lies

omit hg in
theorem sequence {α : Type} {p : Parser α} {good : α → Prop} (hp : Gives base p fun a _ => good a) :
    Gives base (sequence p) fun as _ => ∀ a ∈ as, good a :=
  .after advances_breaks fun _ => .manyUntil (hp.andThen fun _ _ ha =>
    .after advances_statementEnd fun _ => .after advances_breaks fun _ => .pure fun _ _ => ha)

theorem initializer : Gives base g.initializer
    fun init _ => ∀ c ∈ init.toList.map Part.expr, c.Lies g.place base := by
  refine .after advances_initMark.optional fun found => ?_
  cases found with
  | none => exact .pure fun _ _ _ hc => by cases hc
  | some _ =>
    exact hg.lies_assignment.andThen fun e _ he => .pure fun _ _ =>
      List.forall_mem_singleton.mpr he

theorem declaration : Gives base g.declaration fun s _ => (Part.stmt s).Lies g.place base :=
  gives_here fun _ hs => .after advances_typeAhead fun _ => .after advances_name fun _ =>
    hg.initializer.andThen fun _ _ hinit => .pure fun _ _ => .mk hs rfl hinit

theorem command : Gives base g.command fun s _ => (Part.stmt s).Lies g.place base := by
  refine gives_here fun s hs => .after advances_name fun word => .after advances_gap1 fun _ => ?_
  refine .after advances_startsArgument fun _ => hg.bareArgs.andThen fun args _ hargs => ?_
  refine .pure fun _ _ => .mk hs rfl (List.forall_mem_singleton.mpr ?_)
  exact .mk (List.suffix_refl s) rfl hargs

theorem returnStmt : Gives base g.returnStmt fun s _ => (Part.stmt s).Lies g.place base := by
  refine gives_here fun s hs => .after (advances_keyword (by decide)) fun _ => ?_
  refine .after advances_value.optional fun value => ?_
  cases value with
  | none => exact .pure fun _ _ => .mk hs rfl fun _ hc => by cases hc
  | some _ =>
    exact hg.lies_assignment.andThen fun e _ he => .pure fun _ _ =>
      .mk hs rfl (List.forall_mem_singleton.mpr he)

theorem block : Gives base g.block fun b _ => (Part.block b).Lies g.place base :=
  gives_here fun _ hs => .after (advances_char '\x7b') fun _ => hg.stmts.andThen fun _ _ hstmts =>
    .after advances_space fun _ => .after (advances_char '\x7d') fun _ =>
      .pure fun _ _ => .mk hs rfl (List.forall_mem_map.mpr hstmts)

theorem body : Gives base g.body fun b _ => (Part.block b).Lies g.place base := by
  refine gives_here fun s hs => .after advances_remaining fun next => ?_
  split
  · exact hg.block.mono fun _ _ hb => hb.widen hs
  · exact hg.stmt.andThen fun stmt _ hstmt => .pure fun _ _ =>
      .mk hs rfl (List.forall_mem_singleton.mpr hstmt)

theorem otherwise : Gives base g.otherwise fun b _ => (Part.block b).Lies g.place base := by
  refine gives_here fun s hs => .after advances_remaining fun next => ?_
  split
  · exact hg.branch.andThen fun stmt _ hstmt => .pure fun _ _ =>
      .mk hs rfl (List.forall_mem_singleton.mpr hstmt)
  · exact hg.body.mono fun _ _ hb => hb.widen hs

theorem conditional : Gives base g.conditional fun s _ => (Part.stmt s).Lies g.place base := by
  refine gives_here fun s hs => .after (advances_keyword (by decide)) fun _ => ?_
  refine .after advances_space fun _ => .after (advances_char '(') fun _ => ?_
  refine .after advances_space fun _ => hg.lies_assignment.andThen fun cond _ hcond => ?_
  refine .after advances_space fun _ => .after (advances_char ')') fun _ => ?_
  refine .after advances_space fun _ => hg.body.andThen fun body _ hbody => ?_
  refine .after advances_elseWord.optional fun found => ?_
  cases found with
  | none =>
    refine .pure fun _ _ => .mk hs rfl ?_
    exact List.forall_mem_cons.mpr ⟨hcond, List.forall_mem_singleton.mpr hbody⟩
  | some _ =>
    refine hg.otherwise.andThen fun other _ hother => .pure fun _ _ => .mk hs rfl ?_
    exact List.forall_mem_cons.mpr ⟨hcond, List.forall_mem_cons.mpr
      ⟨hbody, List.forall_mem_singleton.mpr hother⟩⟩

theorem evaluation : Gives base g.evaluation fun s _ => (Part.stmt s).Lies g.place base :=
  gives_here fun _ hs => hg.lies_assignment.andThen fun _ _ he => .pure fun _ _ =>
    .mk hs rfl (List.forall_mem_singleton.mpr he)

theorem statement : Gives base g.statement fun s _ => (Part.stmt s).Lies g.place base :=
  hg.conditional.orElse (hg.returnStmt.orElse (hg.declaration.orElse
    (hg.command.orElse hg.evaluation)))

theorem statements :
    Gives base g.statements fun ss _ => ∀ s ∈ ss, (Part.stmt s).Lies g.place base :=
  sequence hg.statement

theorem method : Gives base g.method fun m _ => (Part.method m).Lies g.place base :=
  gives_here fun _ hs => .after advances_modifiers fun words =>
    .after (advances_typeAfter words) fun _ => .after advances_name fun _ =>
      .after advances_gap fun _ => .after advances_params fun _ => .after advances_space fun _ =>
        hg.block.andThen fun _ _ hbody => .pure fun _ _ =>
          .mk hs rfl (List.forall_mem_singleton.mpr hbody)

theorem field : Gives base g.field fun f _ => (Part.field f).Lies g.place base :=
  gives_here fun _ hs => .after advances_modifiers fun _ =>
    .after advances_typeAhead.optional fun _ => .after advances_name fun _ =>
      hg.initializer.andThen fun _ _ hinit => .pure fun _ _ => .mk hs rfl hinit

theorem classMember : Gives base g.classMember fun member _ =>
    (member.elim Part.field Part.method).Lies g.place base :=
  .orElse (hg.method.andThen fun _ _ hm => .pure fun _ _ => hm)
    (hg.field.andThen fun _ _ hf => .pure fun _ _ => hf)

theorem classDecl : Gives base g.classDecl fun c _ => (Part.classDecl c).Lies g.place base := by
  refine gives_here fun s hs => .after advances_modifiers fun words => ?_
  refine .after (advances_keyword (by decide)) fun _ => .after advances_gap1 fun _ => ?_
  refine .after advances_identifier fun word => .after advances_superclass.optional fun super => ?_
  refine .after advances_space fun _ => .after (advances_char '\x7b') fun _ => ?_
  refine (sequence hg.classMember).andThen fun members _ hmembers => ?_
  refine .after (advances_char '\x7d') fun _ => .pure fun _ _ => .mk hs rfl ?_
  refine List.forall_mem_append.mpr ⟨List.forall_mem_map.mpr ?_, List.forall_mem_map.mpr ?_⟩
  · intro f hf
    obtain ⟨member, hmem, hget⟩ := List.mem_filterMap.mp hf
    rw [Sum.getLeft?_eq_some_iff] at hget
    subst hget
    exact hmembers _ hmem
  · intro m hm
    obtain ⟨member, hmem, hget⟩ := List.mem_filterMap.mp hm
    rw [Sum.getRight?_eq_some_iff] at hget
    subst hget
    exact hmembers _ hmem

theorem item : Gives base g.item fun i _ => i.part.Lies g.place base :=
  .orElse (hg.classDecl.andThen fun _ _ hc => .pure fun _ _ => hc) (.orElse
    (hg.method.andThen fun _ _ hm => .pure fun _ _ => hm)
    (hg.statement.andThen fun _ _ hs => .pure fun _ _ => hs))

theorem script : Gives base g.script fun s _ => ∀ i ∈ s.items, i.part.Lies g.place base :=
  (sequence hg.item).andThen fun _ _ hitems => .pure fun _ _ => hitems

end Located

theorem located_nested (place : List Char → Position) (n : Nat) : (nested place n).Located := by
  induction n with
  | zero => exact ⟨.fail, .fail, .fail, .fail, .fail⟩
  | succ n ih =>
    have hplace : (nested place n).place = (nested place (n + 1)).place := by cases n <;> rfl
    refine ⟨?_, ?_, ?_, ?_, ?_⟩
    all_goals
      intro base
      rw [← hplace]
    · exact ih.assignment
    · exact ih.signed
    · exact ih.statement
    · exact ih.statements
    · exact ih.conditional

end Rules

/-- The parts of a script lie in its text, each behind the beginning of the one it belongs to. -/
theorem Script.lies_of_read {text : String} {script : Script} (h : Script.read text = .ok script) :
    ∀ i ∈ script.items, i.part.Lies (LineIndex.ofText text.toList).locate text.toList := by
  obtain ⟨rest, hrun, -⟩ := Source.finish_eq_ok h
  have hgives := (Rules.located_nested (LineIndex.ofText text.toList).locate
    text.toList.length).script text.toList (List.suffix_refl _) script rest hrun
  have hplace : (Rules.nested (LineIndex.ofText text.toList).locate text.toList.length).place =
      (LineIndex.ofText text.toList).locate := by
    cases text.toList.length <;> rfl
  rw [hplace] at hgives
  exact hgives.2

end QueryBlocks
