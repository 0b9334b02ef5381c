import QueryBlocks.Proofs.Script.Statements

/-! Blocks of statements, closures and branches, and with them all written trees. -/
namespace QueryBlocks

open QueryBlocks.Parser QueryBlocks.Token QueryBlocks.Rules

variable {ok : String → Prop} {d : Nat} {e : Expr}

/-! ### Blocks -/

section blocks

variable {ss : List Stmt} {r rest : List Char}

theorem stmts_eq_lines (d : Nat) (ss : List Stmt) : (Print.stmts d ss).toList =
    lines (fun _ => (Print.indent d).toList) (fun s => (Print.stmt d s).toList) ss := by
  induction ss with
  | nil => rfl
  | cons s ss ih =>
    simp only [Print.stmts, String.toList_append, ih]
    simp [lines]

theorem isSpace_indent (d : Nat) : ∀ c ∈ (Print.indent d).toList, isSpace c = true := by
  intro c hc
  rw [Print.indent, String.toList_ofList] at hc
  rw [List.eq_of_mem_replicate hc]
  decide

theorem statements_run (hss : ∀ s ∈ ss, SpelledStmt d s) (hr : EndsBlock r rest) :
    bare.statements ((Print.stmts d ss).toList ++ r) = .ok (ss.map Stmt.bare) rest := by
  rw [stmts_eq_lines]
  exact sequence_lines (fun _ _ => isSpace_indent d) (fun s hs => (hss s hs).line) hr

theorem braced_text (d : Nat) (ss : List Stmt) (r : List Char) :
    (Print.braced d (Print.stmts (d + 1) ss)).toList ++ r =
      '\x7b' :: '\n' :: ((Print.stmts (d + 1) ss).toList ++
        ((Print.indent d).toList ++ '\x7d' :: r)) := by
  simp [Print.braced]

theorem block_run (hss : ∀ s ∈ ss, SpelledStmt (d + 1) s) (r : List Char) :
    bare.block ((Print.braced d (Print.stmts (d + 1) ss)).toList ++ r) =
      .ok ⟨⟨0, 0⟩, ss.map Stmt.bare⟩ r := by
  have hends := EndsBlock.brace d r
  have hstmts : bare.stmts ('\n' :: ((Print.stmts (d + 1) ss).toList ++
      ((Print.indent d).toList ++ '\x7d' :: r))) = .ok (ss.map Stmt.bare) ('\x7d' :: r) := by
    have hrun := statements_run hss hends
    rw [bare_stmts]
    rw [statements, Rules.sequence, run_bind, run_breaks] at hrun ⊢
    rw [skip_pos (by decide) (by decide)]
    exact hrun
  rw [braced_text]
  simp only [block, here, run_bind, run_char, Outcome.andThen_ok, hstmts, run_space,
    hends.skip_rest isSpace isBreak_of_isSpace, run_pure]
  rfl

theorem body_run (hss : ∀ s ∈ ss, SpelledStmt (d + 1) s) (r : List Char) :
    bare.body ((Print.braced d (Print.stmts (d + 1) ss)).toList ++ r) =
      .ok ⟨⟨0, 0⟩, ss.map Stmt.bare⟩ r := by
  have hblock := block_run hss r
  rw [braced_text] at hblock ⊢
  rw [body, run_bind, here, Outcome.andThen_ok, run_bind, remaining, Outcome.andThen_ok]
  exact hblock

/-- The text behind `else`: another condition, or a block. -/
def otherwiseText (d : Nat) (ss : List Stmt) : String :=
  match ss with
  | [s] => if s.isBranch then Print.stmt d s else Print.braced d (Print.stmts (d + 1) [s])
  | ss => Print.braced d (Print.stmts (d + 1) ss)

theorem otherwise_braced (hss : ∀ s ∈ ss, SpelledStmt (d + 1) s) (r : List Char) :
    bare.otherwise ((Print.braced d (Print.stmts (d + 1) ss)).toList ++ r) =
      .ok ⟨⟨0, 0⟩, ss.map Stmt.bare⟩ r := by
  have hbody := body_run hss r
  rw [braced_text] at hbody ⊢
  rw [otherwise, run_bind, here, Outcome.andThen_ok, run_bind, remaining, Outcome.andThen_ok]
  exact hbody

theorem otherwise_run (hss : ∀ d, ∀ s ∈ ss, SpelledStmt d s) (hr : EndsLine r) :
    bare.otherwise ((otherwiseText d ss).toList ++ r) = .ok ⟨⟨0, 0⟩, ss.map Stmt.bare⟩ r := by
  unfold otherwiseText
  split
  · rename_i s
    split
    · rename_i hb
      obtain ⟨hrun, v, hif⟩ := (hss d s List.mem_cons_self).branch hb r hr
      rw [← bare_branch] at hrun
      simp only [otherwise, here, run_bind, Outcome.andThen_ok, remaining, hif, hrun, run_pure]
      rfl
    · exact otherwise_braced (hss (d + 1)) r
  · exact otherwise_braced (hss (d + 1)) r

/-- The other branch of a statement, if there is one. -/
def elseText (d : Nat) : Option (List Stmt) → List Char
  | none => []
  | some ss => " else ".toList ++ (otherwiseText d ss).toList

@[simp] theorem elseText_none : elseText d none = [] := rfl

@[simp] theorem elseText_some :
    elseText d (some ss) = " else ".toList ++ (otherwiseText d ss).toList := rfl

theorem unspaced_otherwise (hss : ∀ d, ∀ s ∈ ss, SpelledStmt d s) :
    Unspaced (otherwiseText d ss).toList := by
  have hbraced (lines : String) : Unspaced (Print.braced d lines).toList := by
    rw [Print.braced, String.append_assoc, String.append_assoc, String.toList_append]
    exact ⟨_, _, rfl, by decide, by decide⟩
  unfold otherwiseText
  split
  · split
    · exact (hss d _ List.mem_cons_self).line.begins.unspaced
    · exact hbraced _
  · exact hbraced _

theorem elseWord_run (hss : ∀ d, ∀ s ∈ ss, SpelledStmt d s) :
    elseWord (elseText d (some ss) ++ r) = .ok () ((otherwiseText d ss).toList ++ r) := by
  have hspace : skip isSpace ((otherwiseText d ss).toList ++ r) =
      (otherwiseText d ss).toList ++ r :=
    skip_unspaced isBreak_of_isSpace ((unspaced_otherwise hss).append r)
  have helse : keyword "else" ("else".toList ++ ' ' :: ((otherwiseText d ss).toList ++ r)) =
      .ok () (' ' :: ((otherwiseText d ss).toList ++ r)) :=
    keyword_append (endsWord_cons.mpr (by decide))
  have htext : elseText d (some ss) ++ r =
      ' ' :: ("else".toList ++ ' ' :: ((otherwiseText d ss).toList ++ r)) := by
    simp
  have hword : skip isSpace ("else".toList ++ ' ' :: ((otherwiseText d ss).toList ++ r)) =
      "else".toList ++ ' ' :: ((otherwiseText d ss).toList ++ r) :=
    skip_neg (by decide) (by decide)
  simp only [htext, elseWord, run_bind, run_space, Outcome.andThen_ok,
    skip_pos (g := isSpace) (c := ' ') (by decide) (by decide), hword, helse, hspace]

variable {cond : Expr} {p q : Position}

theorem branch_text (other : Option Block) : (Print.stmt d (.branch p cond ⟨q, ss⟩ other)).toList =
    "if".toList ++ ' ' :: '(' :: ((Print.expr d cond).toList ++ ')' :: ' ' ::
      ((Print.braced d (Print.stmts (d + 1) ss)).toList ++
        elseText d (other.map Block.statements))) := by
  cases other with
  | none => simp [Print.stmt]
  | some b =>
    obtain ⟨_, others⟩ := b
    rcases others with _ | ⟨s, _ | ⟨t, more⟩⟩
    · simp [Print.stmt, otherwiseText]
    · simp [Print.stmt, otherwiseText]
    · simp [Print.stmt, otherwiseText]

theorem conditional_run {other : Option Block} (hcond : Spelled d cond)
    (hbody : ∀ s ∈ ss, SpelledStmt (d + 1) s)
    (hother : ∀ b ∈ other, ∀ d, ∀ s ∈ b.statements, SpelledStmt d s) (hr : EndsLine r) :
    bare.conditional ((Print.stmt d (.branch p cond ⟨q, ss⟩ other)).toList ++ r) =
      .ok (Stmt.branch p cond ⟨q, ss⟩ other).bare r := by
  generalize hbodyText : (Print.braced d (Print.stmts (d + 1) ss)).toList ++
    (elseText d (other.map Block.statements) ++ r) = bodyText
  have htext : (Print.stmt d (.branch p cond ⟨q, ss⟩ other)).toList ++ r = "if".toList ++
      ' ' :: '(' :: ((Print.expr d cond).toList ++ ')' :: ' ' :: bodyText) := by
    rw [branch_text, ← hbodyText]
    simp only [List.append_assoc, List.cons_append]
  have hif : keyword "if" ("if".toList ++
      ' ' :: '(' :: ((Print.expr d cond).toList ++ ')' :: ' ' :: bodyText)) =
        .ok () (' ' :: '(' :: ((Print.expr d cond).toList ++ ')' :: ' ' :: bodyText)) :=
    keyword_append (endsWord_cons.mpr (by decide))
  have hopen : skip isSpace ((Print.expr d cond).toList ++ ')' :: ' ' :: bodyText) =
      (Print.expr d cond).toList ++ ')' :: ' ' :: bodyText :=
    skip_unspaced isBreak_of_isSpace (hcond.begins.unspaced.append _)
  have hread : bare.assignment ((Print.expr d cond).toList ++ ')' :: ' ' :: bodyText) =
      .ok cond.bare (')' :: ' ' :: bodyText) := hcond.whole _ (.of_close (.inl rfl))
  have hspace : skip isSpace bodyText = bodyText := by
    rw [← hbodyText, braced_text, skip_neg (by decide) (by decide)]
  have hblock : bare.body bodyText = .ok ⟨⟨0, 0⟩, ss.map Stmt.bare⟩
      (elseText d (other.map Block.statements) ++ r) := by
    rw [← hbodyText]
    exact body_run hbody _
  rw [htext]
  simp only [conditional, here, run_bind, Outcome.andThen_ok, hif, run_space,
    skip_pos (g := isSpace) (c := ' ') (by decide) (by decide),
    skip_neg (g := isSpace) (c := '(') (by decide) (by decide),
    skip_neg (g := isSpace) (c := ')') (by decide) (by decide), run_char, hopen, hread, hspace,
    hblock]
  cases other with
  | none =>
    have helse : optional elseWord (elseText d none ++ r) = .ok none r :=
      optional_failed hr.elseWord_failed
    simp only [Option.map_none, helse, Outcome.andThen_ok, run_pure, Stmt.bare_branch,
      Block.bare_mk]
    rfl
  | some b =>
    obtain ⟨_, others⟩ := b
    have hss := hother _ rfl
    have helse : elseWord (elseText d (some others) ++ r) =
        .ok () ((otherwiseText d others).toList ++ r) := elseWord_run hss
    simp only [Option.map_some, optional_ok helse, Outcome.andThen_ok, run_bind,
      otherwise_run hss hr, run_pure, Stmt.bare_branch, Block.bare_mk]
    rfl

theorem SpelledStmt.branch_of {other : Option Block} (hcond : Spelled d cond)
    (hbody : ∀ s ∈ ss, SpelledStmt (d + 1) s)
    (hother : ∀ b ∈ other, ∀ d, ∀ s ∈ b.statements, SpelledStmt d s) :
    SpelledStmt d (.branch p cond ⟨q, ss⟩ other) := by
  have hrun (r : List Char) (hr : EndsLine r) :=
    conditional_run (p := p) (q := q) hcond hbody hother hr
  refine .of_word (by decide) (branch_text other) (fun r _ => ?_) (fun _ => ⟨rfl, hrun⟩)
    fun r hr => ?_
  · exact ⟨endsWord_cons.mpr (by decide), by simp⟩
  · rw [statement, run_orElse, hrun r hr]
    rfl

end blocks

/-! ### Closures -/

section closures

variable {params : List String} {ss : List Stmt} {r : List Char}

/-- The text of a closure behind its parameters. -/
def closureBody (d : Nat) (ss : List Stmt) : List Char :=
  if ss.isEmpty then [' ', '\x7d']
  else '\n' :: ((Print.stmts (d + 1) ss).toList ++ ((Print.indent d).toList ++ ['\x7d']))

def paramsText (params : List String) : List Char :=
  if params.isEmpty then [] else ' ' :: ((", ".intercalate params).toList ++ " ->".toList)

theorem closure_expr_text (p q : Position) : (Print.expr d (.closure p params ⟨q, ss⟩)).toList =
    '\x7b' :: (paramsText params ++ closureBody d ss) := by
  rw [Print.expr, paramsText, closureBody]
  split <;> split <;> simp

/-- Behind the parameters stand the lines of the statements, or nothing but a gap. -/
theorem skip_closureBody (d : Nat) (ss : List Stmt) (r : List Char) :
    ∃ u, EndsBlock u ('\x7d' :: r) ∧ skip isSpace (closureBody d ss ++ r) =
      skip isSpace (lines (fun _ => (Print.indent (d + 1)).toList)
        (fun s => (Print.stmt (d + 1) s).toList) ss ++ u) := by
  cases ss with
  | nil =>
    refine ⟨' ' :: '\x7d' :: r, ⟨?_, ?_, .inr ⟨r, rfl⟩⟩, rfl⟩
    · rw [skip_pos (by decide) (by decide), skip_neg (by decide) (by decide)]
    · rw [skip_pos (by decide) (by decide), skip_neg (by decide) (by decide)]
  | cons s ss =>
    refine ⟨_, EndsBlock.brace d r, ?_⟩
    rw [closureBody, List.isEmpty_cons, if_neg Bool.false_ne_true, ← stmts_eq_lines,
      List.cons_append, skip_pos (by decide) (by decide)]
    simp only [List.append_assoc, List.cons_append, List.nil_append]

theorem stmts_closureBody (hss : ∀ s ∈ ss, SpelledStmt (d + 1) s) (r : List Char) :
    bare.stmts (skip isSpace (closureBody d ss ++ r)) = .ok (ss.map Stmt.bare) ('\x7d' :: r) := by
  obtain ⟨u, hu, hskip⟩ := skip_closureBody d ss r
  rw [hskip, bare_stmts]
  exact sequence_skip_lines (fun _ _ => isSpace_indent (d + 1)) (fun s hs => (hss s hs).line) hu

theorem params_closureBody (hss : ∀ s ∈ ss, SpelledStmt (d + 1) s) (r : List Char) :
    (closureParams (skip isSpace (closureBody d ss ++ r))).Failed := by
  obtain ⟨u, hu, hskip⟩ := skip_closureBody d ss r
  have hlead : ∀ s ∈ ss, ∀ c ∈ (Print.indent (d + 1)).toList, isSpace c = true :=
    fun _ _ => isSpace_indent (d + 1)
  have hline := fun s hs => (hss s hs).line
  rw [hskip, skip_lines hlead hline (fun _ h => h) isBreak_of_isSpace hu.space]
  cases ss with
  | nil =>
    refine Lead.closureParams_of_unnamed (name_failed (by decide)) ?_
    rw [skip_neg (by decide) (by decide)]
    trivial
  | cons s ss =>
    refine (hss s List.mem_cons_self).noParams _ ?_
    exact endsLine_lines (fun t ht => hlead t (List.mem_cons_of_mem s ht))
      (fun t ht => hline t (List.mem_cons_of_mem s ht)) hu

/-- The parameters of a closure, with the arrow and the gap behind it. -/
theorem closureParams_run {first : String} {more : List String}
    (hp : ∀ p ∈ first :: more, isName p = true) (u : List Char) :
    closureParams ((", ".intercalate (first :: more)).toList ++ ' ' :: '-' :: '>' :: u) =
      .ok (first :: more) (skip isSpace u) := by
  have hitem : ∀ p ∈ first :: more, ∀ r, EndsWord r → name (p.toList ++ r) = .ok p r :=
    fun p hmem r hr => name_append (hp p hmem) hr
  have hsep : ∀ p ∈ first :: more, ∀ r, ∃ b,
      comma gap gap (", ".toList ++ (p.toList ++ r)) = .ok b (p.toList ++ r) := by
    intro p hmem r
    have hgap : skip isGap (p.toList ++ r) = p.toList ++ r := skip_unspaced isBreak_of_isGap
      ((Unspaced.of_identifier (isIdentifier_of_isName (hp p hmem))).append r)
    refine ⟨(), ?_⟩
    change comma gap gap (',' :: ' ' :: (p.toList ++ r)) = _
    simp only [comma, run_bind, run_gap, skip_neg (g := isGap) (c := ',') (by decide) (by decide),
      run_char, Outcome.andThen_ok, skip_pos (g := isGap) (c := ' ') (by decide) (by decide), hgap]
  have hstop : (comma gap gap (' ' :: '-' :: '>' :: u)).Failed := by
    rw [comma, run_bind, run_gap, skip_pos (by decide) (by decide),
      skip_neg (by decide) (by decide), Outcome.andThen_ok, run_bind]
    exact (char_failed (by simp)).andThen
  have hrun := sepBy1_run hitem hsep (by decide) (fun _ => endsWord_cons.mpr (by decide))
    (endsWord_cons.mpr (by decide)) hstop
  have harrow : exactly "->" ('-' :: '>' :: u) = .ok () u := rfl
  rw [List.map_id'] at hrun
  rw [closureParams, run_bind, sepBy, run_orElse, toList_intercalate_cons, List.append_assoc, hrun]
  simp only [Outcome.or_ok, Outcome.andThen_ok, run_bind, run_gap, skip_pos (g := isGap)
    (c := ' ') (by decide) (by decide), skip_neg (g := isGap) (c := '-') (by decide) (by decide),
    harrow, run_space, run_pure]

theorem optionalParams_run (hp : ∀ p ∈ params, isName p = true)
    (hss : ∀ s ∈ ss, SpelledStmt (d + 1) s) (r : List Char) :
    (closureParams <|> pure []) (skip isSpace (paramsText params ++ (closureBody d ss ++ r))) =
      .ok params (skip isSpace (closureBody d ss ++ r)) := by
  rw [run_orElse]
  cases params with
  | nil =>
    rw [paramsText, List.isEmpty_nil, if_pos rfl, List.nil_append, (params_closureBody hss r).or]
    rfl
  | cons first more =>
    have hfirst := Unspaced.of_identifier (isIdentifier_of_isName (hp first List.mem_cons_self))
    have htext : paramsText (first :: more) ++ (closureBody d ss ++ r) =
        ' ' :: ((", ".intercalate (first :: more)).toList ++
          ' ' :: '-' :: '>' :: (closureBody d ss ++ r)) := by
      simp [paramsText]
    have hskip : skip isSpace (paramsText (first :: more) ++ (closureBody d ss ++ r)) =
        (", ".intercalate (first :: more)).toList ++
          ' ' :: '-' :: '>' :: (closureBody d ss ++ r) := by
      rw [htext, skip_pos (by decide) (by decide), skip_unspaced isBreak_of_isSpace]
      rw [toList_intercalate_cons, List.append_assoc]
      exact hfirst.append _
    rw [hskip, closureParams_run hp]
    rfl

theorem closureExpr_run (p q : Position) (hp : ∀ p ∈ params, isName p = true)
    (hss : ∀ s ∈ ss, SpelledStmt (d + 1) s) (r : List Char) :
    bare.closureExpr ((Print.expr d (.closure p params ⟨q, ss⟩)).toList ++ r) =
      .ok (Expr.closure p params ⟨q, ss⟩).bare r := by
  have hclosure : bare.closure ('\x7b' :: (paramsText params ++ (closureBody d ss ++ r))) =
      .ok (params, ⟨⟨0, 0⟩, ss.map Stmt.bare⟩) r := by
    simp only [Rules.closure, here, run_bind, run_char, Outcome.andThen_ok, run_space,
      optionalParams_run hp hss r, stmts_closureBody hss r,
      skip_neg (g := isSpace) (c := '\x7d') (by decide) (by decide), run_pure]
    rfl
  rw [closure_expr_text, List.cons_append, List.append_assoc]
  simp only [closureExpr, here, run_bind, Outcome.andThen_ok, hclosure, run_pure,
    Expr.bare_closure, Block.bare_mk]
  rfl

theorem Spelled.closure_of (p q : Position) (hp : ∀ p ∈ params, isName p = true)
    (hss : ∀ s ∈ ss, SpelledStmt (d + 1) s) : Spelled d (.closure p params ⟨q, ss⟩) := by
  have hrun := closureExpr_run p q hp hss
  have hbegins : Begins 12 (Print.expr d (.closure p params ⟨q, ss⟩)).toList := by
    rw [closure_expr_text]
    exact ⟨'\x7b', _, rfl, by decide, fun _ => by decide⟩
  have hprimary : Primary (Print.expr d (.closure p params ⟨q, ss⟩)).toList
      (Expr.closure p params ⟨q, ss⟩).bare := by
    intro r _
    have h := hrun r
    rw [closure_expr_text, List.cons_append] at h ⊢
    simp only [primary, run_orElse]
    rw [(parenthesized_failed (by simp)).or, (listExpr_failed (by simp)).or, h]
    rfl
  refine ⟨hbegins, fun _ => hprimary.fits, ?_, fun _ => hrun⟩
  exact (hprimary.fits.lower (by decide) (fun _ => hbegins.unsigned (by decide)) (Nat.le_refl 2)
    (by decide)).whole

end closures

/-! ### All trees -/

mutual

/-- Every valid expression is read back from its text, at any depth. -/
theorem spelled_expr : ∀ {e : Expr} (d : Nat), e.Valid Declarable → Spelled d e
  | .var p _, _, h => .var p h
  | .lit p _, _, h => .lit p h
  | .member p _ _, d, h => .member p h.2 (spelled_expr d h.1)
  | .call p none _ _, d, h => .call p h.1 (spelled_args d h.2)
  | .call p (some _) _ _, d, h => .method p h.2.1 (spelled_expr d h.1) (spelled_args d h.2.2)
  | .construct p _ _, d, h => .construct p h.1 (spelled_args d h.2)
  | .cast p _ _, d, h => .cast p h.2 (spelled_expr d h.1)
  | .binary p _ op _, d, h => .binary p op (spelled_expr d h.1) (spelled_expr d h.2)
  | .not p e, d, h => .not p (spelled_expr (e := e) d h)
  | .negate p _, d, h => .negate p h.2 (spelled_expr d h.1)
  | .list p items, d, h => .list p (@spelled_args items d h)
  | .closure p _ ⟨q, _⟩, d, h => .closure_of p q h.1 (spelled_stmts (d + 1) h.2)

theorem spelled_args : ∀ {es : List Expr} (d : Nat), Expr.ValidAll Declarable es →
    ∀ e ∈ es, SpelledArg d e
  | [], _, _ => fun _ he => (nomatch he)
  | e :: es, d, h => by
    rw [List.forall_mem_cons]
    cases e with
    | spread p e => exact ⟨.spread p (spelled_expr d h.1), spelled_args d h.2⟩
    | _ => exact ⟨(spelled_expr d h.1).arg, spelled_args d h.2⟩

theorem spelled_stmts : ∀ {ss : List Stmt} (d : Nat), Stmt.ValidAll Declarable ss →
    ∀ s ∈ ss, SpelledStmt d s
  | [], _, _ => fun _ hs => (nomatch hs)
  | s :: ss, d, h => by
    rw [List.forall_mem_cons]
    exact ⟨spelled_stmt d h.1, spelled_stmts d h.2⟩

theorem spelled_stmt : ∀ {s : Stmt} (d : Nat), s.Valid Declarable → SpelledStmt d s
  | .eval p e, d, h => .eval p h (spelled_expr (e := e) d h)
  | .declare p _ _ none, d, h =>
    .declare p (fun t ht => (h.1 t ht).1) (fun t ht => (h.1 t ht).2) h.2 fun _ he => (nomatch he)
  | .declare p _ _ (some e), d, h =>
    .declare p (fun t ht => (h.1 t ht).1) (fun t ht => (h.1 t ht).2) h.2.1 fun e' he => by
      cases he
      exact spelled_expr d h.2.2
  | .branch p _ ⟨q, _⟩ none, d, h =>
    .branch_of (spelled_expr d h.1) (spelled_stmts (d + 1) h.2) fun _ hb => (nomatch hb)
  | .branch p _ ⟨q, _⟩ (some ⟨_, others⟩), d, h =>
    .branch_of (spelled_expr d h.1) (spelled_stmts (d + 1) h.2.1) fun b hb d => by
      cases hb
      exact spelled_stmts d h.2.2
  | .ret p none, _, _ => .ret p
  | .ret p (some e), d, h => .retValue p (spelled_expr (e := e) d h)

end

end QueryBlocks
