import QueryBlocks.Proofs.Query.Order
import QueryBlocks.Proofs.Script.LineBelow

/-!
Statements with another line below them. A newline separates statements, so a text with another one
below it is read as the statements of the one and then those of the other. A dot and an `else` are
looked for across a newline: no text that is read begins with a dot, and with `else` only one that
begins with a type.
-/
namespace QueryBlocks

open QueryBlocks.Parser QueryBlocks.Token QueryBlocks.Rules

section ended

variable {v s m t r : List Char} {w : String}

/-- The end of the text and the end of a line count alike. -/
theorem ended_append (s v : List Char) : ended (s ++ '\n' :: v) = ended s := by
  cases s with
  | nil => rfl
  | cons c s => rfl

theorem settled_assignment : Needs Settled bare.assignment :=
  unspaced_assignment.mono fun _ => Unspaced.settled

/-- Behind a statement no argument begins, unless it is the word `else` that is taken for one. -/
theorem Over.else_of_argument (hm : Over m) (h : startsArgument (skip isGap m) = .ok () r) :
    ∃ after, skip isGap m = "else".toList ++ after ∧ EndsWord after := by
  obtain ⟨-, c, t, ht, hc, -⟩ := startsArgument_eq_ok h
  have hne {d : Char} (hd : isArgumentStart d = false) : c ≠ d := ne_of_isArgumentStart hc hd
  rcases hm.ends with hended | ⟨after, helse⟩
  · rw [ht] at hended
    simp [ended, hne (d := '\n') (by decide), hne (d := ';') (by decide),
      hne (d := '\x7d') (by decide)] at hended
  · have hspace : isSpace c = false := by
      simp [isSpace, isGap, hne (d := ' ') (by decide), hne (d := '\t') (by decide),
        hne (d := '\r') (by decide), hne (d := '\n') (by decide)]
    rw [← skip_skip isSpace_of_isGap, ht, skip_neg hspace (hne (by decide)), ← ht] at helse
    exact ⟨after, keyword_eq_ok helse⟩

theorem Over.no_name (hm : Over m) (h : name (skip isGap m) = .ok w r) : False := by
  obtain ⟨after, hs, hends⟩ := hm.else_of_argument (startsArgument_of_name h)
  rw [hs] at h
  exact (name_reserved (by decide) hends (by decide)).ne_ok h

/-- A comma would have continued the statement. -/
theorem Over.comma_failed (hs : Over s) :
    ((do let _ ← comma gap space; bare.argument : Parser Expr) (s ++ '\n' :: v)).Failed := by
  have hhead : (skip isGap s ++ '\n' :: v).head? ≠ some ',' := by
    cases hskip : skip isGap s with
    | nil => simp
    | cons c t =>
      rw [List.cons_append, List.head?_cons, ne_eq, Option.some.injEq]
      rintro rfl
      rcases hs.ends with hended | ⟨after, helse⟩
      · rw [hskip] at hended
        cases hended
      · rw [← skip_skip isSpace_of_isGap, hskip, skip_neg (by decide) (by decide)] at helse
        cases helse
  rw [run_bind, comma, run_bind, run_gap, skip_isGap_append (not_unclosed_isGap hs.closed),
    Outcome.andThen_ok, run_bind]
  exact (char_failed hhead).andThen.andThen

end ended

/-! ### Alternatives -/

section alternatives

variable {v s r : List Char} {e : Expr} {a : Stmt}

theorem conditional_dot : (bare.conditional ("if".toList ++ '.' :: s)).Failed := by
  have hends : EndsWord ('.' :: s) := endsWord_cons.mpr (by decide)
  rw [conditional, run_bind, here, Outcome.andThen_ok, run_bind, keyword_append hends,
    Outcome.andThen_ok, run_bind, run_space, skip_neg (by decide) (by decide), Outcome.andThen_ok,
    run_bind]
  exact (char_failed (by simp)).andThen

theorem initializer_failed (h : (bare.initializer s).Failed) :
    ∃ z, initMark s = .ok () z ∧ (bare.assignment z).Failed := by
  rw [initializer, run_bind, Outcome.failed_andThen] at h
  rcases h with h | ⟨o, z, ho, h⟩
  · exact absurd h not_failed_optional
  · rcases optional_eq_ok ho with ⟨_, rfl, hmark⟩ | ⟨rfl, -⟩
    · exact ⟨z, hmark, failed_of_bind_pure (fun e => ⟨_, rfl⟩) h⟩
    · exact h.elim

theorem stillFails_typeAhead : StillFails ('\n' :: v) typeAhead :=
  .bind (firm_declaredType v) fun type => stillFails_gap1.bind_pure fun _ => ⟨type, rfl⟩

theorem argument_else (hs : EndsWord s) : (bare.argument ("else".toList ++ s)).Failed := by
  have hsame : bare.argument ("else".toList ++ s) = bare.assignment ("else".toList ++ s) :=
    argument_of_isArgumentStart (c := 'e') (by decide)
  rw [hsame]
  exact assignment_reserved (by decide) (by decide) (by decide) hs

/-- An expression that is no call without parentheses does not become one. -/
theorem command_stays (h : bare.evaluation s = .ok a r) (hr : Over r)
    (hfail : (bare.command s).Failed) : (bare.command (s ++ '\n' :: v)).Failed := by
  obtain ⟨e, he⟩ := evaluation_eq_ok h
  rw [command, run_bind, here, Outcome.andThen_ok, run_bind, Outcome.failed_andThen] at hfail
  rw [command, run_bind, here, Outcome.andThen_ok, run_bind]
  rcases hfail with hname | ⟨w, m, hname, hfail⟩
  · exact ((firm_name v).failed hname).andThen
  rw [run_bind, Outcome.failed_andThen] at hfail
  rw [(firm_name v).ok hname, Outcome.andThen_ok, run_bind]
  rcases hfail with hgap | ⟨_, t, hgap, hfail⟩
  · exact (stillFails_gap1 hgap).andThen
  obtain ⟨hends, -, hindex, rfl⟩ := gap1_eq_ok hgap
  -- if nothing goes on behind the name, the expression is the name
  have hrest (hidle : Idle 1 (skip isGap m)) : r = m := by
    rw [assignment_var hname (hidle.follows hends hindex)] at he
    cases he
    rfl
  have hopen : ¬ Unclosed (skip isGap m) := by
    intro hopen
    obtain rfl := hrest (.of_unclosed hopen)
    exact not_unclosed_isGap hr.closed hopen
  rw [run_bind, Outcome.failed_andThen] at hfail
  rw [gap1_append hgap hopen, Outcome.andThen_ok, run_bind]
  rcases hfail with hstart | ⟨_, t, hstart, -⟩
  · exact ((firm_startsArgument v).failed hstart).andThen
  obtain ⟨rfl, -⟩ := startsArgument_eq_ok hstart
  obtain rfl := hrest (.of_argument hstart)
  obtain ⟨after, helse, hends⟩ := hr.else_of_argument hstart
  have hbelow : EndsWord (after ++ '\n' :: v) := by
    cases after with
    | nil => exact endsWord_cons.mpr (by decide)
    | cons c after => exact hends
  rw [(firm_startsArgument v).ok hstart, Outcome.andThen_ok, run_bind, bareArgs, sepBy1, run_bind,
    helse, List.append_assoc]
  exact (argument_else hbelow).andThen.andThen

/-- Neither does it, or such a call, become a declaration. -/
theorem declaration_stays (h : (bare.command <|> bare.evaluation) s = .ok a r) (hr : Over r)
    (hfail : (bare.declaration s).Failed) : (bare.declaration (s ++ '\n' :: v)).Failed := by
  rw [declaration, run_bind, here, Outcome.andThen_ok, run_bind, Outcome.failed_andThen] at hfail
  rw [declaration, run_bind, here, Outcome.andThen_ok, run_bind]
  rcases hfail with htype | ⟨type, t, htype, hfail⟩
  · exact (stillFails_typeAhead htype).andThen
  obtain ⟨m, hdeclared, hgap⟩ := typeAhead_eq_ok htype
  obtain ⟨-, -, -, rfl⟩ := gap1_eq_ok hgap
  rw [run_orElse, Outcome.or_eq_ok] at h
  -- if nothing goes on behind the type, the expression is the type
  have hover (hevaluation : bare.evaluation s = .ok a r) (hidle : Idle 1 (skip isGap m)) :
      Over m := by
    obtain ⟨e, he⟩ := evaluation_eq_ok hevaluation
    obtain rfl := rest_of_type hdeclared hgap hidle he
    exact hr
  have hopen : ¬ Unclosed (skip isGap m) := by
    intro hopen
    rcases h with h | ⟨-, h⟩
    · exact (settled_startsArgument (argument_after_type htype h).1).2 hopen
    · exact not_unclosed_isGap (hover h (.of_unclosed hopen)).closed hopen
  have hahead : typeAhead (s ++ '\n' :: v) = .ok type (skip isGap m ++ '\n' :: v) := by
    rw [typeAhead, run_bind, (firm_declaredType v).ok hdeclared, Outcome.andThen_ok, run_bind,
      gap1_append hgap hopen]
    rfl
  rw [run_bind, Outcome.failed_andThen] at hfail
  rw [hahead, Outcome.andThen_ok, run_bind]
  rcases hfail with hname | ⟨w, u, hname, hfail⟩
  · exact ((firm_name v).failed hname).andThen
  exfalso
  rcases h with h | ⟨-, h⟩
  · obtain ⟨-, e, mid, he⟩ := argument_after_type htype h
    obtain ⟨z, hmark, hz⟩ :=
      initializer_failed (failed_of_bind_pure (fun init => ⟨_, rfl⟩) hfail)
    exact (assignment_of_init hname hmark hz).ne_ok he
  · exact (hover h (.of_name hname)).no_name hname

end alternatives

/-! ### Statements -/

section statements

variable {v s r : List Char} {n : Nat}

theorem carries_typeAhead : Carries ('\n' :: v) n Settled typeAhead :=
  .bind_firm (firm_declaredType v) advances_declaredType fun type =>
    carries_gap1.bind_pure fun _ => ⟨type, rfl⟩

theorem carries_initMark : Carries ('\n' :: v) n Settled initMark :=
  carries_after_skip (.bind_firm (firm_char v (by decide)) (advances_char '=') fun _ =>
    .bind_firm (firm_char v (by decide)).notNext (advances_char '=').notNext fun _ =>
      carries_skip isSpace) (settled_char (by decide)).bind

theorem initMark_stays (hs : Done s) (h : (initMark s).Failed) :
    (initMark (s ++ '\n' :: v)).Failed :=
  stillFails_after_gap (.bind (firm_char v (by decide)) fun _ =>
    .bind (firm_char v (by decide)).notNext fun _ => .skipping _) (not_unclosed_isGap hs.closed) h

theorem carries_elseWord : Carries ('\n' :: v) n Settled elseWord :=
  carries_after_skip (.bind_firm (firm_keyword v (by decide)) (advances_keyword (by decide))
    fun _ => carries_skip isSpace) (settled_keyword (by decide)).bind

/-- At the end of the text, `else` would have to stand in the line below. -/
theorem elseWord_stays (hv : EndsLine ('\n' :: v)) (hs : Over s) (h : (elseWord s).Failed) :
    (elseWord (s ++ '\n' :: v)).Failed := by
  have hstill : StillFails ('\n' :: v) (do keyword "else"; space) :=
    .bind (firm_keyword v (by decide)) fun _ => .skipping _
  obtain ⟨_, he, -, helse⟩ := hv
  cases he
  refine stillFails_after_space hstill ?_ hs.closed h
  rw [run_bind]
  exact helse.andThen

/-- In front of `else` a statement is over. -/
theorem over_of_elseWord {b : Unit} (h : elseWord s = .ok b r) : Over s := by
  rw [elseWord, run_bind, run_space, Outcome.andThen_ok, run_bind, Outcome.andThen_eq_ok] at h
  obtain ⟨_, t, helse, -⟩ := h
  exact ⟨(settled_keyword (by decide) helse).2, .inr ⟨t, helse⟩⟩

/-- The value of a return statement begins behind a gap in its line. -/
theorem value_stays (hs : Done s)
    (h : ((do gap1; if ended (← remaining) then fail else return : Parser Unit) s).Failed) :
    ((do gap1; if ended (← remaining) then fail else return : Parser Unit)
      (s ++ '\n' :: v)).Failed := by
  rw [run_bind, Outcome.failed_andThen] at h
  rw [run_bind]
  rcases h with hgap | ⟨_, t, hgap, h⟩
  · exact (stillFails_gap1 hgap).andThen
  obtain ⟨-, -, -, rfl⟩ := gap1_eq_ok hgap
  rw [gap1_append hgap (not_unclosed_isGap hs.closed), Outcome.andThen_ok, run_bind, remaining,
    Outcome.andThen_ok]
  rw [run_bind, remaining, Outcome.andThen_ok] at h
  split at h
  · rename_i hended
    rw [ended_append, if_pos hended]
    trivial
  · exact h.elim

theorem carries_value : Carries ('\n' :: v) n Settled
    (do gap1; if ended (← remaining) then fail else return : Parser Unit) := by
  intro s _ rest hn h hrest
  rw [run_bind, Outcome.andThen_eq_ok] at h
  obtain ⟨_, t, hgap, h⟩ := h
  rw [run_bind, remaining, Outcome.andThen_ok] at h
  split at h
  · cases h
  · rename_i hended
    cases h
    rw [run_bind, gap1_append hgap hrest.2, Outcome.andThen_ok, run_bind, remaining,
      Outcome.andThen_ok, ended_append, if_neg hended]
    rfl

theorem body_brace : bare.body ('\x7b' :: s) = bare.block ('\x7b' :: s) := by
  rw [body, run_bind, here, Outcome.andThen_ok, run_bind, remaining]
  rfl

theorem body_of_ne (h : s.head? ≠ some '\x7b') :
    bare.body s = (do return ⟨⟨0, 0⟩, [← bare.stmt]⟩ : Parser Block) s := by
  simp only [body, run_bind, here, remaining, Outcome.andThen_ok]
  split
  · exact absurd rfl h
  · rw [run_bind]
    rfl

theorem otherwise_if {t : List Char} (h : keyword "if" s = .ok () t) :
    bare.otherwise s = (do return ⟨⟨0, 0⟩, [← bare.branch]⟩ : Parser Block) s := by
  simp only [otherwise, run_bind, here, remaining, Outcome.andThen_ok, h]
  rfl

theorem otherwise_of_failed (h : (keyword "if" s).Failed) : bare.otherwise s = bare.body s := by
  obtain ⟨place, hplace⟩ := h.exists
  simp only [otherwise, run_bind, here, remaining, Outcome.andThen_ok, hplace]

theorem settled_body : Needs Settled bare.body := by
  intro s b r h
  by_cases hhead : s.head? = some '\x7b'
  · obtain ⟨t, rfl⟩ := List.head?_eq_some_iff.mp hhead
    exact settled_cons (by decide)
  · rw [body_of_ne hhead, bare_stmt] at h
    exact (unspaced_statement.bind h).settled

theorem settled_otherwise : Needs Settled bare.otherwise := by
  intro s b r h
  rcases keyword_cases "if" s with ⟨t, -, -, hif⟩ | hfail
  · exact settled_keyword (by decide) hif
  · rw [otherwise_of_failed hfail] at h
    exact settled_body h

end statements

namespace Rules.Carried

variable {v s m t r : List Char} {n : Nat} {C : List Char → Prop} (hg : Carried v n)

include hg

theorem bareArgs : Carries ('\n' :: v) n Over bare.bareArgs := by
  refine .sepBy1 (D := Done) hg.argument advances_argument (hg.separated isGap)
    (fun s e r h => ?_) (fun _ => Over.done) fun _ => Over.comma_failed
  rw [run_bind, Outcome.andThen_eq_ok] at h
  obtain ⟨_, mid, hcomma, -⟩ := h
  obtain ⟨t, ht⟩ := comma_eq_ok hcomma
  refine .of_gap (ht ▸ settled_cons (by decide)) fun c hc => ?_
  rw [ht] at hc
  cases hc
  decide

theorem command : Carries ('\n' :: v) (n + 1) Over bare.command := by
  refine carries_after_here fun pos => ?_
  refine .bind_firm_read (firm_name v) advances_name fun word => ?_
  refine carries_after_gap1 (.bind_firm (firm_startsArgument v) advances_startsArgument fun _ => ?_)
    settled_startsArgument.bind
  exact hg.bareArgs.bind_pure fun args => ⟨_, rfl⟩

theorem block : Carries ('\n' :: v) (n + 1) C bare.block := by
  refine carries_after_here fun pos => ?_
  exact .bind_firm_read (firm_char v (by decide)) (advances_char '\x7b') fun _ => hg.braced _

theorem body : Carries ('\n' :: v) n Over bare.body := by
  have hstmt : Carries ('\n' :: v) n Over (do return ⟨⟨0, 0⟩, [← bare.stmt]⟩ : Parser Block) :=
    hg.stmt.bind_pure fun a => ⟨_, rfl⟩
  intro s b r hn h hr
  cases s with
  | nil =>
    rw [body_of_ne (by simp)] at h
    rw [body_of_ne (by simp)]
    exact hstmt hn h hr
  | cons c s =>
    by_cases hc : c = '\x7b'
    · subst hc
      rw [body_brace] at h
      rw [List.cons_append, body_brace]
      exact hg.block (Nat.lt_succ_of_lt hn) h hr
    · rw [body_of_ne (by simpa using hc)] at h
      rw [body_of_ne (by simpa using hc)]
      exact hstmt hn h hr

theorem otherwise : Carries ('\n' :: v) n Over bare.otherwise := by
  have hbranch : Carries ('\n' :: v) n Over (do return ⟨⟨0, 0⟩, [← bare.branch]⟩ : Parser Block) :=
    hg.branch.bind_pure fun a => ⟨_, rfl⟩
  intro s b r hn h hr
  rcases keyword_cases "if" s with ⟨t, -, -, hif⟩ | hfail
  · rw [otherwise_if hif] at h
    rw [otherwise_if ((firm_keyword v (by decide)).ok hif)]
    exact hbranch hn h hr
  · rw [otherwise_of_failed hfail] at h
    rw [otherwise_of_failed ((firm_keyword v (by decide)).failed hfail)]
    exact hg.body hn h hr

variable (hv : EndsLine ('\n' :: v))

include hv

theorem initializer : Carries ('\n' :: v) (n + 1) Done bare.initializer := by
  refine .optional_bind carries_initMark advances_initMark (fun _ => ?_) (.pure none)
    (fun _ mid b r h _ => ?_) fun s b r hfail h hr => ?_
  · exact (hg.assignment hv).bind_pure fun e => ⟨_, rfl⟩
  · exact settled_assignment.bind h
  · cases h
    exact initMark_stays hr hfail

theorem declaration : Carries ('\n' :: v) (n + 1) Over bare.declaration := by
  refine carries_after_here fun pos => ?_
  refine carries_typeAhead.bind advances_typeAhead (fun type => ?_) fun type mid b r h _ => ?_
  · refine .bind_firm (firm_name v) advances_name fun word => ?_
    exact ((hg.initializer hv).mono fun _ => Over.done).bind_pure fun init => ⟨_, rfl⟩
  · exact (unspaced_identifier.verify.bind h).settled

theorem returnStmt : Carries ('\n' :: v) (n + 1) Over bare.returnStmt := by
  refine carries_after_here fun pos => ?_
  refine .bind_firm (firm_keyword v (by decide)) (advances_keyword (by decide)) fun _ => ?_
  refine .optional_bind carries_value advances_value (fun _ => ?_) (.pure _)
    (fun _ mid b r h _ => ?_) fun s b r hfail h hr => ?_
  · exact ((hg.assignment hv).mono fun _ => Over.done).bind_pure fun e => ⟨_, rfl⟩
  · exact settled_assignment.bind h
  · cases h
    exact value_stays hr.done hfail

theorem evaluation : Carries ('\n' :: v) (n + 1) Over bare.evaluation :=
  carries_after_here fun _ =>
    ((hg.assignment hv).mono fun _ => Over.done).bind_pure fun _ => ⟨_, rfl⟩

/-- The rest of a condition behind its body. -/
theorem branches (pos : Position) (cond : Expr) (body : Block) : Carries ('\n' :: v) n Over (do
    match ← optional elseWord with
    | some _ => return .branch pos cond body (some (← bare.otherwise))
    | none => return .branch pos cond body none : Parser Stmt) := by
  refine .optional_bind carries_elseWord advances_elseWord (fun _ => ?_) (.pure _)
    (fun _ mid b r h _ => ?_) fun s b r hfail h hr => ?_
  · exact hg.otherwise.bind_pure fun other => ⟨_, rfl⟩
  · exact settled_otherwise.bind h
  · cases h
    exact elseWord_stays hv hr hfail

theorem conditional : Carries ('\n' :: v) (n + 1) Over bare.conditional := by
  refine carries_after_here fun pos => ?_
  refine .bind_firm_read (firm_keyword v (by decide)) (advances_keyword (by decide)) fun _ => ?_
  refine carries_after_skip (.bind_firm (firm_char v (by decide)) (advances_char '(') fun _ => ?_)
    (settled_char (by decide)).bind
  refine carries_after_skip (((hg.assignment hv).restrict (Nat.le_succ n)).bind advances_assignment
    (fun cond => ?_) fun cond mid b r h _ => ?_) settled_assignment.bind
  · refine carries_after_skip (.bind_firm (firm_char v (by decide)) (advances_char ')') fun _ => ?_)
      (settled_char (by decide)).bind
    refine carries_after_skip (hg.body.bind advances_body (hg.branches hv pos cond)
      fun body mid b r h hr => ?_) settled_body.bind
    rw [run_bind, Outcome.andThen_eq_ok] at h
    obtain ⟨o, mid', ho, h⟩ := h
    rcases optional_eq_ok ho with ⟨_, rfl, helse⟩ | ⟨rfl, rfl, -⟩
    · exact over_of_elseWord helse
    · cases h
      exact hr
  · rw [run_bind, run_space, Outcome.andThen_ok, run_bind, Outcome.andThen_eq_ok] at h
    obtain ⟨_, t, hclose, -⟩ := h
    exact .of_space (char_eq_ok hclose) (by decide)

/-- The rule that reads a statement is also the first one that does with another line below. -/
theorem statement : Carries ('\n' :: v) (n + 1) Over bare.statement := by
  have hcalls := hg.command.orElse (hg.evaluation hv) fun s a r _ hfail h hr =>
    command_stays h hr hfail
  have hdeclarations := (hg.declaration hv).orElse hcalls fun s a r _ hfail h hr =>
    declaration_stays h hr hfail
  have hreturns := (hg.returnStmt hv).orElse hdeclarations fun s a r _ hfail h _ =>
    returnStmt_of_keyword ((firm_keyword v (by decide)).failed (return_of_other hfail h))
  refine (hg.conditional hv).orElse hreturns fun s a r _ _ h _ => ?_
  rcases conditional_of_other h with hfail | ⟨more, rfl⟩
  · exact conditional_of_keyword ((firm_keyword v (by decide)).failed hfail)
  · rw [List.append_assoc]
    exact conditional_dot

end Rules.Carried

/-! ### Lists of statements -/

section sequences

variable {v s t m r : List Char} {n : Nat} {a : Stmt} {ss others : List Stmt}

theorem closed_append (h : closed s = false) : closed (s ++ t) = false := by
  cases s with
  | nil => cases h
  | cons c s => exact h

theorem statements_congr (h : skip isBreak s = skip isBreak t) :
    bare.statements s = bare.statements t := by
  rw [statements, Rules.sequence, run_bind, run_bind, run_breaks, run_breaks, h]

theorem statements_closed (h : closed (skip isBreak s) = true) :
    bare.statements s = .ok [] (skip isBreak s) := by
  rw [statements, Rules.sequence, run_bind, run_breaks, Outcome.andThen_ok, manyUntil_done h]

theorem length_lt_of_statement (ha : bare.statement (skip isBreak s) = .ok a m) :
    (skip isGap m).length < s.length := by
  have hread := advances_statement.length_le ha
  have hbreak := (skip_suffix isBreak s).length_le
  have hgap := (skip_suffix isGap m).length_le
  omega

theorem statements_cons (hopen : closed (skip isBreak s) = false)
    (ha : bare.statement (skip isBreak s) = .ok a m) (hm : ended (skip isGap m) = true) :
    bare.statements s = (bare.statements (skip isGap m)).map (a :: ·) := by
  have hstep : (do let a ← bare.statement; statementEnd; breaks; return a : Parser Stmt)
      (skip isBreak s) = .ok a (skip isBreak (skip isGap m)) := by
    rw [run_bind, ha, Outcome.andThen_ok, run_bind, statementEnd_ok hm, Outcome.andThen_ok,
      run_bind, run_breaks]
    rfl
  have hread := advances_statement.length_le ha
  have hgap := (skip_suffix isGap m).length_le
  have hbreak := (skip_suffix isBreak (skip isGap m)).length_le
  rw [statements, Rules.sequence, run_bind, run_bind, run_breaks, run_breaks, Outcome.andThen_ok,
    Outcome.andThen_ok, manyUntil_ok hopen hstep (by omega)]

/-- Statements are read one after the other, up to the place where their list is closed. -/
theorem statements_induction {P : List Char → List Stmt → Prop}
    (hdone : ∀ s, closed (skip isBreak s) = true → skip isBreak s = r → P s [])
    (hnext : ∀ s a m others, closed (skip isBreak s) = false →
      bare.statement (skip isBreak s) = .ok a m → ended (skip isGap m) = true →
        bare.statements (skip isGap m) = .ok others r → P (skip isGap m) others →
          P s (a :: others))
    (h : bare.statements s = .ok ss r) : P s ss := by
  induction hn : s.length using Nat.strongRecOn generalizing s ss with
  | ind k ih =>
    rcases statements_eq_ok h with ⟨hclosed, rfl, hr⟩ |
      ⟨hopen, a, m, others, ha, hended, hothers, rfl⟩
    · exact hdone s hclosed hr.symm
    · have hlen := length_lt_of_statement ha
      exact hnext s a m others hopen ha hended hothers (ih _ (by omega) hothers rfl)

theorem rest_of_statements (h : bare.statements s = .ok ss r) :
    closed r = true ∧ skip isBreak r = r := by
  refine statements_induction (P := fun _ _ => closed r = true ∧ skip isBreak r = r) ?_ ?_ h
  · rintro s hclosed rfl
    exact ⟨hclosed, skip_skip (fun _ h => h) s⟩
  · intro _ _ _ _ _ _ _ _ ih
    exact ih

/-- If other statements are read behind it, a statement is over: an unclosed comment would have
stopped them. -/
theorem over_of_statements (hm : ended (skip isGap m) = true)
    (h : bare.statements (skip isGap m) = .ok others r) : Over m := by
  refine ⟨fun hopen => ?_, .inl hm⟩
  have hskip : skip isBreak (skip isGap m) = skip isSpace m := by
    rw [skip_skip isBreak_of_isGap, ← skip_skip isBreak_of_isSpace, hopen.skip_eq]
  obtain ⟨rest, hrest, -⟩ := hopen
  rcases statements_eq_ok h with ⟨hclosed, -⟩ | ⟨-, a, m', _, ha, -⟩
  · rw [hskip, hrest] at hclosed
    cases hclosed
  · obtain ⟨c, t, ht, -, hc⟩ := unspaced_statement ha
    rw [hskip, hrest] at ht
    cases ht
    exact hc rfl

/-- The statements of a text come before those of the text below it. -/
theorem statements_append (hstmt : Carries ('\n' :: v) n Over bare.statement) (hs : s.length < n)
    (h : bare.statements s = .ok ss r) :
    bare.statements (s ++ '\n' :: v) = (bare.statements (r ++ '\n' :: v)).map (ss ++ ·) := by
  revert hs
  refine statements_induction (P := fun s ss => s.length < n → bare.statements (s ++ '\n' :: v) =
    (bare.statements (r ++ '\n' :: v)).map (ss ++ ·)) ?_ ?_ h
  · rintro s hclosed rfl -
    have hsame : skip isBreak (s ++ '\n' :: v) = skip isBreak (skip isBreak s ++ '\n' :: v) := by
      cases hskip : skip isBreak s with
      | nil => exact skip_append_nil hskip v
      | cons c t =>
        rw [hskip, closed, beq_iff_eq] at hclosed
        subst hclosed
        have hsettled : Settled (skip isBreak s) := hskip ▸ settled_cons (by decide)
        rw [skip_append_settled hsettled, hskip]
        exact (skip_neg (by decide) (by decide)).symm
    rw [statements_congr hsame]
    exact (Outcome.map_id _).symm
  · intro s a m others hopen ha hended hothers ih hs
    have hover := over_of_statements hended hothers
    have hskip := skip_append_settled (unspaced_statement ha).settled v
    have hgap := skip_isGap_append (not_unclosed_isGap hover.closed) v
    have hread := hstmt (Nat.lt_of_le_of_lt (skip_suffix isBreak s).length_le hs) ha hover
    have hlen := length_lt_of_statement ha
    rw [statements_cons (m := m ++ '\n' :: v) (a := a), hgap, ih (by omega), Outcome.map_map]
    · rfl
    · rw [hskip, closed_append hopen]
    · rw [hskip, hread]
    · rw [hgap, ended_append, hended]

end sequences

namespace Rules.Carried

variable {v : List Char} {n : Nat} (hv : EndsLine ('\n' :: v))

include hv

theorem statements (hg : Carried v n) : Carries ('\n' :: v) (n + 1) Shut bare.statements := by
  intro s ss r hs h hr
  obtain ⟨hclosed, hskip⟩ := rest_of_statements h
  cases r with
  | nil =>
    obtain ⟨t, ht⟩ := hr
    rw [skip_nil] at ht
    cases ht
  | cons c r =>
    rw [closed, beq_iff_eq] at hclosed
    subst hclosed
    have hrest : skip isBreak ('\x7d' :: (r ++ '\n' :: v)) = '\x7d' :: (r ++ '\n' :: v) :=
      skip_neg (by decide) (by decide)
    rw [statements_append (hg.statement hv) hs h, List.cons_append, statements_closed, hrest]
    · simp
    · rw [hrest]
      rfl

/-- Each rule is carried over on texts of one more character. -/
theorem step (hg : Carried v n) : Carried v (n + 1) where
  expr := bare_expr ▸ hg.assignment hv
  unary := bare_unary ▸ hg.signed hv
  stmt := bare_stmt ▸ hg.statement hv
  stmts := bare_stmts ▸ hg.statements hv
  branch := bare_branch ▸ hg.conditional hv

theorem all (n : Nat) : Carried v n := by
  induction n with
  | zero => exact ⟨.zero, .zero, .zero, .zero, .zero⟩
  | succ n ih => exact ih.step hv

end Rules.Carried

/-! ### Whole texts -/

/-- A text that is read does not continue the line above it, unless it begins with a type whose
first segment is `else`. -/
theorem endsLine_of_statements {s r : List Char} {ss : List Stmt}
    (h : bare.statements s = .ok ss r)
    (helse : ∀ type name init, ss.head? = some (.declare ⟨0, 0⟩ (some type) name init) →
      firstSegment type ≠ "else") : EndsLine ('\n' :: s) := by
  refine ⟨s, rfl, fun hhead => ?_, ?_⟩
  · obtain ⟨t, ht⟩ := List.head?_eq_some_iff.mp hhead
    have hskip : skip isBreak s = '.' :: t := by
      rw [← skip_skip isBreak_of_isSpace, ht, skip_neg (by decide) (by decide)]
    rcases statements_eq_ok h with ⟨hclosed, -⟩ | ⟨-, a, m, _, ha, -⟩
    · rw [hskip] at hclosed
      cases hclosed
    · rw [hskip] at ha
      exact (statement_symbol (by decide) (assignment_failed (by decide) (by decide))).ne_ok ha
  · rcases keyword_cases "else" (skip isSpace s) with ⟨after, hs, hends, -⟩ | hfail
    · have hskip : skip isBreak s = "else".toList ++ after := by
        rw [← skip_skip isBreak_of_isSpace, hs]
        exact skip_unspaced (fun _ h => h) ((Unspaced.of_identifier (by decide)).append after)
      rcases statements_eq_ok h with ⟨hclosed, -⟩ | ⟨-, a, m, _, ha, -, -, rfl⟩
      · rw [hskip] at hclosed
        cases hclosed
      · rw [hskip] at ha
        obtain ⟨type, name, init, rfl, hfirst⟩ :=
          statement_reserved (by decide) (by decide) (by decide) hends ha
        exact absurd hfirst (helse type name init rfl)
    · exact hfail

theorem Stmt.declare_of_bare {a : Stmt} {pos : Position} {type : Option String} {name : String}
    {init : Option Expr} (h : a.bare = .declare pos type name init) :
    ∃ pos' init', a = .declare pos' type name init' := by
  cases a with
  | declare pos' type' name' init' =>
    rw [Stmt.bare_declare] at h
    cases h
    exact ⟨pos', init', rfl⟩
  | eval | ret | branch => simp at h

/-- Reading a block goes to the end of the text. -/
theorem Block.run_of_read {text : String} {b : Block} (h : Block.read text = .ok b) :
    Rules.bare.statements text.toList = .ok (b.statements.map Stmt.bare) [] := by
  cases hs : (Source.ofString text).finish
      ((Source.ofString text).rules.statements (Source.ofString text).text) with
  | error e => simp [Block.read, hs, Except.map] at h
  | ok ss =>
    simp only [Block.read, hs, Except.map, Except.ok.injEq] at h
    subst h
    obtain ⟨rest, hrun, hskip⟩ := Source.finish_eq_ok hs
    have hagree := ((agree_bare (Source.ofString text).index.locate text.toList.length).statements
      text.toList (Nat.lt_succ_self _)).1
    have hbare : Rules.bare.statements text.toList = .ok (ss.map Stmt.bare) rest := by
      rw [hagree]
      exact Outcome.map_eq_ok.mpr ⟨ss, hrun, rfl⟩
    rw [(rest_of_statements hbare).2] at hskip
    rw [hbare, hskip]

/-- A newline separates statements: a text with another one below it is read as the statements of
both, unless the one below begins with a declaration that could be taken for an `else`. -/
theorem newline_separates_statements {above below : String} {b₁ b₂ : Block}
    (h₁ : Block.read above = .ok b₁) (h₂ : Block.read below = .ok b₂)
    (helse : ∀ pos type name init,
      b₂.statements.head? = some (.declare pos (some type) name init) →
        firstSegment type ≠ "else") :
    ∃ b, Block.read (above ++ "\n" ++ below) = .ok b ∧
      Stmt.sameAll b.statements (b₁.statements ++ b₂.statements) = true := by
  have hrun₁ := Block.run_of_read h₁
  have hrun₂ := Block.run_of_read h₂
  have hends : EndsLine ('\n' :: below.toList) := by
    refine endsLine_of_statements hrun₂ fun type name init hhead => ?_
    rw [List.head?_map, Option.map_eq_some_iff] at hhead
    obtain ⟨first, hfirst, hbare⟩ := hhead
    obtain ⟨pos, init', rfl⟩ := Stmt.declare_of_bare hbare
    exact helse pos type name init' hfirst
  have hstmt := (Carried.all hends above.toList.length).statement hends
  have hbelow : bare.statements ('\n' :: below.toList) = bare.statements below.toList :=
    statements_congr (skip_pos (by decide) (by decide))
  have hrun : bare.statements (above ++ "\n" ++ below).toList =
      .ok ((b₁.statements ++ b₂.statements).map Stmt.bare) [] := by
    have happend := statements_append hstmt (Nat.lt_succ_self _) hrun₁
    rw [List.nil_append, hbelow, hrun₂] at happend
    rw [List.map_append]
    simpa using happend
  obtain ⟨b, hread, hbare⟩ := Block.read_of_run hrun
  exact ⟨b, hread, Stmt.sameAll_of_bare_eq hbare⟩

/-- A condition with a comment behind it, and below it a type that only looks like `else`. -/
theorem newline_separates_condition :
    let p : Position := ⟨1, 1⟩
    ∃ b₁, Block.read "if (a) \x7b\x7d // b" = .ok b₁ ∧
      Stmt.sameAll b₁.statements [.branch p (.var p "a") ⟨p, []⟩ none] = true ∧
    ∃ b₂, Block.read "else_.List c\n[c]" = .ok b₂ ∧
      Stmt.sameAll b₂.statements [.declare p (some "else_.List") "c" none,
        .eval p (.list p [.var p "c"])] = true ∧
    ∃ b, Block.read ("if (a) \x7b\x7d // b" ++ "\n" ++ "else_.List c\n[c]") = .ok b ∧
      Stmt.sameAll b.statements (b₁.statements ++ b₂.statements) = true := by
  intro p
  obtain ⟨b₁, h₁, hsame₁⟩ : ∃ b₁, Block.read "if (a) \x7b\x7d // b" = .ok b₁ ∧
      Stmt.sameAll b₁.statements [.branch p (.var p "a") ⟨p, []⟩ none] = true :=
    Block.exists_read (fun _ h => h) (by decide +kernel)
  obtain ⟨b₂, h₂, hsame₂⟩ : ∃ b₂, Block.read "else_.List c\n[c]" = .ok b₂ ∧
      Stmt.sameAll b₂.statements [.declare p (some "else_.List") "c" none,
        .eval p (.list p [.var p "c"])] = true :=
    Block.exists_read (fun _ h => h) (by decide +kernel)
  refine ⟨b₁, h₁, hsame₁, b₂, h₂, hsame₂, newline_separates_statements h₁ h₂ ?_⟩
  intro pos type name init hhead
  obtain ⟨more, hmore⟩ := List.head?_eq_some_iff.mp hhead
  rw [hmore] at hsame₂
  have htype : type = "else_.List" := by
    cases init with
    | none =>
      simp only [Stmt.sameAll, Stmt.same, Bool.and_eq_true, beq_iff_eq, Option.some.injEq] at hsame₂
      exact hsame₂.1.1
    | some e => simp [Stmt.sameAll, Stmt.same] at hsame₂
  rw [htype]
  decide

end QueryBlocks
