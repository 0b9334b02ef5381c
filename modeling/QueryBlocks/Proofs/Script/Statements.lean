import QueryBlocks.Proofs.Script.Declared

/-! Written statements on one line. Each is read by the rule for its kind, and by none of the rules
that are tried before it. -/
namespace QueryBlocks

open QueryBlocks.Parser QueryBlocks.Token QueryBlocks.Rules

/-- The text of the statement is read back as a line, as a branch behind `else` if it is one, and
it is taken neither for parameters nor for a declaration of another kind. -/
structure SpelledStmt (d : Nat) (s : Stmt) : Prop where
  line : Line bare.statement (Print.stmt d s).toList s.bare
  branch : s.isBranch = true → ∀ r, EndsLine r →
    bare.conditional ((Print.stmt d s).toList ++ r) = .ok s.bare r ∧
      ∃ v, keyword "if" ((Print.stmt d s).toList ++ r) = .ok () v
  noParams : ∀ r, EndsLine r → (closureParams ((Print.stmt d s).toList ++ r)).Failed
  noClass : ∀ r, EndsLine r → (bare.classDecl ((Print.stmt d s).toList ++ r)).Failed
  noMethod : ∀ r, EndsLine r → (bare.method ((Print.stmt d s).toList ++ r)).Failed

variable {ok : String → Prop} {d : Nat} {e : Expr}

/-- What begins as an expression does is no statement of another kind. -/
theorem Lead.statement_eq {s : List Char} (h : Lead s) : bare.statement s =
    (bare.assignment s).andThen fun e => pure (.eval ⟨0, 0⟩ e) := by
  rw [statement, run_orElse, run_orElse, run_orElse, run_orElse, h.conditional_failed.or,
    h.returnStmt_failed.or, h.declaration_failed.or, h.command_failed.or, evaluation, run_bind,
    here, Outcome.andThen_ok, run_bind]
  rfl

theorem line_eval {t : List Char} (hbegins : Begins 0 t)
    (hlead : ∀ r, EndsLine r → Lead (t ++ r)) (hwhole : Whole t e) :
    Line bare.statement t (.eval ⟨0, 0⟩ e) := by
  refine ⟨hbegins, fun r hr => (hlead r hr).keyword_failed (by decide), fun r hr => ?_⟩
  rw [(hlead r hr).statement_eq, hwhole r (hr.follows 1)]
  rfl

theorem SpelledStmt.eval (p : Position) (hv : e.Valid ok) (h : Spelled d e) :
    SpelledStmt d (.eval p e) := by
  have hlead (r : List Char) (hr : EndsLine r) : Lead ((Print.expr d e).toList ++ r) :=
    lead_expr d hv hr.tail.trail
  exact ⟨line_eval (h.begins.mono (Nat.zero_le _)) hlead h.whole, fun hb => (nomatch hb),
    fun r hr => (hlead r hr).closureParams_failed, fun r hr => (hlead r hr).classDecl_failed,
    fun r hr => (hlead r hr).method_failed⟩

section declarations

variable {type : Option String} {name : String} {init : Option Expr} {r : List Char}

/-- The initial value of a declaration or a field. -/
def initText (d : Nat) : Option Expr → List Char
  | none => []
  | some e => ' ' :: '=' :: ' ' :: (Print.expr d e).toList

theorem initializer_run (hinit : ∀ e ∈ init, Spelled d e) (hr : EndsLine r) :
    bare.initializer (initText d init ++ r) = .ok (init.map Expr.bare) r := by
  cases init with
  | none =>
    obtain ⟨s, rfl, -⟩ := hr
    have hmark : (initMark ('\n' :: s)).Failed := by
      rw [initMark, run_bind, run_gap, skip_neg (by decide) (by decide), Outcome.andThen_ok,
        run_bind]
      exact (char_failed (by simp)).andThen
    rw [initializer, run_bind, initText, List.nil_append, optional_failed hmark]
    rfl
  | some e =>
    have h := hinit e rfl
    have hmark : initMark (' ' :: '=' :: ' ' :: ((Print.expr d e).toList ++ r)) =
        .ok () ((Print.expr d e).toList ++ r) := by
      have hspace : skip isSpace ((Print.expr d e).toList ++ r) = (Print.expr d e).toList ++ r :=
        skip_unspaced isBreak_of_isSpace (h.begins.unspaced.append r)
      have hnext : notNext (char '=') (' ' :: ((Print.expr d e).toList ++ r)) =
          .ok () (' ' :: ((Print.expr d e).toList ++ r)) := rfl
      simp only [initMark, run_bind, run_gap, skip_pos (g := isGap) (c := ' ') (by decide)
        (by decide), skip_neg (g := isGap) (c := '=') (by decide) (by decide), run_char,
        Outcome.andThen_ok, hnext, run_space, skip_pos (g := isSpace) (c := ' ') (by decide)
        (by decide), hspace]
    simp only [initText, List.cons_append, initializer, run_bind, optional_ok hmark,
      Outcome.andThen_ok, h.whole r (hr.follows 1), run_pure, Option.map_some]

theorem endsWord_init (hr : EndsLine r) : EndsWord (initText d init ++ r) := by
  cases init with
  | none => exact (hr.follows 1).word
  | some e => exact endsWord_cons.mpr (by decide)

/-- What follows the name of a declaration is no list of parameters. -/
theorem params_init (hr : EndsLine r) :
    ((do gap; params : Parser (List String)) (initText d init ++ r)).Failed := by
  rw [run_bind, run_gap, Outcome.andThen_ok, params, run_bind]
  refine (char_failed ?_).andThen
  cases init with
  | none =>
    obtain ⟨s, rfl, -⟩ := hr
    rw [initText, List.nil_append, skip_neg (by decide) (by decide)]
    simp
  | some e =>
    rw [initText, List.cons_append, skip_pos (by decide) (by decide), List.cons_append,
      skip_neg (by decide) (by decide)]
    simp

theorem stmt_declare_text (p : Position) : (Print.stmt d (.declare p type name init)).toList =
    typeText type ++ ' ' :: (name.toList ++ initText d init) := by
  cases init <;> simp [Print.stmt, typeText, initText]

/-- Without parameters behind its name, a declaration is no method. -/
theorem method_declaration (words : List String) (hw : ∀ word ∈ words, word ∈ modifierWords)
    (h : ∀ t ∈ type, IsType t) (hn : isName name = true) (hr : EndsLine r) :
    (bare.method ((Print.modifiers words).toList ++
      (typeText type ++ ' ' :: (name.toList ++ (initText d init ++ r))))).Failed := by
  have hunspaced := (Unspaced.of_identifier (isIdentifier_of_isName hn)).append
    (initText d init ++ r)
  have hparams : ((do gap; params : Parser (List String)) (initText d init ++ r)).Failed :=
    params_init hr
  rw [run_bind] at hparams
  rw [method, run_bind, here, Outcome.andThen_ok, run_bind,
    modifiers_append hw (begins_typeText h _) (modifiers_typeText h _), Outcome.andThen_ok,
    run_bind, typeAfter_run h hunspaced, Outcome.andThen_ok, run_bind,
    name_append hn (endsWord_init hr), Outcome.andThen_ok, run_bind, run_gap, Outcome.andThen_ok,
    run_bind]
  exact hparams.andThen

theorem SpelledStmt.declare (p : Position) (htype : ∀ t ∈ type, Declarable t)
    (hret : ∀ t ∈ type, firstSegment t ≠ "return") (hn : isName name = true)
    (hinit : ∀ e ∈ init, Spelled d e) : SpelledStmt d (.declare p type name init) := by
  have hid := isIdentifier_of_isName hn
  have htypes : ∀ t ∈ type, IsType t := fun t ht => (htype t ht).1
  have htext (r : List Char) : (Print.stmt d (.declare p type name init)).toList ++ r =
      typeText type ++ ' ' :: (name.toList ++ (initText d init ++ r)) := by
    rw [stmt_declare_text]
    simp only [List.append_assoc, List.cons_append]
  refine ⟨⟨?_, fun r hr => ?_, fun r hr => ?_⟩, fun hb => Bool.noConfusion hb, fun r hr => ?_,
    fun r hr => ?_, fun r hr => ?_⟩
  · rw [stmt_declare_text]
    exact begins_typeText htypes _
  · rw [htext]
    rcases keyword_typeText htypes (name.toList ++ (initText d init ++ r)) (k := "else")
      (by decide) (by decide) with hfail | ⟨⟨t, ht, hseg⟩, -⟩
    · exact hfail
    · exact absurd hseg (htype t ht).2
  · have hreturn : (bare.returnStmt
        (typeText type ++ ' ' :: (name.toList ++ (initText d init ++ r)))).Failed := by
      rw [returnStmt, run_bind, here, Outcome.andThen_ok, run_bind]
      rcases keyword_typeText htypes (name.toList ++ (initText d init ++ r)) (k := "return")
        (by decide) (by decide) with hfail | ⟨⟨t, ht, hseg⟩, -⟩
      · exact hfail.andThen
      · exact absurd hseg (hret t ht)
    rw [htext, statement, run_orElse, run_orElse, run_orElse,
      (conditional_typeText htypes _).or, hreturn.or, declaration, run_bind, here,
      Outcome.andThen_ok, run_bind,
      typeAhead_run htypes ((Unspaced.of_identifier hid).append (initText d init ++ r)),
      Outcome.andThen_ok, run_bind, name_append hn (endsWord_init hr), Outcome.andThen_ok,
      run_bind, initializer_run hinit hr, Stmt.bare_declare]
    rfl
  · rw [htext]
    exact closureParams_typeText htypes hid _
  · rw [htext]
    exact classDecl_declaration [] (List.forall_mem_nil _) htypes _
  · rw [htext]
    exact method_declaration [] (List.forall_mem_nil _) htypes hn hr

end declarations

/-! ### Statements with a word of their own -/

section words

variable {w : String} {u : List Char}

/-- The words that begin a statement of their own. -/
def statementWords : List String := ["if", "return"]

theorem statementWord_facts (hw : w ∈ statementWords) : isIdentifier w = true ∧
    isReserved w = true ∧ w ∉ modifierWords ∧ isTypeName w = false ∧ w ≠ "def" ∧ w ≠ "class" ∧
    w ≠ "else" := by
  revert w
  decide

theorem closureParams_word (hw : w ∈ statementWords) (hu : EndsWord u) :
    (closureParams (w.toList ++ u)).Failed := by
  obtain ⟨hid, hres, -⟩ := statementWord_facts hw
  refine Lead.closureParams_of_word hid hu fun hn => ?_
  rw [isName, hid, hres] at hn
  cases hn

theorem modifiers_word (hw : w ∈ statementWords) (hu : EndsWord u) :
    modifiers (w.toList ++ u) = .ok [] (w.toList ++ u) := by
  obtain ⟨hid, -, hmod, -⟩ := statementWord_facts hw
  refine many_failed ?_
  rw [run_bind]
  exact (verify_refused (identifier_append hid hu) (by simpa using hmod)).andThen

theorem classDecl_word (hw : w ∈ statementWords) (hu : EndsWord u) :
    (bare.classDecl (w.toList ++ u)).Failed := by
  obtain ⟨hid, -, -, -, -, hclass, -⟩ := statementWord_facts hw
  rw [classDecl, run_bind, here, Outcome.andThen_ok, run_bind, modifiers_word hw hu,
    Outcome.andThen_ok, run_bind]
  exact (keyword_failed (by decide) (all_isWordChar hid) hu hclass).andThen

theorem method_word (hw : w ∈ statementWords) (hu : EndsWord u) (hdot : u.head? ≠ some '.') :
    (bare.method (w.toList ++ u)).Failed := by
  obtain ⟨hid, -, -, htype, hdef, -⟩ := statementWord_facts hw
  have hread := qualifiedName_append (.of_identifier hid) hu hdot
  have hname : (typeName (w.toList ++ u)).Failed := verify_refused hread htype
  have hkey : (keyword "def" (w.toList ++ u)).Failed :=
    keyword_failed (by decide) (all_isWordChar hid) hu hdef
  rw [method, run_bind, here, Outcome.andThen_ok, run_bind, modifiers_word hw hu,
    Outcome.andThen_ok, run_bind, typeAfter, List.isEmpty_nil, if_pos rfl, typeAhead, run_bind,
    declaredType, run_orElse, run_bind, hkey.andThen.or, run_bind]
  exact hname.andThen.andThen.andThen

/-- A statement that begins with a word of its own is read if the rule for this word reads it. -/
theorem SpelledStmt.of_word {s : Stmt} (hw : w ∈ statementWords)
    (htext : (Print.stmt d s).toList = w.toList ++ u)
    (hends : ∀ r, EndsLine r → EndsWord (u ++ r) ∧ (u ++ r).head? ≠ some '.')
    (hbranch : s.isBranch = true → w = "if" ∧ ∀ r, EndsLine r →
      bare.conditional ((Print.stmt d s).toList ++ r) = .ok s.bare r)
    (hrun : ∀ r, EndsLine r → bare.statement ((Print.stmt d s).toList ++ r) = .ok s.bare r) :
    SpelledStmt d s := by
  obtain ⟨hid, -, -, -, -, -, helse⟩ := statementWord_facts hw
  have happend (r : List Char) : (Print.stmt d s).toList ++ r = w.toList ++ (u ++ r) := by
    rw [htext, List.append_assoc]
  refine ⟨⟨?_, fun r hr => ?_, hrun⟩, fun hb r hr => ⟨(hbranch hb).2 r hr, ?_⟩, fun r hr => ?_,
    fun r hr => ?_, fun r hr => ?_⟩
  · rw [htext]
    exact (Begins.of_identifier hid).append u
  · rw [happend]
    exact keyword_failed (by decide) (all_isWordChar hid) (hends r hr).1 helse
  · rw [happend, (hbranch hb).1]
    exact ⟨_, keyword_append (hends r hr).1⟩
  · rw [happend]
    exact closureParams_word hw (hends r hr).1
  · rw [happend]
    exact classDecl_word hw (hends r hr).1
  · rw [happend]
    exact method_word hw (hends r hr).1 (hends r hr).2

end words

theorem conditional_return {u : List Char} (hu : EndsWord u) :
    (bare.conditional ("return".toList ++ u)).Failed := by
  rw [conditional, run_bind, here, Outcome.andThen_ok, run_bind]
  exact (keyword_failed (by decide) (by decide) hu (by decide)).andThen

theorem SpelledStmt.ret (p : Position) : SpelledStmt d (.ret p none) := by
  refine .of_word (w := "return") (u := []) (by decide) (by simp [Print.stmt]) (fun r hr => ?_)
    (fun hb => (nomatch hb)) fun r hr => ?_
  · exact ⟨(hr.follows 1).word, (hr.follows 1).segment (by decide)⟩
  · have hvalue :
        ((do gap1; if ended (← remaining) then fail else return : Parser Unit) r).Failed := by
      obtain ⟨s, rfl, -⟩ := hr
      rw [run_bind]
      exact (gap1_failed (by decide)).andThen
    have hword := (hr.follows 1).word
    have hread : keyword "return" ("return".toList ++ r) = .ok () r := keyword_append hword
    rw [Print.stmt, statement, run_orElse, run_orElse, (conditional_return hword).or, returnStmt,
      run_bind, here, Outcome.andThen_ok, run_bind, hread, Outcome.andThen_ok, run_bind,
      optional_failed hvalue]
    rfl

theorem SpelledStmt.retValue (p : Position) (h : Spelled d e) :
    SpelledStmt d (.ret p (some e)) := by
  have htext : (Print.stmt d (.ret p (some e))).toList =
      "return".toList ++ ' ' :: (Print.expr d e).toList := by simp [Print.stmt]
  have hends (r : List Char) : EndsWord (' ' :: ((Print.expr d e).toList ++ r)) :=
    endsWord_cons.mpr (by decide)
  refine .of_word (by decide) htext (fun r _ => ⟨hends r, by simp⟩) (fun hb => (nomatch hb))
    fun r hr => ?_
  have hvalue : (do gap1; if ended (← remaining) then fail else return : Parser Unit)
      (' ' :: ((Print.expr d e).toList ++ r)) = .ok () ((Print.expr d e).toList ++ r) := by
    have hopen : ended ((Print.expr d e).toList ++ r) = false := by
      obtain ⟨c, s, hcs, hc, -⟩ := h.begins
      have hne {d : Char} (hd : isOpening d = false) : c ≠ d := by
        rintro rfl
        rw [hc] at hd
        cases hd
      rw [hcs, List.cons_append, ended]
      simp [hne (d := '\n') (by decide), hne (d := ';') (by decide), hne (d := '\x7d') (by decide)]
    rw [run_bind, run_gap1 (h.begins.unspaced.append r), Outcome.andThen_ok, run_bind, remaining,
      Outcome.andThen_ok, hopen]
    rfl
  have hread : keyword "return" ("return".toList ++ ' ' :: ((Print.expr d e).toList ++ r)) =
      .ok () (' ' :: ((Print.expr d e).toList ++ r)) := keyword_append (hends r)
  have hreturn : bare.returnStmt ("return".toList ++ ' ' :: ((Print.expr d e).toList ++ r)) =
      .ok (.ret ⟨0, 0⟩ (some e.bare)) r := by
    simp only [returnStmt, here, run_bind, Outcome.andThen_ok, hread, optional_ok hvalue,
      h.whole r (hr.follows 1), run_pure]
    rfl
  rw [htext, List.append_assoc, List.cons_append, statement, run_orElse, run_orElse,
    (conditional_return (hends r)).or, hreturn]
  rfl

end QueryBlocks
