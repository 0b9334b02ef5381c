import QueryBlocks.Proofs.Script.ClosureFree

/-!
Calls without parentheses. A name, a space and arguments are read as the call of the name with these
arguments in parentheses. The rules that are tried before must give up on it: the name is no type,
and the first argument is none of the words that could go on with an expression.
-/
namespace QueryBlocks

open QueryBlocks.Parser QueryBlocks.Token QueryBlocks.Rules

theorem isName_of_name {w : String} (h : name w.toList = .ok w []) : isName w = true :=
  ensures_name w.toList w [] h

theorem not_isTypeName_of_failed {w : String} (hid : isIdentifier w = true)
    (h : (typeName w.toList).Failed) : isTypeName w = false := by
  have hread : qualifiedName w.toList = .ok w [] := by
    have hword : qualifiedName (w.toList ++ []) = .ok w [] :=
      qualifiedName_append (.of_identifier hid) endsWord_nil (by simp)
    rwa [List.append_nil] at hword
  by_contra htype
  have hname : typeName w.toList = .ok w [] := verify_ok hread (by simpa using htype)
  rw [hname] at h
  exact h

/-- A text that is one statement and nothing else. -/
theorem statements_single {t : List Char} {s : Stmt} (hbegins : Begins 0 t)
    (hrun : bare.statement t = .ok s []) : bare.statements t = .ok [s] [] := by
  have hend : statementEnd [] = .ok () [] := by
    rw [statementEnd, run_bind, run_gap, skip_nil]
    rfl
  have hstep : (do let s ← bare.statement; statementEnd; breaks; return s : Parser Stmt) t =
      .ok s [] := by
    rw [run_bind, hrun, Outcome.andThen_ok, run_bind, hend, Outcome.andThen_ok, run_bind,
      run_breaks, skip_nil]
    rfl
  have hlen : ([] : List Char).length < t.length := by
    obtain ⟨c, s, rfl, -⟩ := hbegins
    simp
  rw [statements, Rules.sequence, run_bind, run_breaks,
    skip_unspaced (fun _ h => h) hbegins.unspaced, Outcome.andThen_ok,
    manyUntil_ok hbegins.not_closed hstep hlen, manyUntil_done rfl]
  rfl

section arguments

variable {s r : List Char} {e first : Expr} {es more : List Expr} {d : Nat}

/-- What an argument without parentheses may begin with. -/
def isArgumentStart (c : Char) : Bool := isWordChar c || c == '"' || c == '\'' || c == '['

theorem ne_of_isArgumentStart {c c' : Char} (hc : isArgumentStart c = true)
    (hc' : isArgumentStart c' = false) : c ≠ c' := by
  rintro rfl
  rw [hc] at hc'
  cases hc'

/-- Where an expression is read, no operator that is a word stands. -/
theorem wordOperator_failed {k : String} (hk : k ∈ wordOperators)
    (h : bare.assignment s = .ok e r) : (keyword k s).Failed := by
  obtain ⟨hid, hres, -⟩ := Barred.wordOperator_facts hk
  have hother : k ∉ ["true", "false", "null", "new"] := by
    revert k
    decide
  rcases keyword_cases k s with ⟨rest, rfl, hrest, -⟩ | hfail
  · have hfail := assignment_reserved hid hres hother hrest
    rw [h] at hfail
    exact hfail.elim
  · exact hfail

theorem argument_of_isArgumentStart {c : Char} (hc : isArgumentStart c = true) :
    bare.argument (c :: s) = bare.assignment (c :: s) := by
  have hstar : (char '*' (c :: s)).Failed := by
    refine char_failed fun h => ?_
    cases h
    exact absurd hc (by decide)
  rw [argument, run_bind, here, Outcome.andThen_ok, run_bind, optional_failed hstar,
    Outcome.andThen_ok, bare_expr]

theorem startsArgument_of_char {c : Char} (hc : isArgumentStart c = true)
    (hwords : ∀ k ∈ wordOperators, (keyword k (c :: s)).Failed) :
    startsArgument (c :: s) = .ok () (c :: s) := by
  have hnot : notNext (keyword "in" <|> keyword "instanceof" <|> keyword "as") (c :: s) =
      .ok () (c :: s) := by
    apply notNext_failed
    rw [run_orElse, run_orElse, (hwords "in" (by decide)).or, (hwords "instanceof" (by decide)).or]
    exact hwords "as" (by decide)
  have hread : satisfy isArgumentStart (c :: s) = .ok c s := by simp [satisfy, hc]
  rw [startsArgument, run_bind, hnot, Outcome.andThen_ok]
  exact ahead_ok hread

/-- Arguments that are read, and that begin with the right character, are announced as such. -/
theorem startsArgument_of_bareArgs {c : Char} (hc : isArgumentStart c = true)
    (h : bare.bareArgs (c :: s) = .ok es r) : startsArgument (c :: s) = .ok () (c :: s) := by
  rw [bareArgs, sepBy1, run_bind, Outcome.andThen_eq_ok] at h
  obtain ⟨first, mid, hfirst, -⟩ := h
  rw [argument_of_isArgumentStart hc] at hfirst
  exact startsArgument_of_char hc fun k hk => wordOperator_failed hk hfirst

/-- The arguments behind a name and a space, up to the end of the text. -/
theorem bareArgs_run (hargs : ∀ e ∈ first :: more, SpelledArg d e) :
    bare.bareArgs (", ".intercalate (Print.exprs d (first :: more))).toList =
      .ok ((first :: more).map Expr.bare) [] := by
  have hsep : ∀ e ∈ first :: more, ∀ r, ∃ b, comma gap space
      (", ".toList ++ ((Print.expr d e).toList ++ r)) = .ok b ((Print.expr d e).toList ++ r) := by
    intro e he r
    refine ⟨(), comma_run (fun s => ?_) (hargs e he).unspaced⟩
    rw [run_gap, skip_neg (by decide) (by decide)]
  have hnext : ∀ r, Follows 1 (", ".toList ++ r) := fun _ => .of_close (.inr (.inr rfl))
  have hstop : (comma gap space []).Failed := by
    rw [comma, run_bind, run_gap, skip_nil]
    trivial
  have hrun := sepBy1_run (fun e he => (hargs e he).argument) hsep (by decide) hnext Follows.nil
    hstop
  rw [exprs_eq_map, toList_intercalate, joined]
  rwa [List.append_nil] at hrun

end arguments

section calls

variable {word : String} {s r : List Char} {args : List Expr}

theorem conditional_of_name (hn : isName word = true) (hs : EndsWord s) :
    (bare.conditional (word.toList ++ s)).Failed := by
  have hne : word ≠ "if" := by
    rintro rfl
    exact absurd hn (by decide)
  exact conditional_of_keyword
    (keyword_failed (by decide) (all_isWordChar (isIdentifier_of_isName hn)) hs hne)

theorem returnStmt_of_name (hn : isName word = true) (hs : EndsWord s) :
    (bare.returnStmt (word.toList ++ s)).Failed := by
  have hne : word ≠ "return" := by
    rintro rfl
    exact absurd hn (by decide)
  exact returnStmt_of_keyword
    (keyword_failed (by decide) (all_isWordChar (isIdentifier_of_isName hn)) hs hne)

/-- A name that is no type begins no declaration. -/
theorem declaration_of_name (hn : isName word = true) (htype : isTypeName word = false)
    (hs : EndsWord s) (hdot : s.head? ≠ some '.') :
    (bare.declaration (word.toList ++ s)).Failed := by
  have hid := isIdentifier_of_isName hn
  have hne : word ≠ "def" := by
    rintro rfl
    exact absurd hn (by decide)
  have hdef : (keyword "def" (word.toList ++ s)).Failed :=
    keyword_failed (by decide) (all_isWordChar hid) hs hne
  have hread := qualifiedName_append (.of_identifier hid) hs hdot
  have hname : (typeName (word.toList ++ s)).Failed := verify_refused hread htype
  have hfail : (typeAhead (word.toList ++ s)).Failed := by
    rw [typeAhead, run_bind, declaredType, run_orElse, run_bind, run_bind, hdef.andThen.or]
    exact hname.andThen.andThen
  rw [declaration, run_bind, here, Outcome.andThen_ok, run_bind]
  exact hfail.andThen

/-- A name that is no type, a space and arguments. -/
theorem statement_command (hn : isName word = true) (htype : isTypeName word = false)
    (hs : Unspaced s) (hstart : startsArgument s = .ok () s)
    (hargs : bare.bareArgs s = .ok args r) :
    bare.statement (word.toList ++ ' ' :: s) =
      .ok (.eval ⟨0, 0⟩ (.call ⟨0, 0⟩ none word args)) r := by
  have hends : EndsWord (' ' :: s) := endsWord_cons.mpr (by decide)
  have hcommand : bare.command (word.toList ++ ' ' :: s) =
      .ok (.eval ⟨0, 0⟩ (.call ⟨0, 0⟩ none word args)) r := by
    rw [command, run_bind, here, Outcome.andThen_ok, run_bind, name_append hn hends,
      Outcome.andThen_ok, run_bind, run_gap1 hs, Outcome.andThen_ok, run_bind, hstart,
      Outcome.andThen_ok, run_bind, hargs]
    rfl
  rw [statement, run_orElse, run_orElse, run_orElse, run_orElse,
    (conditional_of_name hn hends).or, (returnStmt_of_name hn hends).or,
    (declaration_of_name hn htype hends (by simp)).or, hcommand]
  rfl

/-- The same arguments in parentheses, on their own. -/
theorem statement_call {d : Nat} (hn : isName word = true) (hargs : ∀ e ∈ args, SpelledArg d e) :
    bare.statement (word.toList ++ '(' :: ((", ".intercalate (Print.exprs d args)).toList ++ [')']))
      = .ok (.eval ⟨0, 0⟩ (.call ⟨0, 0⟩ none word (args.map Expr.bare))) [] := by
  have hcall : Primary
      (word.toList ++ '(' :: ((", ".intercalate (Print.exprs d args)).toList ++ [')']))
      (.call ⟨0, 0⟩ none word (args.map Expr.bare)) := by
    refine Primary.call hn (fun r => endsWord_cons.mpr (by decide)) fun r hr => ?_
    rw [List.cons_append, List.append_assoc]
    exact callArgs_plain hargs hr
  have hbegins := (Begins.of_identifier (k := 10) (isIdentifier_of_isName hn)).append
    ('(' :: ((", ".intercalate (Print.exprs d args)).toList ++ [')']))
  have hwhole := (hcall.fits.lower (by decide) (fun _ => hbegins.unsigned (Nat.le_refl 10))
    (Nat.le_refl 2) (by decide)).whole [] Follows.nil
  rw [List.append_nil] at hwhole
  rw [(Lead.of_isName hn Tail.call.trail).statement_eq, hwhole]
  rfl

/-- A text that is a call without parentheses. -/
theorem statements_command {first : Expr} {more : List Expr} (hn : isName word = true)
    (htype : isTypeName word = false) (hargs : ∀ e ∈ first :: more, SpelledArg 0 e)
    (hstart : ∃ c ∈ first.text.toList.head?, isArgumentStart c = true) :
    bare.statements (word ++ " " ++ ", ".intercalate (Print.exprs 0 (first :: more))).toList =
      .ok [.eval ⟨0, 0⟩ (.call ⟨0, 0⟩ none word ((first :: more).map Expr.bare))] [] := by
  have htext : (word ++ " " ++ ", ".intercalate (Print.exprs 0 (first :: more))).toList =
      word.toList ++ ' ' :: (", ".intercalate (Print.exprs 0 (first :: more))).toList := by
    simp
  obtain ⟨c, hc, hcstart⟩ := hstart
  obtain ⟨tail, hfirst⟩ := List.head?_eq_some_iff.mp hc
  have hitems : (", ".intercalate (Print.exprs 0 (first :: more))).toList =
      c :: (tail ++ (Print.exprs 0 more).flatMap fun text => ", ".toList ++ text.toList) := by
    have hexpr : (Print.expr 0 first).toList = c :: tail := hfirst
    rw [Print.exprs, toList_intercalate_cons, hexpr, List.cons_append]
  have hunspaced : Unspaced (", ".intercalate (Print.exprs 0 (first :: more))).toList := by
    rw [Print.exprs, toList_intercalate_cons]
    exact (hargs first List.mem_cons_self).unspaced.append _
  have hread := bareArgs_run hargs
  rw [htext]
  rw [hitems] at hread hunspaced ⊢
  have hbegins := (Begins.of_identifier (k := 0) (isIdentifier_of_isName hn)).append (' ' ::
    c :: (tail ++ (Print.exprs 0 more).flatMap fun text => ", ".toList ++ text.toList))
  exact statements_single hbegins (statement_command hn htype hunspaced
    (startsArgument_of_bareArgs hcstart hread) hread)

/-- A text that is a call with its arguments in parentheses. -/
theorem statements_call (hn : isName word = true) (hargs : ∀ e ∈ args, SpelledArg 0 e) :
    bare.statements (word ++ "(" ++ ", ".intercalate (Print.exprs 0 args) ++ ")").toList =
      .ok [.eval ⟨0, 0⟩ (.call ⟨0, 0⟩ none word (args.map Expr.bare))] [] := by
  have htext : (word ++ "(" ++ ", ".intercalate (Print.exprs 0 args) ++ ")").toList =
      word.toList ++ '(' :: ((", ".intercalate (Print.exprs 0 args)).toList ++ [')']) := by
    simp
  rw [htext]
  refine statements_single ?_ (statement_call hn hargs)
  exact (Begins.of_identifier (isIdentifier_of_isName hn)).append _

end calls

/-- A call without parentheses is the call with them: the block is this one call either way. -/
theorem command_reads_as_call {typeOk : String → Prop} {word : String} {first : Expr}
    {more : List Expr} (hname : name word.toList = .ok word [])
    (htype : (typeName word.toList).Failed) (hvalid : Expr.ValidAll typeOk (first :: more))
    (hfree : Expr.allClosureFree (first :: more) = true)
    (hstart : ∃ c ∈ first.text.toList.head?, isArgumentStart c = true) :
    ∃ plain parens,
      Block.read (word ++ " " ++ ", ".intercalate ((first :: more).map Expr.text)) = .ok plain ∧
      Block.read (word ++ "(" ++ ", ".intercalate ((first :: more).map Expr.text) ++ ")") =
        .ok parens ∧
      plain.same parens = true ∧
      Stmt.sameAll plain.statements
        [.eval ⟨1, 1⟩ (.call ⟨1, 1⟩ none word (first :: more))] = true := by
  have hn := isName_of_name hname
  have hword := not_isTypeName_of_failed (isIdentifier_of_isName hn) htype
  have hargs : ∀ e ∈ first :: more, SpelledArg 0 e :=
    spelled_args 0 (Expr.ValidAll.of_closureFree hvalid hfree)
  have htexts : (first :: more).map Expr.text = Print.exprs 0 (first :: more) :=
    (exprs_eq_map 0 (first :: more)).symm
  obtain ⟨⟨p, ss⟩, hplain, hss⟩ := Block.read_of_run (statements_command hn hword hargs hstart)
  obtain ⟨⟨q, ts⟩, hparens, hts⟩ := Block.read_of_run (statements_call hn hargs)
  rw [htexts]
  refine ⟨⟨p, ss⟩, ⟨q, ts⟩, hplain, hparens, ?_, ?_⟩
  · rw [Block.same]
    exact Stmt.sameAll_of_bare_eq (hss.trans hts.symm)
  · apply Stmt.sameAll_of_bare_eq
    rw [hss, List.map_singleton, Stmt.bare_eval, Expr.bare_call]
    rfl

/-- `From childOf = k, *[1]` -/
theorem command_reads_as_call_from :
    let p : Position := ⟨1, 1⟩
    let first : Expr := .binary p (.var p "childOf") .assign (.var p "k")
    let more : List Expr := [.spread p (.list p [.lit p (.int 1)])]
    name "From".toList = .ok "From" [] ∧ (typeName "From".toList).Failed ∧
      Expr.ValidAll (fun _ => False) (first :: more) ∧
      Expr.allClosureFree (first :: more) = true ∧
      (∃ c ∈ first.text.toList.head?, isArgumentStart c = true) ∧
      ∃ plain parens,
        Block.read ("From" ++ " " ++ ", ".intercalate ((first :: more).map Expr.text)) =
          .ok plain ∧
        Block.read ("From" ++ "(" ++ ", ".intercalate ((first :: more).map Expr.text) ++ ")") =
          .ok parens ∧
        plain.same parens = true ∧
        Stmt.sameAll plain.statements
          [.eval p (.call p none "From" (first :: more))] = true := by
  intro p first more
  have hname : name "From".toList = .ok "From" [] := by decide
  have htype : (typeName "From".toList).Failed := by
    have hfail : typeName "From".toList = .fail "From".toList := by decide +kernel
    rw [hfail]
    trivial
  have hvalid : Expr.ValidAll (fun _ => False) (first :: more) := by
    have hvar : isName "childOf" = true ∧ isName "k" = true := by decide
    have hint : (1 : Int).natAbs ≤ maxInt := by decide
    exact ⟨⟨hvar.1, hvar.2⟩, ⟨hint, trivial⟩, trivial⟩
  have hfree : Expr.allClosureFree (first :: more) = true := by decide
  have hstart : ∃ c ∈ first.text.toList.head?, isArgumentStart c = true :=
    ⟨'c', by decide +kernel, by decide⟩
  exact ⟨hname, htype, hvalid, hfree, hstart,
    command_reads_as_call hname htype hvalid hfree hstart⟩

end QueryBlocks
