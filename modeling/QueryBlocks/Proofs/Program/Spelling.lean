import QueryBlocks.Proofs.Program.Layout

/-! The lines of a generated program are read as its statements: one statement for each
instruction. -/
namespace QueryBlocks

open QueryBlocks.Token QueryBlocks.Rules

/-! ### Slots -/

section slots

variable {settings : Settings}

theorem Settings.suffix_of_validate {given : Settings} (h : given.validate = .ok settings) :
    settings.suffix.toList.all isWordChar = true := by
  unfold Settings.validate at h
  split at h
  · cases h
  · split at h
    · cases h
    · rename_i hsuffix
      split at h
      · cases h
      · split at h <;> cases h
        simpa using hsuffix

/-- A name of a slot is no beginning of a reserved word. -/
theorem isName_slot (hsuffix : settings.suffix.toList.all isWordChar = true) (s : Slot) :
    isName (Program.slot settings s) = true := by
  have hid : isIdentifier s.name = true := by cases s <;> decide
  have hfree : ∀ w ∈ reserved, s.name.toList.isPrefixOf w.toList = false := by
    cases s <;> decide
  obtain ⟨c, more, htext, hc, hmore⟩ := isIdentifier_iff.mp hid
  have hslot : (Program.slot settings s).toList = s.name.toList ++ settings.suffix.toList := by
    simp [Program.slot, Settings.slot]
  rw [isName, Bool.and_eq_true, Bool.not_eq_true']
  constructor
  · refine isIdentifier_iff.mpr ⟨c, more ++ settings.suffix.toList, ?_, hc, ?_⟩
    · rw [hslot, htext, List.cons_append]
    · rw [List.all_append, hmore, hsuffix, Bool.and_self]
  · rw [isReserved, ← Bool.not_eq_true, List.contains_iff_mem]
    intro hmem
    have h := hfree _ hmem
    rw [hslot, ← Bool.not_eq_true, List.isPrefixOf_iff_prefix] at h
    exact h (List.prefix_append _ _)

end slots

/-! ### Instructions -/

/-- The lines of the instruction are read as the statement, and the statement can be written. -/
def Spells (settings : Settings) (i : Instruction) (s : Stmt) : Prop :=
  s.Valid Declarable ∧
    ∃ t, lines (fun _ => []) String.toList (Program.lines settings i) = t ++ ['\n'] ∧
      Line bare.statement t s.bare

/-- The lines of an instruction are read in one way. -/
theorem Spells.unique {settings : Settings} {i : Instruction} {s s' : Stmt}
    (h : Spells settings i s) (h' : Spells settings i s') : s.bare = s'.bare := by
  obtain ⟨-, t, htext, hline⟩ := h
  obtain ⟨-, t', htext', hline'⟩ := h'
  have ht : t = t' := List.append_cancel_right (htext.symm.trans htext')
  have hrun := hline.run ['\n'] EndsBlock.nil.endsLine
  rw [ht, hline'.run ['\n'] EndsBlock.nil.endsLine, Outcome.ok.injEq] at hrun
  exact hrun.1.symm

theorem Spells.of_prints {settings : Settings} {i : Instruction} {s : Stmt}
    (h : Prints 0 (Program.lines settings i) [s]) (hs : s.Valid Declarable) :
    Spells settings i s := by
  refine ⟨hs, (Print.stmt 0 s).toList, ?_, (spelled_stmt 0 hs).line⟩
  have hindent : (Print.indent 0).toList = [] := rfl
  rw [Prints, hindent] at h
  rw [h]
  simp [Print.stmts, hindent]

namespace Program.Tree

variable {settings : Settings} {d : Nat} {s : Slot} {e : Expr}

/-! ### Texts -/

section texts

variable {method field : String} {args : List Expr} {param : FetchParam}

theorem print_assign :
    Print.stmt d (assign settings s e) = slot settings s ++ " = " ++ Print.expr d e := by
  have hright : Print.operand 1 e (Print.expr d e) = Print.expr d e :=
    if_neg (Nat.not_lt.mpr e.strength_pos)
  have h : Print.stmt d (assign settings s e) =
      slot settings s ++ " " ++ "=" ++ " " ++ Print.operand 1 e (Print.expr d e) := rfl
  rw [h, hright, ← String.toList_inj]
  simp

theorem print_ask (hargs : args.getLast?.any Expr.isClosure = false) :
    Print.expr d (ask (ref settings s) method args) = slot settings s ++ "." ++ method ++
      ("(" ++ ", ".intercalate (Print.exprs d args) ++ ")") := by
  rw [ask, Print.expr, Print.arguments, hargs]
  rfl

theorem print_isA {type : String} : (Print.expr d (isA (ref settings s) type)).toList =
    (slot settings s).toList ++ (" instanceof ".toList ++ type.toList) := by
  have h : Print.expr d (isA (ref settings s) type) =
      slot settings s ++ " " ++ "instanceof" ++ " " ++ type := rfl
  simp [h]

theorem print_tune (he : e.isClosure = false) :
    Print.stmt d (tune settings param e) = tuning settings param (Print.expr d e) := by
  have hlast : [e].getLast?.any Expr.isClosure = false := he
  rw [tune, run, Print.stmt, print_ask hlast, tuning, ← String.toList_inj]
  simp [Print.exprs]

theorem escape_of_isWordChar {c : Char} (hc : isWordChar c = true) : Text.escape c = [c] := by
  unfold Text.escape
  split
  case h_6 => rfl
  all_goals cases hc

theorem flatMap_escape {l : List Char} (hl : l.all isWordChar = true) :
    l.flatMap Text.escape = l := by
  induction l with
  | nil => rfl
  | cons c more ih =>
    rw [List.all_cons, Bool.and_eq_true] at hl
    rw [List.flatMap_cons, escape_of_isWordChar hl.1, ih hl.2, List.singleton_append]

theorem print_note (hfield : isName field = true) :
    Print.stmt d (note settings s field) = slot settings s ++ " += \"," ++ field ++ "\"" := by
  have h : Print.stmt d (note settings s field) =
      slot settings s ++ " " ++ "+=" ++ " " ++ Text.quote ("," ++ field) := rfl
  have hescape := flatMap_escape (all_isWordChar (isIdentifier_of_isName hfield))
  rw [h, ← String.toList_inj]
  simp [Text.quote, Text.escape, hescape]

theorem print_members (more : List String) (he : 11 ≤ e.strength) :
    (Print.expr d (more.foldl (.member nowhere) e)).toList =
      (Print.expr d e).toList ++ more.flatMap fun word => ".".toList ++ word.toList := by
  induction more generalizing e with
  | nil => simp
  | cons word more ih =>
    have h : Print.expr d (.member nowhere e word) = Print.expr d e ++ "." ++ word := by
      rw [Print.expr, Print.operand, if_neg (Nat.not_lt.mpr he)]
    have hmember : 11 ≤ (Expr.member nowhere e word).strength := Nat.le_refl 11
    rw [List.foldl_cons, ih hmember, h]
    simp

theorem print_dotted (first : String) (more : List String) :
    Print.expr d (dotted first more) = ".".intercalate (first :: more) := by
  have hvar : 11 ≤ (Expr.var nowhere first).strength := Nat.le_succ 11
  rw [← String.toList_inj, toList_intercalate_cons]
  exact print_members more hvar

theorem ofType_intercalate {first : String} {more : List String}
    (hfirst : isIdentifier first = true) (hmore : ∀ word ∈ more, isIdentifier word = true) :
    ofType (".".intercalate (first :: more)) = dotted first more := by
  have hdot {word : String} (hword : isIdentifier word = true) : '.' ∉ word.toList := by
    intro hmem
    exact absurd (List.all_eq_true.mp (all_isWordChar hword) '.' hmem) (by decide)
  have hsplit : (".".intercalate (first :: more)).toList.splitOn '.' =
      (first :: more).map String.toList := by
    rw [String.toList_intercalate]
    refine List.splitOn_intercalate '.' ?_ (List.cons_ne_nil _ _)
    simpa using ⟨hdot hfirst, fun word hword => hdot (hmore word hword)⟩
  rw [ofType, hsplit]
  simp

theorem print_property : Print.expr d (Tree.property settings field) =
    Program.property settings field := by
  unfold Tree.property Program.property
  split
  · rename_i hfield
    subst hfield
    rfl
  · rfl

theorem valid_members {more : List String} (he : e.Valid Declarable)
    (hmore : ∀ word ∈ more, isIdentifier word = true) :
    (more.foldl (.member nowhere) e).Valid Declarable := by
  induction more generalizing e with
  | nil => exact he
  | cons word more ih =>
    rw [List.forall_mem_cons] at hmore
    exact ih ⟨he, hmore.1⟩ hmore.2

theorem valid_dotted {first : String} {more : List String} (hfirst : isName first = true)
    (hmore : ∀ word ∈ more, isIdentifier word = true) : (dotted first more).Valid Declarable :=
  valid_members hfirst hmore

theorem valid_property (hfield : isName field = true) :
    (Tree.property settings field).Valid Declarable := by
  have hentity : isName "Entity" = true := by decide
  unfold Tree.property
  split
  · exact ⟨hentity, isIdentifier_of_isName hfield⟩
  · trivial

theorem print_fetching :
    Print.stmt d (Tree.fetching settings method [ref settings .fetchOptions]) =
      Program.fetching settings method := by
  rw [Tree.fetching, run, Print.stmt, print_ask rfl, Program.fetching, ← String.toList_inj]
  simp [Print.expr, Print.exprs, ref]

theorem print_isTold : (Print.expr d (isTold (ref settings s))).toList =
    (slot settings s).toList ++ (" instanceof String && ".toList ++ ((slot settings s).toList ++
      (".trim() != \"null\" && !".toList ++ ((slot settings s).toList ++
        ".trim().isEmpty()".toList)))) := by
  have h : Print.expr d (isTold (ref settings s)) =
      Print.expr d (isA (ref settings s) "String") ++ " " ++ "&&" ++ " " ++
        (slot settings s ++ "." ++ "trim" ++ "()" ++ " " ++ "!=" ++ " " ++ "\"null\"") ++
        " " ++ "&&" ++ " " ++
        ("!" ++ (slot settings s ++ "." ++ "trim" ++ "()" ++ "." ++ "isEmpty" ++ "()")) := rfl
  simp [h, print_isA]

theorem prints_convertCursor :
    Prints d (Program.convertCursor settings param) [Tree.convertCursor settings param] := by
  refine .arms rfl (.arms ?_ (.line ?_) (.elseIf ?_ (.line (print_tune rfl)) .none)) .none
  · rw [← String.toList_inj, print_isTold]
    simp
  · rw [print_tune rfl]
    rfl
  · rw [← String.toList_inj, print_isA]
    simp

theorem prints_fetch : Prints 0 (Program.lines settings .fetch) [fetch settings] := by
  have hsingle : Print.stmt 1 (Tree.fetching settings "asSingleEntity" []) =
      slot settings .preparedQuery ++ ".asSingleEntity()" := by
    rw [Tree.fetching, run, Print.stmt, print_ask rfl, ← String.toList_inj]
    simp [Print.exprs]
  exact .arms rfl ((prints_convertCursor.append prints_convertCursor).append
    (.line print_fetching)) (.elseIf rfl (.line print_fetching) (.elseIf rfl (.line print_fetching)
      (.elseIf rfl (.line hsingle) (.orElse (.line print_fetching) rfl))))

end texts

/-! ### Instructions -/

section instructions

variable (hsuffix : settings.suffix.toList.all isWordChar = true)

include hsuffix

theorem spells_declare (s : Slot) : Spells settings (.declare s) (declaration settings s) := by
  have hinitial : (initial s).Valid Declarable := by
    have hoptions : isName "FetchOptions" = true := by decide
    cases s with
    | fetchOptions => exact ⟨⟨hoptions, by decide⟩, by decide, trivial⟩
    | _ => trivial
  refine .of_prints (.line ?_) ⟨fun _ h => (nomatch h), isName_slot hsuffix s, hinitial⟩
  cases s <;> rfl

theorem spells_store {value : SlotValue} (he : e.Valid Declarable)
    (hvalue : value.written = Print.expr 0 e) :
    Spells settings (.store s value) (assign settings s e) := by
  refine .of_prints (.line ?_) ⟨isName_slot hsuffix s, he⟩
  rw [print_assign, hvalue]

theorem valid_tune {param : FetchParam} (he : Expr.ValidAll Declarable [e]) :
    (tune settings param e).Valid Declarable := by
  refine ⟨isName_slot hsuffix _, ?_, he⟩
  cases param <;> decide

theorem spells_tune (param : FetchParam) :
    Spells settings (.tune param) (tune settings param (ref settings (.ofParam param))) :=
  .of_prints (.line (print_tune rfl)) (valid_tune hsuffix ⟨isName_slot hsuffix _, trivial⟩)

theorem spells_tuneIfSet (param : FetchParam) :
    Spells settings (.tuneIfSet param) (tuneIfSet settings param) := by
  have hslot := isName_slot hsuffix (.ofParam param)
  exact .of_prints (.arms rfl (.line (print_tune rfl)) .none)
    ⟨hslot, valid_tune hsuffix ⟨hslot, trivial⟩, trivial⟩

theorem spells_construct : Spells settings .construct (construct settings) := by
  have hclass : IsQualified queryClass :=
    ⟨"com", ["google", "appengine", "api", "datastore", "Query"], by decide, by decide, by decide⟩
  have hslot := isName_slot hsuffix
  refine .of_prints (.arms rfl (.line ?_) (.orElse (.line ?_) rfl))
    ⟨hslot _, ⟨⟨hslot _, hclass, hslot _, trivial⟩, trivial⟩, ⟨hslot _, hclass, trivial⟩, trivial⟩
  · rw [print_assign, ← String.toList_inj]
    simp [Print.expr, Print.exprs, ref]
  · rw [print_assign, ← String.toList_inj]
    simp [Print.expr, Print.exprs]

theorem spells_attachAncestor : Spells settings .attachAncestor (attachAncestor settings) := by
  have hslot := isName_slot hsuffix
  have hkey : isName "Key" = true := by decide
  refine .of_prints (.arms rfl (.arms ?_ (.line ?_) (.orElse (.line ?_) rfl)) .none)
    ⟨hslot _, ⟨⟨hslot _, hkey⟩, ⟨⟨hslot _, by decide, hslot _, trivial⟩, trivial⟩,
      ⟨⟨hslot _, by decide, ⟨hslot _, by decide⟩, trivial⟩, trivial⟩⟩, trivial⟩
  · rw [← String.toList_inj, print_isA]
    simp
  · rw [run, Print.stmt, print_ask rfl, ← String.toList_inj]
    simp [Print.expr, Print.exprs, ref]
  · rw [run, Print.stmt, print_ask rfl, ← String.toList_inj]
    simp [Print.expr, Print.exprs, ref, Print.operand, Expr.strength]

theorem spells_restrictToKeys : Spells settings .restrictToKeys (restrictToKeys settings) := by
  have hslot := isName_slot hsuffix
  refine .of_prints (.arms rfl (.line ?_) .none)
    ⟨hslot _, ⟨hslot _, by decide, trivial⟩, trivial⟩
  rw [run, Print.stmt, print_ask rfl, ← String.toList_inj]
  simp [Print.exprs]

theorem spells_note {field : String} (hfield : isName field = true) :
    Spells settings (.note s field) (note settings s field) :=
  .of_prints (.line (print_note hfield)) ⟨isName_slot hsuffix s, trivial⟩

/-- A request to an object is read whatever its arguments are. The last one stays in the
parentheses even if it is a closure. -/
theorem line_ask {method : String} {args : List Expr} (hmethod : isIdentifier method = true)
    (hargs : ∀ e ∈ args, e.Valid Declarable) :
    Line bare.statement ((slot settings s).toList ++ '.' :: (method.toList ++
        '(' :: ((", ".intercalate (Print.exprs 0 args)).toList ++ [')'])))
      (run (ask (ref settings s) method args)).bare := by
  -- The written form of the statement would put a closure behind the parentheses, so the line is
  -- read rule by rule here.
  have hname := isName_slot hsuffix s
  have hspelled : ∀ e ∈ args, SpelledArg 0 e := fun e he => (spelled_expr 0 (hargs e he)).arg
  have hends (r : List Char) : EndsWord
      ('(' :: ((", ".intercalate (Print.exprs 0 args)).toList ++ [')']) ++ r) :=
    endsWord_cons.mpr (by decide)
  have hcall (r : List Char) (hr : Follows 12 r) : bare.callArgs
      ('(' :: ((", ".intercalate (Print.exprs 0 args)).toList ++ [')']) ++ r) =
        .ok (some (args.map Expr.bare)) r := by
    simpa using callArgs_plain hspelled hr
  have hfits := (Primary.var hname).fits.call hmethod hends hcall
  have hbegins (k : Nat) : Begins k (slot settings s).toList :=
    .of_identifier (isIdentifier_of_isName hname)
  have hbare : (run (ask (ref settings s) method args)).bare = .eval ⟨0, 0⟩
      (.call ⟨0, 0⟩ (some (.var ⟨0, 0⟩ (slot settings s))) method (args.map Expr.bare)) := by
    rw [run, Stmt.bare_eval, ask, Expr.bare_call]
    rfl
  rw [hbare]
  refine line_eval ((hbegins 0).append _) (fun r hr => ?_)
    (hfits.lower (Nat.le_refl 11) (fun _ => ((hbegins 10).append _).unsigned (Nat.le_refl 10))
      (Nat.le_refl 2) (by decide)).whole
  rw [List.append_assoc, List.cons_append, List.append_assoc]
  exact .of_isName hname (Tail.call.trail.dot hmethod)

theorem valid_ask {method : String} {args : List Expr} (hmethod : isIdentifier method = true)
    (hargs : ∀ e ∈ args, e.Valid Declarable) :
    (run (ask (ref settings s) method args)).Valid Declarable :=
  ⟨isName_slot hsuffix s, hmethod, Expr.validAll_iff.mpr fun e he => .of_valid (hargs e he)⟩

theorem spells_addFilter {f : Written.Filter} (hfield : isName f.field = true)
    (hvalue : f.value.Valid Declarable) :
    Spells settings (.addFilter f.text) (addFilter settings f) := by
  have hop : (dotted "Query" ["FilterOperator", f.op.token]).Valid Declarable := by
    refine valid_dotted (by decide) ?_
    cases f.op <;> decide
  have hargs : ∀ e ∈ [property settings f.field,
      dotted "Query" ["FilterOperator", f.op.token], f.value], e.Valid Declarable := by
    simp [valid_property hfield, hop, hvalue]
  refine ⟨valid_ask hsuffix (by decide) hargs, _, ?_, line_ask hsuffix (by decide) hargs⟩
  simp [QueryBlocks.lines, Program.lines, Print.exprs, print_property, print_dotted,
    Written.Filter.text, Expr.text]

theorem spells_addSort {key : SortKey} (hfield : isName key.field = true) :
    Spells settings (.addSort key) (addSort settings key) := by
  have hdirection : (dotted "Query" ["SortDirection", key.direction.token]).Valid Declarable := by
    refine valid_dotted (by decide) ?_
    cases key.direction <;> decide
  have hargs : ∀ e ∈ [property settings key.field,
      dotted "Query" ["SortDirection", key.direction.token]], e.Valid Declarable := by
    simp [valid_property hfield, hdirection]
  refine ⟨valid_ask hsuffix (by decide) hargs, _, ?_, line_ask hsuffix (by decide) hargs⟩
  simp [QueryBlocks.lines, Program.lines, Print.exprs, print_property, print_dotted]

theorem spells_prepare : Spells settings .prepare (prepare settings) := by
  have hslot := isName_slot hsuffix
  have hit : isName "it" = true := by decide
  refine .of_prints (.line ?_) ⟨hslot _, hit, by decide, hslot _, trivial⟩
  have h : Print.expr 0 (ask (.var nowhere "it") "prepare" [ref settings .query]) =
      "it" ++ "." ++ "prepare" ++ ("(" ++ slot settings .query ++ ")") := rfl
  rw [prepare, print_assign, h, ← String.toList_inj]
  simp

theorem valid_convertCursor (param : FetchParam) :
    (Tree.convertCursor settings param).Valid Declarable := by
  have hslot := isName_slot hsuffix (.ofParam param)
  have hstring : isName "String" = true := by decide
  have hcursor : isName "Cursor" = true := by decide
  have htrim : (ask (ref settings (.ofParam param)) "trim" []).Valid Declarable :=
    ⟨hslot, by decide, trivial⟩
  have htold : (isTold (ref settings (.ofParam param))).Valid Declarable :=
    ⟨⟨⟨hslot, hstring⟩, htrim, trivial⟩, htrim, by decide, trivial⟩
  have htext : (tune settings param (ask (.var nowhere "Cursor") "fromWebSafeString"
      [ref settings (.ofParam param)])).Valid Declarable :=
    valid_tune hsuffix ⟨⟨hcursor, by decide, hslot, trivial⟩, trivial⟩
  have hvalue : (tune settings param (ref settings (.ofParam param))).Valid Declarable :=
    valid_tune hsuffix ⟨hslot, trivial⟩
  exact ⟨hslot, ⟨htold, ⟨htext, trivial⟩, ⟨⟨hslot, hcursor⟩, hvalue, trivial⟩, trivial⟩, trivial⟩

theorem spells_fetch : Spells settings .fetch (fetch settings) := by
  have hslot := isName_slot hsuffix
  have hfetch {method : String} (hmethod : isIdentifier method = true) :
      Stmt.ValidAll Declarable [Tree.fetching settings method [ref settings .fetchOptions]] :=
    ⟨⟨hslot _, hmethod, hslot _, trivial⟩, trivial⟩
  have hone : Stmt.ValidAll Declarable [Tree.fetching settings "asSingleEntity" []] :=
    ⟨⟨hslot _, by decide, trivial⟩, trivial⟩
  have hcursors : Stmt.ValidAll Declarable [Tree.convertCursor settings .startCursor,
      Tree.convertCursor settings .endCursor,
      Tree.fetching settings "asQueryResultList" [ref settings .fetchOptions]] :=
    ⟨valid_convertCursor hsuffix _, valid_convertCursor hsuffix _, hfetch (by decide)⟩
  exact .of_prints prints_fetch ⟨hslot _, hcursors, ⟨hslot _, hfetch (by decide),
    ⟨hslot _, hfetch (by decide), ⟨hslot _, hone, hfetch (by decide)⟩, trivial⟩, trivial⟩, trivial⟩

end instructions

end Program.Tree

end QueryBlocks
