import QueryBlocks.Proofs.Script.Spelling

/-! Written expressions, one kind at a time: what a text begins with, and that it is read back if
the texts of its parts are. -/
namespace QueryBlocks

open QueryBlocks.Parser QueryBlocks.Token QueryBlocks.Rules

/-! ### How a text begins -/

/-- What a written expression may begin with. -/
def isOpening (c : Char) : Bool :=
  isWordChar c || ['(', '[', '\x7b', '"', '!', '-'].contains c

/-- The text begins as an expression does, and without a sign if it binds tightly. -/
def Begins (k : Nat) (t : List Char) : Prop :=
  ∃ c s, t = c :: s ∧ isOpening c = true ∧ (10 ≤ k → c ≠ '!' ∧ c ≠ '-')

namespace Begins

variable {k l : Nat} {t : List Char} {c : Char}

theorem append (h : Begins k t) (r : List Char) : Begins k (t ++ r) := by
  obtain ⟨c, s, rfl, hc, hk⟩ := h
  exact ⟨c, s ++ r, rfl, hc, hk⟩

theorem mono (h : Begins k t) (hl : l ≤ k) : Begins l t := by
  obtain ⟨c, s, rfl, hc, hk⟩ := h
  exact ⟨c, s, rfl, hc, fun hl' => hk (hl'.trans hl)⟩

theorem of_wordChar (hc : isWordChar c = true) : Begins k (c :: t) := by
  refine ⟨c, t, rfl, by simp [isOpening, hc], fun _ => ⟨?_, ?_⟩⟩
  all_goals
    rintro rfl
    cases hc

theorem of_identifier {w : String} (hw : isIdentifier w = true) : Begins k w.toList := by
  obtain ⟨c, more, hwl, hc, -⟩ := isIdentifier_iff.mp hw
  rw [hwl]
  exact of_wordChar (isWordChar_of_isWordStart hc)

theorem unsigned (h : Begins k t) (hk : 10 ≤ k) : Unsigned t := by
  obtain ⟨c, s, rfl, -, hsign⟩ := h
  exact ⟨c, s, rfl, hsign hk⟩

theorem head?_ne (h : Begins k t) (hc : isOpening c = false) (r : List Char) :
    (t ++ r).head? ≠ some c := by
  obtain ⟨d, s, rfl, hd, -⟩ := h
  rintro he
  cases he
  rw [hd] at hc
  cases hc

theorem unspaced (h : Begins k t) : Unspaced t := by
  obtain ⟨c, s, rfl, hc, -⟩ := h
  have hne {d : Char} (hd : isOpening d = false) : c ≠ d := by
    rintro rfl
    rw [hc] at hd
    cases hd
  refine ⟨c, s, rfl, ?_, hne (by decide)⟩
  simp [isBreak, isSpace, isGap, hne (d := ' ') (by decide), hne (d := '\t') (by decide),
    hne (d := '\r') (by decide), hne (d := '\n') (by decide), hne (d := ';') (by decide)]

theorem operand {e : Expr} {text : String} (h : Begins e.strength text.toList) :
    Begins k (Print.operand k e text).toList := by
  unfold Print.operand
  split
  · exact ⟨'(', text.toList ++ [')'], by simp, by decide, fun _ => by decide⟩
  · exact h.mono (by omega)

end Begins

/-- The text of the expression is read back: at its own level, on its own, and, for a closure,
behind a call. -/
structure Spelled (d : Nat) (e : Expr) : Prop where
  begins : Begins e.strength (Print.expr d e).toList
  fits : 2 ≤ e.strength → Fits (min e.strength 11) (Print.expr d e).toList e.bare
  whole : Whole (Print.expr d e).toList e.bare
  closure : e.isClosure = true → ∀ r,
    bare.closureExpr ((Print.expr d e).toList ++ r) = .ok e.bare r

variable {d k : Nat} {e : Expr} {t : List Char}

/-- At its own level is enough for what binds tighter than an assignment. -/
theorem Spelled.of_fits (hs : 2 ≤ e.strength) (hc : e.isClosure = false)
    (hb : Begins e.strength (Print.expr d e).toList)
    (hf : Fits (min e.strength 11) (Print.expr d e).toList e.bare) : Spelled d e where
  begins := hb
  fits _ := hf
  whole := (hf.lower (by omega) (fun h => hb.unsigned (by omega)) (Nat.le_refl 2)
    (by omega)).whole
  closure h := absurd h (by simp [hc])

theorem Expr.strength_pos (e : Expr) : 1 ≤ e.strength := by
  cases e with
  | binary _ _ op _ => cases op <;> simp [Expr.strength, BinOp.strength]
  | lit _ value =>
    rw [Expr.strength]
    split <;> decide
  | call _ receiver => cases receiver <;> simp [Expr.strength]
  | _ => simp [Expr.strength]

namespace Spelled

/-- An operand is read at the level that its place asks for. -/
theorem operand (h : Spelled d e) (hlo : 2 ≤ k) (hhi : k ≤ 11) :
    Fits k (Print.operand k e (Print.expr d e)).toList e.bare := by
  unfold Print.operand
  split
  · have hparens : ("(" ++ Print.expr d e ++ ")").toList =
        '(' :: ((Print.expr d e).toList ++ [')']) := by simp
    rw [hparens]
    refine (Primary.parens h.begins.unspaced h.whole).fits.lower (by decide) (fun _ => ?_) hlo hhi
    exact ⟨'(', _, rfl, by decide⟩
  · exact (h.fits (by omega)).lower (by omega) (fun h' => h.begins.unsigned (by omega)) hlo
      (by omega)

theorem operand_begins (h : Spelled d e) :
    Begins k (Print.operand k e (Print.expr d e)).toList := h.begins.operand

end Spelled

/-! ### Names, literals and signs -/

theorem Spelled.var {name : String} (p : Position) (hn : isName name = true) :
    Spelled d (.var p name) := by
  refine .of_fits (by simp [Expr.strength]) rfl ?_ (Primary.var hn).fits
  rw [isName, Bool.and_eq_true] at hn
  exact .of_identifier hn.1

theorem Literal.text_ofNat (n : Nat) :
    (Literal.int (Int.ofNat n)).text.toList = Nat.toDigits 10 n := by
  have h : (Literal.int (Int.ofNat n)).text = String.ofList (Nat.toDigits 10 n) :=
    Nat.toString_eq_ofList_toDigits
  rw [h, String.toList_ofList]

theorem Literal.text_negSucc (n : Nat) :
    (Literal.int (Int.negSucc n)).text.toList = '-' :: Nat.toDigits 10 (n + 1) := by
  have h : (Literal.int (Int.negSucc n)).text = "-" ++ String.ofList (Nat.toDigits 10 (n + 1)) :=
    congrArg ("-" ++ ·) Nat.toString_eq_ofList_toDigits
  rw [h]
  simp

theorem begins_digit {c : Char} (hc : c.isDigit = true) : Begins k (c :: t) :=
  .of_wordChar (isWordChar_of_isDigit hc)

theorem Spelled.int {n : Int} (p : Position) (hn : n.natAbs ≤ maxInt) :
    Spelled d (.lit p (.int n)) := by
  cases n with
  | ofNat n =>
    have hstrength : (Expr.lit p (.int (Int.ofNat n))).strength = 12 := by
      simp [Expr.strength, Literal.isSigned]
    refine .of_fits (by omega) rfl ?_ ?_
    · rw [Print.expr, Literal.text_ofNat]
      obtain ⟨c, s, hcs⟩ := List.exists_cons_of_ne_nil (Nat.toDigits_ne_nil (b := 10) (n := n))
      rw [hcs]
      exact begins_digit (isDigit_of_mem_toDigits (hcs ▸ List.mem_cons_self))
    · rw [Print.expr, Literal.text_ofNat, hstrength]
      exact (Primary.nat hn).fits
  | negSucc n =>
    have hstrength : (Expr.lit p (.int (Int.negSucc n))).strength = 9 := by
      simp [Expr.strength, Literal.isSigned, Int.negSucc_lt_zero]
    refine .of_fits (by omega) rfl ?_ ?_
    · rw [Print.expr, Literal.text_negSucc, hstrength]
      exact ⟨'-', _, rfl, by decide, fun h => absurd h (by decide)⟩
    · rw [Print.expr, Literal.text_negSucc, hstrength]
      exact Fits.negative hn

theorem Spelled.decimal {text : String} (p : Position) (h : (Literal.decimal text).Valid) :
    Spelled d (.lit p (.decimal text)) := by
  obtain ⟨signs, whole, fraction, htext, hw, hwd, hf, hfd⟩ := h
  have hof : text = String.ofList (List.replicate signs '-' ++ (whole ++ '.' :: fraction)) := by
    rw [← htext, String.ofList_toList]
  cases signs with
  | zero =>
    obtain ⟨c, s, rfl⟩ := List.exists_cons_of_ne_nil hw
    have hc : c.isDigit = true := by
      rw [List.all_cons, Bool.and_eq_true] at hwd
      exact hwd.1
    have hne : ¬ c = '-' := by
      rintro rfl
      cases hc
    have hstrength : (Expr.lit p (.decimal text)).strength = 12 := by
      simp [Expr.strength, Literal.isSigned, htext, hne]
    have hfits := (Primary.decimal hw hwd hf hfd).fits
    refine .of_fits (by omega) rfl ?_ ?_
    · rw [Print.expr, Literal.text, htext]
      exact begins_digit hc
    · rw [Print.expr, Literal.text, htext, hstrength, Expr.bare_lit, hof]
      exact hfits
  | succ signs =>
    have hstrength : (Expr.lit p (.decimal text)).strength = 9 := by
      simp [Expr.strength, Literal.isSigned, htext, List.replicate_succ]
    refine .of_fits (by omega) rfl ?_ ?_
    · rw [Print.expr, Literal.text, htext, hstrength]
      exact ⟨'-', _, rfl, by decide, fun h => absurd h (by decide)⟩
    · rw [Print.expr, Literal.text, htext, hstrength, Expr.bare_lit, hof]
      exact Fits.decimal hw hwd hf hfd (signs + 1)

theorem Spelled.lit {value : Literal} (p : Position) (h : value.Valid) :
    Spelled d (.lit p value) := by
  cases value with
  | null =>
    refine .of_fits (by simp [Expr.strength, Literal.isSigned]) rfl ?_ Primary.null.fits
    exact Begins.of_identifier (w := "null") (by decide)
  | bool b =>
    refine .of_fits (by simp [Expr.strength, Literal.isSigned]) rfl ?_ (Primary.bool b).fits
    cases b with
    | true => exact Begins.of_identifier (w := "true") (by decide)
    | false => exact Begins.of_identifier (w := "false") (by decide)
  | int n => exact .int p h
  | decimal text => exact .decimal p h
  | string text =>
    refine .of_fits (by simp [Expr.strength, Literal.isSigned]) rfl ?_ (Primary.string text).fits
    exact ⟨'"', text.toList.flatMap Text.escape ++ ['"'], by simp [Print.expr, Literal.text,
      Text.quote], by decide, fun _ => by decide⟩

theorem Spelled.not (p : Position) (h : Spelled d e) : Spelled d (.not p e) := by
  have htext : (Print.expr d (.not p e)).toList =
      '!' :: (Print.operand 9 e (Print.expr d e)).toList := by simp [Print.expr]
  refine .of_fits (by simp [Expr.strength]) rfl ?_ ?_
  · rw [htext]
    exact ⟨'!', _, rfl, by decide, fun h => absurd h (by simp [Expr.strength])⟩
  · rw [htext]
    exact (h.operand (by decide) (by decide)).not h.operand_begins.unspaced

theorem negated_bare {e : Expr} (h : e.isNumber = false) :
    negated ⟨0, 0⟩ e.bare = .negate ⟨0, 0⟩ e.bare := by
  cases e with
  | lit _ value => cases value <;> first | rfl | cases h
  | call _ receiver => cases receiver <;> rfl
  | _ => rfl

theorem Spelled.negate (p : Position) (hn : e.isNumber = false) (h : Spelled d e) :
    Spelled d (.negate p e) := by
  have htext : (Print.expr d (.negate p e)).toList =
      '-' :: (Print.operand 9 e (Print.expr d e)).toList := by simp [Print.expr]
  refine .of_fits (by simp [Expr.strength]) rfl ?_ ?_
  · rw [htext]
    exact ⟨'-', _, rfl, by decide, fun h => absurd h (by simp [Expr.strength])⟩
  · rw [htext, Expr.bare_negate, ← negated_bare hn]
    exact (h.operand (by decide) (by decide)).minus

/-! ### Arguments -/

/-- The text of an argument is read back; here an expression may be spread. -/
structure SpelledArg (d : Nat) (e : Expr) : Prop where
  unspaced : Unspaced (Print.expr d e).toList
  argument : ∀ r, Follows 1 r → bare.argument ((Print.expr d e).toList ++ r) = .ok e.bare r
  closure : e.isClosure = true → ∀ r,
    bare.closureExpr ((Print.expr d e).toList ++ r) = .ok e.bare r

theorem Spelled.arg (h : Spelled d e) : SpelledArg d e where
  unspaced := h.begins.unspaced
  argument r hr := by
    have hstar := optional_failed (char_failed (h.begins.head?_ne (c := '*') (by decide) r))
    simp only [Rules.argument, here, run_bind, Outcome.andThen_ok, hstar, h.whole.expr hr]
  closure := h.closure

theorem SpelledArg.spread (p : Position) (h : Spelled d e) : SpelledArg d (.spread p e) := by
  have htext : (Print.expr d (.spread p e)).toList =
      '*' :: (Print.operand 9 e (Print.expr d e)).toList := by simp [Print.expr]
  have hwhole : Whole (Print.operand 9 e (Print.expr d e)).toList e.bare :=
    ((h.operand (k := 9) (by decide) (by decide)).lower (by decide)
      (fun h => absurd h (by decide)) (Nat.le_refl 2) (by decide)).whole
  refine ⟨?_, fun r hr => ?_, fun h => ?_⟩
  · rw [htext]
    exact ⟨'*', _, rfl, by decide, by decide⟩
  · rw [htext, List.cons_append]
    simp only [Rules.argument, here, run_bind, Outcome.andThen_ok, optional_ok run_char,
      hwhole.expr hr, run_pure]
    rfl
  · cases h

/-- No expression begins here. -/
theorem primary_failed {s : List Char} {c : Char} (hc : isOpening c = false) (hq : c ≠ '\'') :
    (bare.primary (c :: s)).Failed := by
  have hne {d : Char} (hd : isOpening d = true) : (c :: s).head? ≠ some d := by
    rintro h
    cases h
    rw [hd] at hc
    cases hc
  have hword : isWordChar c = false := by
    rw [isOpening, Bool.or_eq_false_iff] at hc
    exact hc.1
  have hdigit : ∀ d ∈ (c :: s).head?, d.isDigit = false :=
    not_isDigit_of_endsWord (endsWord_cons.mpr hword)
  have hstart : isWordStart c = false := by
    by_contra h
    rw [isWordChar_of_isWordStart (Bool.not_eq_false _ ▸ h)] at hword
    cases hword
  have hkey {k : String} {d : Char} {more : List Char} (hk : k.toList = d :: more)
      (hd : isOpening d = true) : (keyword k (c :: s)).Failed :=
    keyword_symbol hk fun h => hne hd (by rw [h]; rfl)
  have hstring : ((do return .string (← stringLiteral) : Parser Literal) (c :: s)).Failed := by
    rw [run_bind]
    exact (stringLiteral_failed (hne (by decide)) (by simpa using hq)).andThen
  have hwordLiteral : (wordLiteral (c :: s)).Failed := by
    simp only [wordLiteral, run_orElse, run_bind,
      (hkey (k := "true") (d := 't') rfl (by decide)).andThen.or,
      (hkey (k := "false") (d := 'f') rfl (by decide)).andThen.or]
    exact (hkey (d := 'n') rfl (by decide)).andThen
  have hnew : (bare.construction (c :: s)).Failed := by
    rw [construction, run_bind, here, Outcome.andThen_ok, run_bind]
    exact (hkey (d := 'n') rfl (by decide)).andThen
  simp only [primary, run_orElse, (parenthesized_failed (hne (by decide))).or,
    (listExpr_failed (hne (by decide))).or, (closureExpr_failed (hne (by decide))).or,
    (literal_failed hstring).or, (literal_failed (number_failed hdigit)).or,
    (literal_failed hwordLiteral).or, hnew.or]
  rw [nameOrCall, run_bind, here, Outcome.andThen_ok, run_bind]
  exact (name_failed hstart).andThen

theorem levels_failed {s : List Char} (h : (bare.signed s).Failed) (ops : List (Parser BinOp)) :
    (bare.levels ops s).Failed := by
  induction ops with
  | nil => exact h
  | cons op ops ih =>
    rw [levels, leftGrouped, run_bind]
    exact ih.andThen

theorem signed_of_postfixed_failed {s : List Char} (hs : Unsigned s)
    (h : (bare.postfixed s).Failed) : (bare.signed s).Failed := by
  obtain ⟨c, s, rfl, hnot, hminus⟩ := hs
  have hsign {d : Char} (hd : c ≠ d) : optional (char d) (c :: s) = .ok none (c :: s) :=
    optional_failed (char_failed (by simpa using hd))
  simp only [signed, here, run_bind, Outcome.andThen_ok, hsign hnot, hsign hminus,
    Option.isSome_none, Bool.false_eq_true, if_false]
  exact h

theorem assignment_of_signed_failed {s : List Char} (h : (bare.signed s).Failed) :
    (bare.assignment s).Failed := by
  rw [assignment, run_bind]
  exact (levels_failed h ladder).andThen

/-- Without a sign in front, an expression begins with a primary. -/
theorem assignment_of_primary_failed {s : List Char} (hs : Unsigned s)
    (h : (bare.primary s).Failed) : (bare.assignment s).Failed := by
  refine assignment_of_signed_failed (signed_of_postfixed_failed hs ?_)
  rw [postfixed, run_bind]
  exact h.andThen

theorem assignment_failed {s : List Char} {c : Char} (hc : isOpening c = false) (hq : c ≠ '\'') :
    (bare.assignment (c :: s)).Failed := by
  have hne {d : Char} (hd : isOpening d = true) : c ≠ d := by
    rintro rfl
    rw [hd] at hc
    cases hc
  exact assignment_of_primary_failed ⟨c, s, rfl, hne (by decide), hne (by decide)⟩
    (primary_failed hc hq)

/-- A reserved word is no expression, unless it is a literal or `new`. -/
theorem assignment_reserved {w : String} {s : List Char} (hid : isIdentifier w = true)
    (hres : isReserved w = true) (hw : w ∉ ["true", "false", "null", "new"]) (hs : EndsWord s) :
    (bare.assignment (w.toList ++ s)).Failed := by
  simp only [List.mem_cons, List.not_mem_nil, or_false, not_or] at hw
  have hliteral : (wordLiteral (w.toList ++ s)).Failed :=
    wordLiteral_failed hid hs ⟨hw.1, hw.2.1, hw.2.2.1⟩
  have hprimary : (bare.primary (w.toList ++ s)).Failed := by
    rw [primary_word hid, (literal_failed hliteral).or,
      (construction_failed hid hs hw.2.2.2).or, nameOrCall, run_bind, here, Outcome.andThen_ok,
      run_bind]
    exact (name_reserved hid hs hres).andThen
  have hbegins : Begins 10 (w.toList ++ s) := (Begins.of_identifier hid).append s
  exact assignment_of_primary_failed (hbegins.unsigned (Nat.le_refl 10)) hprimary

theorem argument_unopened {s : List Char} {c : Char} (hc : isOpening c = false) (hq : c ≠ '\'')
    (hs : c ≠ '*') : (bare.argument (c :: s)).Failed := by
  have hstar : optional (char '*') (c :: s) = .ok none (c :: s) :=
    optional_failed (char_failed (by simpa using hs))
  simp only [Rules.argument, here, run_bind, Outcome.andThen_ok, hstar, bare_expr]
  exact assignment_failed hc hq

theorem argument_failed {s : List Char} {c : Char} (hc : c = ')' ∨ c = ']') :
    (bare.argument (c :: s)).Failed := by
  rcases hc with rfl | rfl <;> exact argument_unopened (by decide) (by decide) (by decide)

section

variable {args : List Expr} {c : Char} {r : List Char}

theorem exprs_eq_map (d : Nat) (es : List Expr) : Print.exprs d es = es.map (Print.expr d) := by
  induction es with
  | nil => rfl
  | cons e es ih => rw [Print.exprs, ih, List.map_cons]

/-- A comma and a space, where the gap before the comma is empty. -/
theorem comma_run {before : Parser Unit} (hbefore : ∀ s, before (',' :: s) = .ok () (',' :: s))
    (ht : Unspaced t) : comma before space (", ".toList ++ (t ++ r)) = .ok () (t ++ r) := by
  have hspace : space (' ' :: (t ++ r)) = .ok () (t ++ r) := space_blank (ht.append r)
  change comma before space (',' :: ' ' :: (t ++ r)) = _
  simp only [comma, run_bind, hbefore, run_char, Outcome.andThen_ok, hspace]

theorem comma_spaces (ht : Unspaced t) :
    comma space space (", ".toList ++ (t ++ r)) = .ok () (t ++ r) :=
  comma_run (fun _ => space_cons (by decide) (by decide)) ht

theorem comma_failed (hc : c = ')' ∨ c = ']') : (comma space space (c :: r)).Failed := by
  have hspace : space (c :: r) = .ok () (c :: r) := by
    rcases hc with rfl | rfl <;> exact space_cons (by decide) (by decide)
  rw [comma, run_bind, hspace, Outcome.andThen_ok, run_bind]
  refine (char_failed ?_).andThen
  rcases hc with rfl | rfl <;> simp

theorem unspaced_items (hargs : ∀ e ∈ args, SpelledArg d e) (hc : c = ')' ∨ c = ']') :
    Unspaced ((", ".intercalate (Print.exprs d args)).toList ++ c :: r) := by
  cases args with
  | nil =>
    refine ⟨c, r, rfl, ?_⟩
    rcases hc with rfl | rfl <;> decide
  | cons first more =>
    rw [Print.exprs, toList_intercalate_cons, List.append_assoc]
    exact (hargs first List.mem_cons_self).unspaced.append _

/-- The arguments of a call or the items of a list, up to the closing bracket. -/
theorem arguments_run (hargs : ∀ e ∈ args, SpelledArg d e) (hc : c = ')' ∨ c = ']') :
    sepBy (comma space space) bare.argument
      ((", ".intercalate (Print.exprs d args)).toList ++ c :: r) =
        .ok (args.map Expr.bare) (c :: r) := by
  have hsep : ∀ e ∈ args, ∀ r, ∃ b, comma space space
      (", ".toList ++ ((Print.expr d e).toList ++ r)) = .ok b ((Print.expr d e).toList ++ r) :=
    fun e he r => ⟨(), comma_spaces (hargs e he).unspaced⟩
  have hnext : ∀ r, Follows 1 (", ".toList ++ r) := fun _ => .of_close (.inr (.inr rfl))
  rw [exprs_eq_map, toList_intercalate]
  exact sepBy_run (fun e he => (hargs e he).argument) hsep (by decide) hnext
    (.of_close (by tauto)) (comma_failed hc) (argument_failed hc)

/-- A bracket is closed right behind the last item. -/
theorem parenArgs_run (hargs : ∀ e ∈ args, SpelledArg d e) :
    bare.parenArgs ('(' :: ((", ".intercalate (Print.exprs d args)).toList ++ ')' :: r)) =
      .ok (args.map Expr.bare) r := by
  have hopen : space ((", ".intercalate (Print.exprs d args)).toList ++ ')' :: r) =
      .ok () ((", ".intercalate (Print.exprs d args)).toList ++ ')' :: r) :=
    space_unspaced (unspaced_items hargs (.inl rfl))
  have hclose : space (')' :: r) = .ok () (')' :: r) :=
    space_cons (by decide) (by decide)
  simp only [parenArgs, run_bind, run_char, Outcome.andThen_ok, hopen,
    arguments_run hargs (.inl rfl), hclose, run_pure]

theorem Primary.list (hargs : ∀ e ∈ args, SpelledArg d e) :
    Primary ('[' :: ((", ".intercalate (Print.exprs d args)).toList ++ [']']))
      (.list ⟨0, 0⟩ (args.map Expr.bare)) := by
  intro r hr
  have hopen : space ((", ".intercalate (Print.exprs d args)).toList ++ ']' :: r) =
      .ok () ((", ".intercalate (Print.exprs d args)).toList ++ ']' :: r) :=
    space_unspaced (unspaced_items hargs (.inr rfl))
  have hclose : space (']' :: r) = .ok () (']' :: r) :=
    space_cons (by decide) (by decide)
  have hcomma : optional (char ',') (']' :: r) = .ok none (']' :: r) :=
    optional_failed (char_failed (by simp))
  have hlist : bare.listExpr ('[' :: ((", ".intercalate (Print.exprs d args)).toList ++ ']' :: r)) =
      .ok (.list ⟨0, 0⟩ (args.map Expr.bare)) r := by
    simp only [listExpr, here, run_bind, run_char, Outcome.andThen_ok, hopen,
      arguments_run hargs (.inr rfl), hclose, hcomma, run_pure]
    rfl
  simp only [List.cons_append, List.append_assoc, List.nil_append, primary, run_orElse]
  rw [(parenthesized_failed (by simp)).or, hlist]
  rfl

/-! ### Calls -/

theorem closure_text (he : e.isClosure = true) (d : Nat) :
    ∃ s, (Print.expr d e).toList = '\x7b' :: s := by
  cases e with
  | closure _ params body =>
    obtain ⟨_, statements⟩ := body
    rw [Print.expr, String.append_assoc, String.toList_append]
    exact ⟨_, rfl⟩
  | _ => cases he

/-- Without a closure in the last place all arguments stand in the parentheses. -/
theorem arguments_plain (h : args.getLast?.any Expr.isClosure = false) :
    (Print.arguments args (Print.exprs d args)).toList =
      '(' :: ((", ".intercalate (Print.exprs d args)).toList ++ [')']) := by
  rw [Print.arguments, h]
  simp

/-- A closure in the last place stands behind them, and they are left out if nothing is in them. -/
theorem arguments_closure {last : Expr} (hlast : last.isClosure = true) :
    (Print.arguments (args ++ [last]) (Print.exprs d (args ++ [last]))).toList =
      (if args.isEmpty then [] else
        '(' :: ((", ".intercalate (Print.exprs d args)).toList ++ [')'])) ++
          ' ' :: (Print.expr d last).toList := by
  have hdrop : (Print.exprs d (args ++ [last])).dropLast = Print.exprs d args := by
    simp [exprs_eq_map]
  have hget : (Print.exprs d (args ++ [last])).getLastD "" = Print.expr d last := by
    simp [exprs_eq_map]
  have hempty : (Print.exprs d args).isEmpty = args.isEmpty := by
    simp [exprs_eq_map]
  rw [Print.arguments]
  simp only [List.getLast?_append, List.getLast?_singleton, Option.some_or, Option.any_some, hlast,
    if_true, hdrop, hget, hempty]
  split <;> simp

theorem callArgs_plain (hargs : ∀ e ∈ args, SpelledArg d e) (hr : Follows 12 r) :
    bare.callArgs ('(' :: ((", ".intercalate (Print.exprs d args)).toList ++ ')' :: r)) =
      .ok (some (args.map Expr.bare)) r := by
  have hparen : (do gap; bare.parenArgs : Parser (List Expr))
      ('(' :: ((", ".intercalate (Print.exprs d args)).toList ++ ')' :: r)) =
        .ok (args.map Expr.bare) r := by
    rw [run_bind, run_gap, skip_neg (by decide) (by decide), Outcome.andThen_ok,
      parenArgs_run hargs]
  have hclosure : ((do gap; bare.closureExpr : Parser Expr) r).Failed := by
    rw [run_bind, run_gap, Outcome.andThen_ok]
    exact closureExpr_failed fun h => (hr.call _ h).2 rfl
  simp only [callArgs, run_bind, optional_ok hparen, optional_failed hclosure,
    Outcome.andThen_ok, run_pure]

theorem callArgs_closure {last : Expr} (hargs : ∀ e ∈ args ++ [last], SpelledArg d e)
    (hlast : last.isClosure = true) :
    bare.callArgs
      ((Print.arguments (args ++ [last]) (Print.exprs d (args ++ [last]))).toList ++ r) =
      .ok (some ((args ++ [last]).map Expr.bare)) r := by
  obtain ⟨s, hs⟩ := closure_text hlast d
  have hclosure : (do gap; bare.closureExpr : Parser Expr)
      (' ' :: ((Print.expr d last).toList ++ r)) = .ok last.bare r := by
    rw [run_bind, run_gap, skip_pos (by decide) (by decide), hs, List.cons_append,
      skip_neg (by decide) (by decide), Outcome.andThen_ok, ← List.cons_append, ← hs]
    exact (hargs last (by simp)).closure hlast r
  rw [arguments_closure hlast]
  cases args with
  | nil =>
    have hparen : ((do gap; bare.parenArgs : Parser (List Expr))
        (' ' :: ((Print.expr d last).toList ++ r))).Failed := by
      rw [run_bind, run_gap, skip_pos (by decide) (by decide), hs, List.cons_append,
        skip_neg (by decide) (by decide), Outcome.andThen_ok, parenArgs, run_bind]
      exact (char_failed (by simp)).andThen
    simp only [List.isEmpty_nil, if_true, List.nil_append, List.cons_append, callArgs, run_bind,
      optional_failed hparen, Outcome.andThen_ok, optional_ok hclosure, run_pure]
    rfl
  | cons first more =>
    have hparen : (do gap; bare.parenArgs : Parser (List Expr))
        ('(' :: ((", ".intercalate (Print.exprs d (first :: more))).toList ++
          ')' :: ' ' :: ((Print.expr d last).toList ++ r))) =
            .ok ((first :: more).map Expr.bare) (' ' :: ((Print.expr d last).toList ++ r)) := by
      rw [run_bind, run_gap, skip_neg (by decide) (by decide), Outcome.andThen_ok,
        parenArgs_run fun e he => hargs e (List.mem_append_left _ he)]
    simp only [List.isEmpty_cons, Bool.false_eq_true, if_false, List.cons_append,
      List.append_assoc, List.nil_append, callArgs, run_bind, optional_ok hparen,
      Outcome.andThen_ok, optional_ok hclosure, run_pure, Option.getD_some, List.map_append,
      List.map_cons, List.map_nil]

theorem callArgs_run (hargs : ∀ e ∈ args, SpelledArg d e) (hr : Follows 12 r) :
    bare.callArgs ((Print.arguments args (Print.exprs d args)).toList ++ r) =
      .ok (some (args.map Expr.bare)) r := by
  cases h : args.getLast?.any Expr.isClosure with
  | false =>
    rw [arguments_plain h]
    simp only [List.cons_append, List.append_assoc, List.nil_append, callArgs_plain hargs hr]
  | true =>
    obtain ⟨last, hmem, hlast⟩ := Option.any_eq_true .. |>.mp h
    obtain ⟨init, rfl⟩ := List.getLast?_eq_some_iff.mp hmem
    exact callArgs_closure hargs hlast

theorem endsWord_arguments (args : List Expr) (d : Nat) (r : List Char) :
    EndsWord ((Print.arguments args (Print.exprs d args)).toList ++ r) := by
  cases h : args.getLast?.any Expr.isClosure with
  | false =>
    rw [arguments_plain h]
    exact endsWord_cons.mpr (by decide)
  | true =>
    obtain ⟨last, hmem, hlast⟩ := Option.any_eq_true .. |>.mp h
    obtain ⟨init, rfl⟩ := List.getLast?_eq_some_iff.mp hmem
    rw [arguments_closure hlast]
    split
    · exact endsWord_cons.mpr (by decide)
    · exact endsWord_cons.mpr (by decide)

/-! ### The kinds of expressions -/

variable {name type : String}

theorem isIdentifier_of_isName (h : isName name = true) : isIdentifier name = true := by
  rw [isName, Bool.and_eq_true] at h
  exact h.1

theorem Spelled.member (p : Position) (hn : isIdentifier name = true) (h : Spelled d e) :
    Spelled d (.member p e name) := by
  have htext : (Print.expr d (.member p e name)).toList =
      (Print.operand 11 e (Print.expr d e)).toList ++ '.' :: name.toList := by simp [Print.expr]
  have hfits := (h.operand (k := 11) (by decide) (by decide)).member hn
  refine .of_fits (by simp [Expr.strength]) rfl ?_ ?_
  · rw [htext]
    exact h.operand_begins.append _
  · rw [htext, Expr.bare_member]
    rw [Expr.pos_bare] at hfits
    exact hfits

theorem Spelled.call (p : Position) (hn : isName name = true)
    (hargs : ∀ e ∈ args, SpelledArg d e) : Spelled d (.call p none name args) := by
  have htext : (Print.expr d (.call p none name args)).toList =
      name.toList ++ (Print.arguments args (Print.exprs d args)).toList := by simp [Print.expr]
  refine .of_fits (by simp [Expr.strength]) rfl ?_ ?_
  · rw [htext]
    exact (Begins.of_identifier (isIdentifier_of_isName hn)).append _
  · rw [htext, Expr.bare_call]
    exact (Primary.call hn (endsWord_arguments args d) fun r => callArgs_run hargs).fits

theorem Spelled.method (p : Position) (hn : isIdentifier name = true) (h : Spelled d e)
    (hargs : ∀ e ∈ args, SpelledArg d e) : Spelled d (.call p (some e) name args) := by
  have htext : (Print.expr d (.call p (some e) name args)).toList =
      (Print.operand 11 e (Print.expr d e)).toList ++
        '.' :: (name.toList ++ (Print.arguments args (Print.exprs d args)).toList) := by
    simp [Print.expr]
  have hfits := (h.operand (k := 11) (by decide) (by decide)).call hn
    (endsWord_arguments args d) fun r => callArgs_run hargs
  refine .of_fits (by simp [Expr.strength]) rfl ?_ ?_
  · rw [htext]
    exact h.operand_begins.append _
  · rw [htext, Expr.bare_call]
    rw [Expr.pos_bare] at hfits
    exact hfits

theorem Spelled.construct (p : Position) (ht : IsQualified type)
    (hargs : ∀ e ∈ args, SpelledArg d e) : Spelled d (.construct p type args) := by
  have htext : (Print.expr d (.construct p type args)).toList = "new".toList ++
      ' ' :: (type.toList ++ '(' :: ((", ".intercalate (Print.exprs d args)).toList ++ [')'])) := by
    simp [Print.expr]
  refine .of_fits (by simp [Expr.strength]) rfl ?_ ?_
  · rw [htext]
    exact (Begins.of_identifier (by decide)).append _
  · rw [htext, Expr.bare_construct]
    refine Primary.fits fun r hr => ?_
    generalize hrest : '(' :: ((", ".intercalate (Print.exprs d args)).toList ++ ')' :: r) = rest
    have hends : EndsWord rest := hrest ▸ endsWord_cons.mpr (by decide)
    have hnew : keyword "new" ("new".toList ++ ' ' :: (type.toList ++ rest)) =
        .ok () (' ' :: (type.toList ++ rest)) :=
      keyword_append (endsWord_cons.mpr (by decide))
    have hgap1 := run_gap1 ((Unspaced.of_qualified ht).append rest)
    have htype := qualifiedName_append ht hends (by rw [← hrest]; simp)
    have hgap : gap rest = .ok () rest := by
      rw [← hrest, run_gap, skip_neg (by decide) (by decide)]
    have hparen : bare.parenArgs rest = .ok (args.map Expr.bare) r := by
      rw [← hrest, parenArgs_run hargs]
    have hword := wordLiteral_failed (w := "new") (r := ' ' :: (type.toList ++ rest)) (by decide)
      (endsWord_cons.mpr (by decide)) (by decide)
    simp only [List.append_assoc, List.cons_append, List.nil_append, hrest]
    rw [primary_word (by decide), (literal_failed hword).or]
    simp only [construction, here, run_bind, Outcome.andThen_ok, hnew, hgap1, htype, hgap, hparen,
      run_pure, Outcome.or_ok]
    rfl

theorem Spelled.cast (p : Position) (ht : IsQualified type) (h : Spelled d e) :
    Spelled d (.cast p e type) := by
  have htext : (Print.expr d (.cast p e type)).toList =
      (Print.operand 10 e (Print.expr d e)).toList ++
        ' ' :: 'a' :: 's' :: ' ' :: type.toList := by simp [Print.expr]
  have hfits := (h.operand (k := 10) (by decide) (by decide)).cast ht
  refine .of_fits (by simp [Expr.strength]) rfl ?_ ?_
  · rw [htext]
    exact h.operand_begins.append _
  · rw [htext, Expr.bare_cast]
    rw [Expr.pos_bare] at hfits
    exact hfits

theorem Spelled.list (p : Position) (hargs : ∀ e ∈ args, SpelledArg d e) :
    Spelled d (.list p args) := by
  have htext : (Print.expr d (.list p args)).toList =
      '[' :: ((", ".intercalate (Print.exprs d args)).toList ++ [']']) := by simp [Print.expr]
  refine .of_fits (by simp [Expr.strength]) rfl ?_ ?_
  · rw [htext]
    exact ⟨'[', _, rfl, by decide, fun _ => by decide⟩
  · rw [htext, Expr.bare_list]
    exact (Primary.list hargs).fits

section

variable {left right : Expr} {op : BinOp}

theorem join_bare (p : Position) :
    join left.bare op right.bare = (Expr.binary p left op right).bare := by
  rw [join, Expr.pos_bare, Expr.bare_binary]

theorem Spelled.index (p : Position) (hl : Spelled d left) (hr : Spelled d right) :
    Spelled d (.binary p left .index right) := by
  have htext : (Print.expr d (.binary p left .index right)).toList =
      (Print.operand 11 left (Print.expr d left)).toList ++
        '[' :: ((Print.expr d right).toList ++ [']']) := by simp [Print.expr]
  refine .of_fits (by simp [Expr.strength, BinOp.strength]) rfl ?_ ?_
  · rw [htext]
    exact hl.operand_begins.append _
  · rw [htext, ← join_bare]
    exact (hl.operand (by decide) (by decide)).index hr.begins.unspaced hr.whole

theorem Spelled.assign (p : Position) (hop : op.isAssignment = true) (hl : Spelled d left)
    (hr : Spelled d right) : Spelled d (.binary p left op right) := by
  have hstrength := BinOp.strength_of_isAssignment hop
  have hindex : op ≠ .index := BinOp.ne_index (by omega)
  have hright : Print.operand 1 right (Print.expr d right) = Print.expr d right := by
    rw [Print.operand, if_neg]
    have := right.strength_pos
    omega
  have htext : (Print.expr d (.binary p left op right)).toList =
      (Print.operand 2 left (Print.expr d left)).toList ++
        ' ' :: (op.token.toList ++ ' ' :: (Print.expr d right).toList) := by
    simp [Print.expr, hindex, hop, hstrength, hright]
  refine ⟨?_, fun h => ?_, ?_, fun h => ?_⟩
  · rw [htext]
    exact (hl.operand_begins.mono (by simp [Expr.strength, hstrength])).append _
  · rw [Expr.strength, hstrength] at h
    exact absurd h (by decide)
  · rw [htext, ← join_bare]
    exact Whole.assign hop hr.begins.unspaced (hl.operand (by decide) (by decide)) hr.whole
  · cases h

theorem Spelled.grouped (p : Position) (hlo : 2 ≤ op.strength) (hhi : op.strength ≤ 8)
    (hl : Spelled d left) (hr : Spelled d right) : Spelled d (.binary p left op right) := by
  have hindex := BinOp.ne_index hhi
  have hassign : op.isAssignment = false := by
    cases op <;> first | rfl | exact absurd hlo (by decide)
  have htext : (Print.expr d (.binary p left op right)).toList =
      (Print.operand op.strength left (Print.expr d left)).toList ++ ' ' ::
        (op.token.toList ++ ' ' ::
          (Print.operand (op.strength + 1) right (Print.expr d right)).toList) := by
    simp [Print.expr, hindex, hassign]
  refine .of_fits (by simpa [Expr.strength] using hlo) rfl ?_ ?_
  · rw [htext]
    exact hl.operand_begins.append _
  · rw [htext, ← join_bare, Expr.strength, Nat.min_eq_left (by omega)]
    exact .binary hhi hr.operand_begins.unspaced (hl.operand hlo (by omega))
      (hr.operand (by omega) (by omega))

theorem Spelled.binary (p : Position) (op : BinOp) (hl : Spelled d left) (hr : Spelled d right) :
    Spelled d (.binary p left op right) := by
  cases op with
  | index => exact .index p hl hr
  | assign => exact .assign p rfl hl hr
  | addAssign => exact .assign p rfl hl hr
  | subAssign => exact .assign p rfl hl hr
  | _ => exact .grouped p (by decide) (by decide) hl hr

end

end

end QueryBlocks
