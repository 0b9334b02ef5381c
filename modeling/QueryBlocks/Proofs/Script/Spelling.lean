import QueryBlocks.Proofs.Script.Follow
import QueryBlocks.Proofs.Script.Places

/-! Reading a written expression back. An operand of strength `k` is read by the rule of its level,
which then goes on with whatever follows; `Fits` says so for all texts that may follow, so that a
chain of operators can be read one operand at a time. -/
namespace QueryBlocks

open QueryBlocks.Parser QueryBlocks.Token

namespace Rules

/-- The rule for operands that bind at least as tightly as `k`. -/
def reader (k : Nat) : Parser Expr :=
  if k ≤ 9 then bare.levels (ladder.drop (k - 2)) else bare.postfixed

/-- How that rule goes on after an operand. -/
def resume (k : Nat) (e : Expr) : Parser Expr :=
  if k ≤ 8 then extend (operation (opAt k) (reader (k + 1))) e
  else if k = 9 then pure e
  else extend bare.suffix e

end Rules

open Rules

variable {k : Nat} {e : Expr} {t r : List Char} {v : Expr}

theorem reader_of_le (hlo : 2 ≤ k) (hhi : k ≤ 8) :
    reader k = leftGrouped (opAt k) (reader (k + 1)) := by
  interval_cases k <;> rfl

theorem reader_signed : reader 9 = bare.signed := rfl

theorem reader_postfixed (hk : 10 ≤ k) : reader k = bare.postfixed := by
  rw [reader, if_neg (by omega)]

theorem resume_of_le (hk : k ≤ 8) :
    resume k e = extend (operation (opAt k) (reader (k + 1))) e := by
  rw [resume, if_pos hk]

theorem resume_postfixed (hk : 10 ≤ k) : resume k e = extend bare.suffix e := by
  rw [resume, if_neg (by omega), if_neg (by omega)]

theorem operation_none (hr : Follows k r) :
    operation (opAt k) (reader (k + 1)) e r = .ok none r := by
  rw [operation, run_bind, optional_failed (hr.operator k (Nat.le_refl k))]
  rfl

theorem suffix_none (hr : Follows 10 r) : bare.suffix e r = .ok none r := by
  simp [suffix, optional_failed (hr.member (by decide)),
    optional_failed (char_failed (hr.index (by decide))), optional_failed (hr.cast (by decide))]

/-- Where nothing of its level follows, a rule stops. -/
theorem resume_follows (hk : k ≤ 10) (hr : Follows k r) : resume k e r = .ok e r := by
  rcases Nat.lt_or_ge k 9 with h | h
  · rw [resume_of_le (by omega), extend_none (operation_none hr)]
  · rcases Nat.eq_or_lt_of_le h with rfl | h
    · rfl
    · rw [resume_postfixed (by omega), extend_none (suffix_none (hr.mono hk))]

/-- The text `t` is read as `v` at level `k`, whatever of this level follows. -/
def Fits (k : Nat) (t : List Char) (v : Expr) : Prop :=
  ∀ r, Follows (k + 1) r → reader k (t ++ r) = resume k v r

/-- The text is read as `v` where nothing more follows. -/
def Whole (t : List Char) (v : Expr) : Prop :=
  ∀ r, Follows 1 r → bare.assignment (t ++ r) = .ok v r

/-- The text does not begin with a sign. -/
def Unsigned (t : List Char) : Prop := ∃ c s, t = c :: s ∧ c ≠ '!' ∧ c ≠ '-'

namespace Fits

theorem ok (h : Fits k t v) (hk : k ≤ 10) (hr : Follows k r) : reader k (t ++ r) = .ok v r := by
  rw [h r (hr.mono (Nat.le_succ k)), resume_follows hk hr]

theorem lower_grouped (h : Fits (k + 1) t v) (hlo : 2 ≤ k) (hhi : k ≤ 8) : Fits k t v := by
  intro r hr
  rw [reader_of_le hlo hhi, leftGrouped, run_bind, h.ok (by omega) hr, resume_of_le hhi]
  rfl

theorem lower_signed (h : Fits 10 t v) (ht : Unsigned t) : Fits 9 t v := by
  intro r hr
  obtain ⟨c, s, rfl, hnot, hminus⟩ := ht
  have hpost : bare.postfixed (c :: s ++ r) = .ok v r := h.ok (Nat.le_refl 10) hr
  have hc (d : Char) (hd : c ≠ d) : optional (char d) (c :: s ++ r) = .ok none (c :: s ++ r) :=
    optional_failed (char_failed (by simpa using hd))
  rw [reader_signed, signed, run_bind]
  simp only [here, Outcome.andThen_ok, run_bind, hc '!' hnot, hc '-' hminus, Option.isSome_none,
    Bool.false_eq_true, if_false, hpost]
  rfl

theorem lower_cast (h : Fits 11 t v) : Fits 10 t v :=
  fun r hr => h r (hr.mono (Nat.le_succ 11))

/-- A text that is read at one level is read at every looser one. -/
theorem lower {m : Nat} (h : Fits m t v) (hm : m ≤ 11) (ht : 10 ≤ m → Unsigned t) (hlo : 2 ≤ k)
    (hk : k ≤ m) : Fits k t v := by
  induction m, hk using Nat.le_induction with
  | base => exact h
  | succ m hkm ih =>
    refine ih ?_ (by omega) fun hm' => ht (by omega)
    rcases Nat.lt_or_ge m 9 with hm9 | hm9
    · exact h.lower_grouped (by omega) (by omega)
    · rcases Nat.eq_or_lt_of_le hm9 with rfl | hm9
      · exact h.lower_signed (ht (Nat.le_refl 10))
      · obtain rfl : m = 10 := by omega
        exact h.lower_cast

theorem whole (h : Fits 2 t v) : Whole t v := by
  intro r hr
  have hlevels : bare.levels ladder (t ++ r) = .ok v r :=
    h.ok (by decide) (hr.mono (by decide))
  have hop : ((do gap; assignOp : Parser BinOp) r).Failed := hr.operator 1 (Nat.le_refl 1)
  rw [assignment, run_bind, hlevels, Outcome.andThen_ok, run_bind, optional_failed hop]
  rfl

end Fits

theorem Whole.expr (h : Whole t v) (hr : Follows 1 r) : bare.expr (t ++ r) = .ok v r := by
  rw [bare_expr]
  exact h r hr

/-! ### Operators -/

/-- An operator and its right operand, after a left operand of the same level. -/
theorem operation_some {op : BinOp} (hop : op ≠ .index) (hs : op.strength ≤ 8) (ht : Unspaced t)
    (h : Fits (op.strength + 1) t v) (hr : Follows (op.strength + 1) r) :
    operation (opAt op.strength) (reader (op.strength + 1)) e
      (' ' :: (op.token.toList ++ ' ' :: (t ++ r))) = .ok (some (join e op v)) r := by
  have hread : (do gap; opAt op.strength : Parser BinOp)
      (' ' :: (op.token.toList ++ ' ' :: (t ++ r))) = .ok op (' ' :: (t ++ r)) := by
    rw [run_bind, run_gap, skip_operator isBreak_of_isGap (by decide), Outcome.andThen_ok,
      opAt_token hop]
  have hspace : space (' ' :: (t ++ r)) = .ok () (t ++ r) := space_blank (ht.append r)
  simp only [operation, run_bind, optional_ok hread, Outcome.andThen_ok, hspace,
    h.ok (by omega) hr, run_pure]

theorem BinOp.ne_index {op : BinOp} (h : op.strength ≤ 8) : op ≠ .index := by
  rintro rfl
  exact absurd h (by decide)

theorem BinOp.strength_of_isAssignment {op : BinOp} (h : op.isAssignment = true) :
    op.strength = 1 := by
  cases op with
  | assign | addAssign | subAssign => rfl
  | _ => cases h

theorem Fits.binary {op : BinOp} {left right : List Char} {u : Expr} (hhi : op.strength ≤ 8)
    (hright : Unspaced right) (hl : Fits op.strength left u)
    (hr : Fits (op.strength + 1) right v) :
    Fits op.strength (left ++ ' ' :: (op.token.toList ++ ' ' :: right)) (join u op v) := by
  intro r hfollow
  have hop := BinOp.ne_index hhi
  have hstep := operation_some (e := u) hop hhi hright hr hfollow
  simp only [List.append_assoc, List.cons_append]
  rw [hl _ (Follows.of_operator hop), resume_of_le hhi, extend_some hstep, resume_of_le hhi]
  simp only [List.length_cons, List.length_append]
  omega

/-- Behind an assignment sign an expression is read, and nothing else decides. -/
theorem assignment_of_operator {op : BinOp} {left right : List Char} {u : Expr}
    (hop : op.isAssignment = true) (hright : Unspaced right) (hl : Fits 2 left u) :
    bare.assignment (left ++ ' ' :: (op.token.toList ++ ' ' :: right)) =
      (bare.expr right).andThen fun v => pure (join u op v) := by
  have hstrength := BinOp.strength_of_isAssignment hop
  have hindex : op ≠ .index := BinOp.ne_index (by omega)
  have hlevels : bare.levels ladder (left ++ ' ' :: (op.token.toList ++ ' ' :: right)) =
      .ok u (' ' :: (op.token.toList ++ ' ' :: right)) := by
    have hfirst := Follows.of_operator (s := right) hindex
    rw [hstrength] at hfirst
    exact hl.ok (by decide) hfirst
  have hread : (do gap; assignOp : Parser BinOp) (' ' :: (op.token.toList ++ ' ' :: right)) =
      .ok op (' ' :: right) := by
    have htoken := opAt_token (s := right) hindex
    rw [hstrength] at htoken
    rw [run_bind, run_gap, skip_operator isBreak_of_isGap (by decide), Outcome.andThen_ok]
    exact htoken
  have hspace : space (' ' :: right) = .ok () right := space_blank hright
  simp only [assignment, run_bind, hlevels, Outcome.andThen_ok, optional_ok hread, hspace]

theorem Whole.assign {op : BinOp} {left right : List Char} {u : Expr} (hop : op.isAssignment = true)
    (hright : Unspaced right) (hl : Fits 2 left u) (hr : Whole right v) :
    Whole (left ++ ' ' :: (op.token.toList ++ ' ' :: right)) (join u op v) := by
  intro r hfollow
  simp only [List.append_assoc, List.cons_append]
  rw [assignment_of_operator hop (hright.append r) hl, hr.expr hfollow]
  rfl

/-! ### Signs -/

theorem signed_of_fits (h : Fits 9 t v) (hr : Follows 10 r) : bare.unary (t ++ r) = .ok v r := by
  rw [bare_unary]
  exact h r hr

theorem Fits.not (ht : Unspaced t) (h : Fits 9 t v) : Fits 9 ('!' :: t) (.not ⟨0, 0⟩ v) := by
  intro r hr
  have hspace : space (t ++ r) = .ok () (t ++ r) := space_unspaced (ht.append r)
  rw [reader_signed, List.cons_append]
  simp only [signed, here, run_bind, Outcome.andThen_ok, optional_ok run_char, Option.isSome_some,
    if_true, hspace, signed_of_fits h hr, run_pure]
  rfl

/-- Behind a minus the rule for signs negates what the rule for operands gives. -/
theorem signed_minus (g : Rules) (s : List Char) :
    g.signed ('-' :: s) = (g.unary s).map (negated (g.place ('-' :: s))) := by
  have hnot : optional (char '!') ('-' :: s) = .ok none ('-' :: s) :=
    optional_failed (char_failed (by simp))
  simp only [signed, here, run_bind, Outcome.andThen_ok, hnot, optional_ok run_char,
    Option.isSome_none, Option.isSome_some, Bool.false_eq_true, if_false, if_true]
  cases g.unary s <;> rfl

theorem Fits.minus (h : Fits 9 t v) : Fits 9 ('-' :: t) (negated ⟨0, 0⟩ v) := by
  intro r hr
  rw [reader_signed, List.cons_append, signed_minus, signed_of_fits h hr]
  rfl

/-! ### Primaries and suffixes -/

/-- The text is read as the first part of a chain of members, indices and casts. -/
def Primary (t : List Char) (v : Expr) : Prop :=
  ∀ r, Follows 12 r → bare.primary (t ++ r) = .ok v r

theorem Primary.fits (h : Primary t v) : Fits 11 t v := by
  intro r hr
  rw [reader_postfixed (by decide), postfixed, run_bind, h r hr, resume_postfixed (by decide)]
  rfl

theorem callArgs_none (hr : Follows 12 r) : bare.callArgs r = .ok none r := by
  have hparen : ((do gap; bare.parenArgs : Parser (List Expr)) r).Failed := by
    rw [run_bind, run_gap, Outcome.andThen_ok, parenArgs, run_bind]
    refine (char_failed fun h => ?_).andThen
    exact (hr.call _ h).1 rfl
  have hclosure : ((do gap; bare.closureExpr : Parser Expr) r).Failed := by
    rw [run_bind, run_gap, Outcome.andThen_ok, closureExpr, run_bind, here, Outcome.andThen_ok,
      run_bind, Rules.closure, run_bind, here, Outcome.andThen_ok, run_bind]
    refine ((char_failed fun h => ?_).andThen).andThen
    exact (hr.call _ h).2 rfl
  simp only [callArgs, run_bind, optional_failed hparen, optional_failed hclosure,
    Outcome.andThen_ok, run_pure]

/-- One suffix after a text that was read at level `k`. -/
theorem Fits.suffix {suff : List Char} {u : Expr} (hk : 10 ≤ k) (hsuff : suff ≠ [])
    (h : Fits k t u) (hnext : ∀ r, Follows (k + 1) r → Follows (k + 1) (suff ++ r))
    (hstep : ∀ r, Follows (k + 1) r → bare.suffix u (suff ++ r) = .ok (some v) r) :
    Fits k (t ++ suff) v := by
  intro r hr
  have hlen := List.length_pos_iff.mpr hsuff
  rw [List.append_assoc, h _ (hnext r hr), resume_postfixed hk, extend_some (hstep r hr),
    resume_postfixed hk]
  simp only [List.length_append]
  omega

variable {name type : String}

theorem dot_append (hn : isIdentifier name = true) :
    dot ('.' :: (name.toList ++ r)) = .ok () (name.toList ++ r) := by
  have hspace : space ('.' :: (name.toList ++ r)) = .ok () ('.' :: (name.toList ++ r)) :=
    space_cons (by decide) (by decide)
  have hgap : gap (name.toList ++ r) = .ok () (name.toList ++ r) := by
    rw [run_gap, skip_unspaced isBreak_of_isGap ((Unspaced.of_identifier hn).append r)]
  have hnext : notNext (char '.') (name.toList ++ r) = .ok () (name.toList ++ r) := by
    obtain ⟨c, more, hnl, hc, -⟩ := isIdentifier_iff.mp hn
    rw [hnl]
    refine notNext_failed (char_failed fun h => ?_)
    cases h
    exact absurd hc (by decide)
  simp only [dot, run_bind, hspace, run_char, Outcome.andThen_ok, hnext, hgap]

theorem follows_dot (hn : isIdentifier name = true) :
    Follows 12 ('.' :: (name.toList ++ r)) := by
  refine Follows.of_suffix (.inl rfl) fun _ d hd => ?_
  obtain ⟨c, more, hnl, hc, -⟩ := isIdentifier_iff.mp hn
  rw [hnl] at hd
  cases hd
  exact not_isDigit_of_isWordStart hc

theorem Fits.member {u : Expr} (hn : isIdentifier name = true) (h : Fits 11 t u) :
    Fits 11 (t ++ '.' :: name.toList) (.member u.pos u name) := by
  refine h.suffix (by decide) (by simp) (fun r _ => ?_) fun r hr => ?_
  · exact follows_dot hn
  · simp only [List.cons_append, Rules.suffix, run_bind, optional_ok (dot_append hn),
      Outcome.andThen_ok, Option.isSome_some, if_true, identifier_append hn hr.word,
      callArgs_none hr, run_pure]

theorem Fits.call {u : Expr} {argsText : List Char} {args : List Expr}
    (hn : isIdentifier name = true) (hends : ∀ r, EndsWord (argsText ++ r))
    (hargs : ∀ r, Follows 12 r → bare.callArgs (argsText ++ r) = .ok (some args) r)
    (h : Fits 11 t u) :
    Fits 11 (t ++ '.' :: (name.toList ++ argsText)) (.call u.pos (some u) name args) := by
  refine h.suffix (by decide) (by simp) (fun r _ => ?_) fun r hr => ?_
  · rw [List.cons_append, List.append_assoc]
    exact follows_dot hn
  · simp only [List.cons_append, List.append_assoc, Rules.suffix, run_bind,
      optional_ok (dot_append hn), Outcome.andThen_ok, Option.isSome_some, if_true,
      identifier_append hn (hends r), hargs r hr, run_pure]

theorem Fits.index {u : Expr} {inner : List Char} (hi : Unspaced inner) (hw : Whole inner v)
    (h : Fits 11 t u) : Fits 11 (t ++ '[' :: (inner ++ [']'])) (join u .index v) := by
  refine h.suffix (by decide) (by simp) (fun r _ => ?_) fun r hr => ?_
  · exact Follows.of_suffix (.inr rfl) (fun h => absurd h (by decide))
  · have hdot : optional dot ('[' :: (inner ++ ']' :: r)) =
        .ok none ('[' :: (inner ++ ']' :: r)) := by
      refine optional_failed (Follows.dot_failed ?_)
      rw [skip_neg (by decide) (by decide)]
      simp
    have hspace : space (inner ++ ']' :: r) = .ok () (inner ++ ']' :: r) :=
      space_unspaced (hi.append _)
    have hexpr : bare.expr (inner ++ ']' :: r) = .ok v (']' :: r) :=
      hw.expr (.of_close (.inr (.inl rfl)))
    have hclose : space (']' :: r) = .ok () (']' :: r) :=
      space_cons (by decide) (by decide)
    simp only [List.cons_append, List.append_assoc, List.nil_append, Rules.suffix, run_bind, hdot,
      Outcome.andThen_ok, Option.isSome_none, Option.isSome_some, Bool.false_eq_true, if_false,
      if_true, optional_ok run_char, hspace, hexpr, hclose, run_char, run_pure]

theorem Fits.cast {u : Expr} (ht : IsQualified type) (h : Fits 10 t u) :
    Fits 10 (t ++ ' ' :: 'a' :: 's' :: ' ' :: type.toList) (.cast u.pos u type) := by
  refine h.suffix (by decide) (by simp) (fun r _ => Follows.of_cast) fun r hr => ?_
  have hdot : optional dot (' ' :: 'a' :: 's' :: ' ' :: (type.toList ++ r)) =
      .ok none (' ' :: 'a' :: 's' :: ' ' :: (type.toList ++ r)) := by
    refine optional_failed (Follows.dot_failed ?_)
    rw [skip_pos (by decide) (by decide), skip_neg (by decide) (by decide)]
    simp
  have hindex : optional (char '[') (' ' :: 'a' :: 's' :: ' ' :: (type.toList ++ r)) =
      .ok none (' ' :: 'a' :: 's' :: ' ' :: (type.toList ++ r)) :=
    optional_failed (char_failed (by simp))
  have hword : castWord (' ' :: 'a' :: 's' :: ' ' :: (type.toList ++ r)) =
      .ok () (type.toList ++ r) := by
    have hkey : keyword "as" ('a' :: 's' :: ' ' :: (type.toList ++ r)) =
        .ok () (' ' :: (type.toList ++ r)) := rfl
    have hgap : skip isGap (type.toList ++ r) = type.toList ++ r :=
      skip_unspaced isBreak_of_isGap ((Unspaced.of_qualified ht).append r)
    simp only [castWord, run_bind, run_gap, Outcome.andThen_ok,
      skip_pos (g := isGap) (c := ' ') (by decide) (by decide),
      skip_neg (g := isGap) (c := 'a') (by decide) (by decide), hkey, hgap]
  simp only [List.cons_append, Rules.suffix, run_bind, hdot, hindex, optional_ok hword,
    Outcome.andThen_ok, Option.isSome_none, Option.isSome_some, Bool.false_eq_true, if_false,
    if_true, qualifiedName_append ht hr.word (hr.segment (by decide)), run_pure]

/-! ### The kinds of primaries -/

section

variable {g : Rules} {s : List Char}

theorem parenthesized_failed (h : s.head? ≠ some '(') : (g.parenthesized s).Failed := by
  rw [parenthesized, run_bind]
  exact (char_failed h).andThen

theorem listExpr_failed (h : s.head? ≠ some '[') : (g.listExpr s).Failed := by
  rw [listExpr, run_bind, here, Outcome.andThen_ok, run_bind]
  exact (char_failed h).andThen

theorem closureExpr_failed (h : s.head? ≠ some '\x7b') : (g.closureExpr s).Failed := by
  rw [closureExpr, run_bind, here, Outcome.andThen_ok, run_bind, Rules.closure, run_bind, here,
    Outcome.andThen_ok, run_bind]
  exact (char_failed h).andThen.andThen

theorem literal_failed {p : Parser Literal} (h : (p s).Failed) : (g.literal p s).Failed := by
  rw [literal, run_bind, here, Outcome.andThen_ok, run_bind]
  exact h.andThen

theorem stringLiteral_failed (h : s.head? ≠ some '"') (h' : s.head? ≠ some '\'') :
    (stringLiteral s).Failed := by
  cases s with
  | nil => trivial
  | cons c s =>
    unfold stringLiteral
    split
    · rename_i heq
      cases heq
      exact absurd rfl h
    · rename_i heq
      cases heq
      exact absurd rfl h'
    · trivial

theorem number_failed (h : ∀ c ∈ s.head?, c.isDigit = false) : (number s).Failed := by
  obtain ⟨place, hp⟩ := (digits_failed h).exists
  simp [number, verify, numeral, hp]

/-- The alternatives that are left for a text with a letter in front. -/
theorem primary_word {w : String} (hw : isIdentifier w = true) :
    bare.primary (w.toList ++ r) = (bare.literal wordLiteral (w.toList ++ r)).or
      ((bare.construction (w.toList ++ r)).or (bare.nameOrCall (w.toList ++ r))) := by
  obtain ⟨c, more, hwl, hc, -⟩ := isIdentifier_iff.mp hw
  have hne {d : Char} (hd : isWordStart d = false) : (w.toList ++ r).head? ≠ some d := by
    rw [hwl]
    rintro h
    cases h
    rw [hc] at hd
    cases hd
  have hdigit : ∀ d ∈ (w.toList ++ r).head?, d.isDigit = false := by
    rw [hwl]
    intro d hd
    cases hd
    exact not_isDigit_of_isWordStart hc
  have hstring :
      ((do return .string (← stringLiteral) : Parser Literal) (w.toList ++ r)).Failed := by
    rw [run_bind]
    exact (stringLiteral_failed (hne (by decide)) (hne (by decide))).andThen
  simp only [primary, run_orElse, (parenthesized_failed (hne (by decide))).or,
    (listExpr_failed (hne (by decide))).or, (closureExpr_failed (hne (by decide))).or,
    (literal_failed hstring).or, (literal_failed (number_failed hdigit)).or]

theorem wordLiteral_failed {w : String} (hw : isIdentifier w = true) (hr : EndsWord r)
    (hne : w ≠ "true" ∧ w ≠ "false" ∧ w ≠ "null") : (wordLiteral (w.toList ++ r)).Failed := by
  have hkey {k : String} (hk : k.toList.all isWordChar = true) (h : w ≠ k) :=
    keyword_failed hk (all_isWordChar hw) hr h
  simp only [wordLiteral, run_orElse, run_bind, (hkey (k := "true") (by decide) hne.1).andThen.or,
    (hkey (k := "false") (by decide) hne.2.1).andThen.or]
  exact (hkey (by decide) hne.2.2).andThen

theorem construction_failed {w : String} (hw : isIdentifier w = true) (hr : EndsWord r)
    (hne : w ≠ "new") : (bare.construction (w.toList ++ r)).Failed := by
  rw [construction, run_bind, here, Outcome.andThen_ok, run_bind]
  exact (keyword_failed (by decide) (all_isWordChar hw) hr hne).andThen

end

/-- A name is no word of another meaning, so it is read as a name. -/
theorem primary_name (hn : isName name = true) (hr : EndsWord r) :
    bare.primary (name.toList ++ r) = bare.nameOrCall (name.toList ++ r) := by
  have hid : isIdentifier name = true := by
    rw [isName, Bool.and_eq_true] at hn
    exact hn.1
  have hne {k : String} (hk : isReserved k = true) : name ≠ k := by
    rintro rfl
    simp [isName, hk] at hn
  rw [primary_word hid, (literal_failed (wordLiteral_failed hid hr
    ⟨hne (by decide), hne (by decide), hne (by decide)⟩)).or,
    (construction_failed hid hr (hne (by decide))).or]

theorem Primary.var (hn : isName name = true) : Primary name.toList (.var ⟨0, 0⟩ name) := by
  intro r hr
  rw [primary_name hn hr.word]
  simp only [nameOrCall, here, run_bind, Outcome.andThen_ok, name_append hn hr.word,
    callArgs_none hr, run_pure]
  rfl

theorem Primary.call {argsText : List Char} {args : List Expr} (hn : isName name = true)
    (hends : ∀ r, EndsWord (argsText ++ r))
    (hargs : ∀ r, Follows 12 r → bare.callArgs (argsText ++ r) = .ok (some args) r) :
    Primary (name.toList ++ argsText) (.call ⟨0, 0⟩ none name args) := by
  intro r hr
  rw [List.append_assoc, primary_name hn (hends r)]
  simp only [nameOrCall, here, run_bind, Outcome.andThen_ok, name_append hn (hends r),
    hargs r hr, run_pure]
  rfl

theorem Primary.parens (ht : Unspaced t) (h : Whole t v) : Primary ('(' :: (t ++ [')'])) v := by
  intro r hr
  have hspace : space (t ++ ')' :: r) = .ok () (t ++ ')' :: r) := space_unspaced (ht.append _)
  have hclose : space (')' :: r) = .ok () (')' :: r) :=
    space_cons (by decide) (by decide)
  have hexpr : bare.expr (t ++ ')' :: r) = .ok v (')' :: r) := h.expr (.of_close (.inl rfl))
  simp only [primary, run_orElse, parenthesized, run_bind, List.cons_append, List.append_assoc,
    List.nil_append, run_char, Outcome.andThen_ok, hspace, hexpr, hclose, run_pure, Outcome.or_ok]

/-! ### Literals -/

/-- A quoted text is an operand of its own, whatever follows it. -/
theorem primary_quote (g : Rules) (text : String) (rest : List Char) :
    g.primary ((Text.quote text).toList ++ rest) =
      .ok (.lit (g.place ((Text.quote text).toList ++ rest)) (.string text)) rest := by
  obtain ⟨s, hs⟩ : ∃ s, (Text.quote text).toList = '"' :: s :=
    ⟨text.toList.flatMap Text.escape ++ ['"'], by simp [Text.quote]⟩
  have hread : stringLiteral ((Text.quote text).toList ++ rest) = .ok text rest :=
    stringLiteral_quote text
  rw [hs, List.cons_append] at hread ⊢
  simp only [primary, run_orElse]
  rw [(parenthesized_failed (by simp)).or, (listExpr_failed (by simp)).or,
    (closureExpr_failed (by simp)).or]
  simp only [literal, here, run_bind, Outcome.andThen_ok, hread, run_pure, Outcome.or_ok]

theorem Primary.string (text : String) :
    Primary (Text.quote text).toList (.lit ⟨0, 0⟩ (.string text)) :=
  fun r _ => primary_quote bare text r

theorem Primary.number {c : Char} {s : List Char} {value : Literal} (hc : c.isDigit = true)
    (h : ∀ r, Follows 12 r → Token.number (c :: s ++ r) = .ok value r) :
    Primary (c :: s) (.lit ⟨0, 0⟩ value) := by
  intro r hr
  have hne {d : Char} (hd : d.isDigit = false) : (c :: s ++ r).head? ≠ some d := by
    rintro h
    cases h
    rw [hc] at hd
    cases hd
  have hstring : ((do return .string (← stringLiteral) : Parser Literal) (c :: s ++ r)).Failed := by
    rw [run_bind]
    exact (stringLiteral_failed (hne (by decide)) (hne (by decide))).andThen
  simp only [primary, run_orElse, (parenthesized_failed (hne (by decide))).or,
    (listExpr_failed (hne (by decide))).or, (closureExpr_failed (hne (by decide))).or,
    (literal_failed hstring).or]
  simp only [literal, here, run_bind, Outcome.andThen_ok, h r hr, run_pure, Outcome.or_ok]
  rfl

theorem Unsigned.of_isDigit {c : Char} {s : List Char} (hc : c.isDigit = true) :
    Unsigned (c :: s) := by
  refine ⟨c, s, rfl, ?_, ?_⟩
  all_goals
    rintro rfl
    cases hc

theorem isDigit_of_mem_toDigits {n : Nat} {c : Char} (h : c ∈ Nat.toDigits 10 n) :
    c.isDigit = true :=
  Nat.isDigit_of_mem_toDigits (by decide) (by decide) h

theorem Primary.nat {n : Nat} (hn : n ≤ maxInt) :
    Primary (Nat.toDigits 10 n) (.lit ⟨0, 0⟩ (.int n)) := by
  have hne : Nat.toDigits 10 n ≠ [] := Nat.toDigits_ne_nil
  obtain ⟨c, s, hcs⟩ := List.exists_cons_of_ne_nil hne
  have hc : c.isDigit = true := isDigit_of_mem_toDigits (hcs ▸ List.mem_cons_self)
  rw [hcs]
  refine Primary.number hc fun r hr => ?_
  rw [← hcs]
  exact number_int hn hr.word hr.fraction

theorem unsigned_toDigits (n : Nat) : Unsigned (Nat.toDigits 10 n) := by
  obtain ⟨c, s, hcs⟩ := List.exists_cons_of_ne_nil (Nat.toDigits_ne_nil (b := 10) (n := n))
  rw [hcs]
  exact .of_isDigit (isDigit_of_mem_toDigits (hcs ▸ List.mem_cons_self))

theorem Fits.negative {n : Nat} (hn : n ≤ maxInt) :
    Fits 9 ('-' :: Nat.toDigits 10 n) (.lit ⟨0, 0⟩ (.int (-n))) :=
  .minus ((Primary.nat hn).fits.lower (by decide) (fun _ => unsigned_toDigits n) (by decide)
    (by decide))

section

variable {whole fraction : List Char} (hw : whole ≠ []) (hwd : whole.all Char.isDigit = true)
  (hf : fraction ≠ []) (hfd : fraction.all Char.isDigit = true)

include hw hwd hf hfd

theorem Primary.decimal : Primary (whole ++ '.' :: fraction)
    (.lit ⟨0, 0⟩ (.decimal (String.ofList (whole ++ '.' :: fraction)))) := by
  obtain ⟨c, s, rfl⟩ := List.exists_cons_of_ne_nil hw
  have hc : c.isDigit = true := by
    rw [List.all_cons, Bool.and_eq_true] at hwd
    exact hwd.1
  exact Primary.number hc fun r hr => number_decimal hw hwd hf hfd hr.word

theorem Fits.decimal (signs : Nat) :
    Fits 9 (List.replicate signs '-' ++ (whole ++ '.' :: fraction)) (.lit ⟨0, 0⟩
      (.decimal (String.ofList (List.replicate signs '-' ++ (whole ++ '.' :: fraction))))) := by
  induction signs with
  | zero =>
    refine (Primary.decimal hw hwd hf hfd).fits.lower (by decide) (fun _ => ?_) (by decide)
      (by decide)
    obtain ⟨c, s, rfl⟩ := List.exists_cons_of_ne_nil hw
    rw [List.all_cons, Bool.and_eq_true] at hwd
    exact .of_isDigit hwd.1
  | succ signs ih =>
    have h := ih.minus
    have hsign (l : List Char) : "-" ++ String.ofList l = String.ofList ('-' :: l) := by
      rw [← String.toList_inj]
      simp
    rw [negated, hsign] at h
    exact h

end

/-- The words `true`, `false` and `null`. -/
theorem Primary.wordLiteral {w : String} {value : Literal} (hw : isIdentifier w = true)
    (h : ∀ r, EndsWord r → Token.wordLiteral (w.toList ++ r) = .ok value r) :
    Primary w.toList (.lit ⟨0, 0⟩ value) := by
  intro r hr
  rw [primary_word hw]
  simp only [literal, here, run_bind, Outcome.andThen_ok, h r hr.word, run_pure, Outcome.or_ok]
  rfl

theorem Primary.bool (b : Bool) : Primary (Literal.bool b).text.toList (.lit ⟨0, 0⟩ (.bool b)) := by
  cases b with
  | true =>
    refine .wordLiteral (by decide) fun r hr => ?_
    simp only [Token.wordLiteral, run_orElse, run_bind]
    rw [Literal.text, keyword_append hr]
    rfl
  | false =>
    refine .wordLiteral (by decide) fun r hr => ?_
    have htrue : (keyword "true" ("false".toList ++ r)).Failed := trivial
    simp only [Token.wordLiteral, run_orElse, run_bind]
    rw [Literal.text, htrue.andThen.or, keyword_append hr]
    rfl

theorem Primary.null : Primary Literal.null.text.toList (.lit ⟨0, 0⟩ .null) := by
  refine .wordLiteral (by decide) fun r hr => ?_
  have htrue : (keyword "true" ("null".toList ++ r)).Failed := trivial
  have hfalse : (keyword "false" ("null".toList ++ r)).Failed := trivial
  simp only [Token.wordLiteral, run_orElse, run_bind]
  rw [Literal.text, htrue.andThen.or, hfalse.andThen.or, keyword_append hr]
  rfl

end QueryBlocks
