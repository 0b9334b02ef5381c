import QueryBlocks.Proofs.Script.RoundTrip

/-!
Expressions without closures. They hold no statements, so nothing depends on which types may be
declared: every tree that is spelled as the lexical rules want it is read back from its text.
-/
namespace QueryBlocks

open QueryBlocks.Parser QueryBlocks.Token QueryBlocks.Rules

mutual

/-- No closure stands anywhere in the expression. -/
def Expr.isClosureFree : Expr → Bool
  | .var .. | .lit .. => true
  | .member _ object _ => object.isClosureFree
  | .call _ none _ args => Expr.allClosureFree args
  | .call _ (some receiver) _ args => receiver.isClosureFree && Expr.allClosureFree args
  | .construct _ _ args => Expr.allClosureFree args
  | .cast _ value _ => value.isClosureFree
  | .binary _ left _ right => left.isClosureFree && right.isClosureFree
  | .not _ e | .negate _ e | .spread _ e => e.isClosureFree
  | .list _ items => Expr.allClosureFree items
  | .closure .. => false

def Expr.allClosureFree : List Expr → Bool
  | [] => true
  | e :: more => e.isClosureFree && Expr.allClosureFree more

end

section

variable {typeOk other : String → Prop}

-- Declarations stand inside closures only, so the condition on their types may be any other.
mutual

theorem Expr.Valid.of_closureFree : ∀ {e : Expr}, e.Valid typeOk → e.isClosureFree = true →
    e.Valid other
  | .var .., h, _ => h
  | .lit .., h, _ => h
  | .member .., h, hf => ⟨h.1.of_closureFree hf, h.2⟩
  | .call _ none .., h, hf => ⟨h.1, Expr.ValidAll.of_closureFree h.2 hf⟩
  | .call _ (some _) .., h, hf =>
    have hf := Bool.and_eq_true_iff.mp hf
    ⟨h.1.of_closureFree hf.1, h.2.1, Expr.ValidAll.of_closureFree h.2.2 hf.2⟩
  | .construct .., h, hf => ⟨h.1, Expr.ValidAll.of_closureFree h.2 hf⟩
  | .cast .., h, hf => ⟨h.1.of_closureFree hf, h.2⟩
  | .binary .., h, hf =>
    have hf := Bool.and_eq_true_iff.mp hf
    ⟨h.1.of_closureFree hf.1, h.2.of_closureFree hf.2⟩
  | .not _ e, h, hf => Expr.Valid.of_closureFree (e := e) h hf
  | .negate .., h, hf => ⟨h.1.of_closureFree hf, h.2⟩
  | .list _ items, h, hf => @Expr.ValidAll.of_closureFree items h hf

theorem Expr.ValidAll.of_closureFree : ∀ {es : List Expr}, Expr.ValidAll typeOk es →
    Expr.allClosureFree es = true → Expr.ValidAll other es
  | [], _, _ => trivial
  | e :: es, h, hf => by
    have hf := Bool.and_eq_true_iff.mp hf
    cases e with
    | spread _ e =>
      exact ⟨Expr.Valid.of_closureFree h.1 hf.1, Expr.ValidAll.of_closureFree h.2 hf.2⟩
    | _ => exact ⟨Expr.Valid.of_closureFree h.1 hf.1, Expr.ValidAll.of_closureFree h.2 hf.2⟩

end

end

/-! ### Reading an expression on its own -/

theorem toNat_of_isWordChar {c : Char} (hc : isWordChar c = true) :
    33 ≤ c.toNat ∧ c.toNat ≤ 126 := by
  rw [isWordChar] at hc
  change (((decide ('A'.val ≤ c.val ∧ c.val ≤ 'Z'.val) ||
    (decide ('a'.val ≤ c.val) && decide (c.val ≤ 'z'.val))) ||
    (decide ('0'.val ≤ c.val) && decide (c.val ≤ '9'.val))) || c == '_' || c == '$') = true at hc
  simp only [Bool.or_eq_true, Bool.and_eq_true, decide_eq_true_eq, beq_iff_eq,
    UInt32.le_iff_toNat_le] at hc
  change ((((65 ≤ c.toNat ∧ c.toNat ≤ 90) ∨ (97 ≤ c.toNat ∧ c.toNat ≤ 122)) ∨
    (48 ≤ c.toNat ∧ c.toNat ≤ 57)) ∨ c = '_') ∨ c = '$' at hc
  rcases hc with (hc | rfl) | rfl
  · omega
  · decide
  · decide

theorem toNat_of_isOpening {c : Char} (hc : isOpening c = true) : 33 ≤ c.toNat ∧ c.toNat ≤ 126 := by
  rw [isOpening, Bool.or_eq_true] at hc
  rcases hc with hc | hc
  · exact toNat_of_isWordChar hc
  · simp only [List.contains_eq_mem, List.mem_cons, List.not_mem_nil, or_false,
      decide_eq_true_eq] at hc
    rcases hc with rfl | rfl | rfl | rfl | rfl | rfl <;> decide

/-- No expression begins with white space, of Unicode or other. -/
theorem not_isBlank_of_isOpening {c : Char} (hc : isOpening c = true) : Text.isBlank c = false := by
  obtain ⟨hlo, hhi⟩ := toNat_of_isOpening hc
  simp only [Text.isBlank, Bool.or_eq_false_iff, Bool.and_eq_false_iff, decide_eq_false_iff_not,
    beq_eq_false_iff_ne]
  omega

theorem Begins.trimStart_eq {k : Nat} {t : List Char} (h : Begins k t) : Text.trimStart t = t := by
  obtain ⟨c, s, rfl, hc, -⟩ := h
  rw [Text.trimStart, List.dropWhile_cons, not_isBlank_of_isOpening hc]
  rfl

theorem Expr.read_text {e : Expr} (he : e.Valid Declarable) :
    ∃ again, Expr.read e.text = .ok again ∧ again.bare = e.bare := by
  have hspelled : Spelled 0 e := spelled_expr 0 he
  have hrun : Rules.bare.assignment e.text.toList = .ok e.bare [] := by
    have h := hspelled.whole [] Follows.nil
    rwa [List.append_nil] at h
  have htrim : Text.trimStart (Source.ofString e.text).text = (Source.ofString e.text).text :=
    hspelled.begins.trimStart_eq
  rw [Expr.read]
  simp only [htrim]
  exact finish_of_bare (agree_bare _ _).assignment hrun

/-- An expression without closures is read back from its text, and only places differ. -/
theorem Expr.closureFree_reads_back {typeOk : String → Prop} {e : Expr} (hvalid : e.Valid typeOk)
    (hfree : e.isClosureFree = true) :
    ∃ again, Expr.read e.text = .ok again ∧ again.same e = true := by
  obtain ⟨again, hread, hbare⟩ := Expr.read_text (hvalid.of_closureFree hfree)
  exact ⟨again, hread, Expr.same_of_bare_eq hbare⟩

/-- `-(a + -1) = (x as b.C).in(*["\n"], !y[--1.5])` -/
def nestedOperators : Expr :=
  let p : Position := ⟨1, 1⟩
  .binary p (.negate p (.binary p (.var p "a") .add (.lit p (.int (-1))))) .assign
    (.call p (some (.cast p (.var p "x") "b.C")) "in"
      [.spread p (.list p [.lit p (.string "\n")]),
        .not p (.binary p (.var p "y") .index (.lit p (.decimal "--1.5")))])

theorem Expr.closureFree_reads_back_nested :
    nestedOperators.Valid (fun _ => False) ∧ nestedOperators.isClosureFree = true ∧
      ∃ again, Expr.read nestedOperators.text = .ok again ∧ again.same nestedOperators = true := by
  have hvalid : nestedOperators.Valid fun _ => False := by
    have htype : IsQualified "b.C" := ⟨"b", ["C"], by decide, by decide, by decide⟩
    have hdecimal : (Literal.decimal "--1.5").Valid :=
      ⟨2, ['1'], ['5'], by decide, by decide, by decide, by decide, by decide⟩
    have hname : isName "a" = true ∧ isName "x" = true ∧ isName "y" = true := by decide
    have hint : (-1 : Int).natAbs ≤ maxInt := by decide
    exact ⟨⟨⟨hname.1, hint⟩, rfl⟩, ⟨hname.2.1, htype⟩, by decide, ⟨trivial, trivial⟩,
      ⟨hname.2.2, hdecimal⟩, trivial⟩
  have hfree : nestedOperators.isClosureFree = true := by decide
  exact ⟨hvalid, hfree, Expr.closureFree_reads_back hvalid hfree⟩

end QueryBlocks
