import QueryBlocks.Script.Grammar.Expressions
import QueryBlocks.Script.Print
import QueryBlocks.Proofs.Script.Lexeme
import Mathlib.Tactic.IntervalCases

/-! What may stand behind an expression. The text behind an operand decides whether the rule that
reads it goes on, so each level of the ladder has its own condition. -/
namespace QueryBlocks

open QueryBlocks.Parser

namespace Token

variable {g : Char → Bool} {c : Char} {s : List Char}

theorem skip_nil : skip g [] = [] := by rw [skip]

theorem skip_pos (hc : g c = true) (hs : c ≠ '/') : skip g (c :: s) = skip g s := by
  rw [skip]
  · rw [if_pos hc]
  · exact fun _ h => absurd h hs
  · exact fun _ h => absurd h hs

theorem skip_neg (hc : g c = false) (hs : c ≠ '/') : skip g (c :: s) = c :: s := by
  rw [skip]
  · simp [hc]
  · exact fun _ h => absurd h hs
  · exact fun _ h => absurd h hs

theorem skip_slash (hg : g '/' = false) (hc : c ≠ '/') (hs : c ≠ '*') :
    skip g ('/' :: c :: s) = '/' :: c :: s := by
  rw [skip]
  · simp [hg]
  · intro rest _ h
    exact hc (List.cons.inj h).1
  · intro rest _ h
    exact hs (List.cons.inj h).1

theorem skip_spaces (hg : g ' ' = true) (n : Nat) :
    skip g (List.replicate n ' ' ++ s) = skip g s := by
  induction n with
  | zero => rfl
  | succ n ih => rw [List.replicate_succ, List.cons_append, skip_pos hg (by decide), ih]

theorem run_gap : gap s = .ok () (skip isGap s) := rfl

theorem run_space : space s = .ok () (skip isSpace s) := rfl

theorem run_breaks : breaks s = .ok () (skip isBreak s) := rfl

theorem isBreak_of_isGap (c : Char) (h : isGap c = true) : isBreak c = true := by
  simp [isBreak, isSpace, h]

theorem isBreak_of_isSpace (c : Char) (h : isSpace c = true) : isBreak c = true := by
  simp [isBreak, h]

/-- The text begins with something that is neither a gap nor a comment. -/
def Unspaced (s : List Char) : Prop := ∃ c t, s = c :: t ∧ isBreak c = false ∧ c ≠ '/'

theorem Unspaced.append (h : Unspaced s) (r : List Char) : Unspaced (s ++ r) := by
  obtain ⟨c, t, rfl, hc, hs⟩ := h
  exact ⟨c, t ++ r, rfl, hc, hs⟩

theorem skip_unspaced (hg : ∀ c, g c = true → isBreak c = true) (h : Unspaced s) :
    skip g s = s := by
  obtain ⟨c, t, rfl, hc, hs⟩ := h
  refine skip_neg ?_ hs
  by_contra hgc
  exact absurd (hg c (Bool.not_eq_false _ ▸ hgc)) (by simp [hc])

theorem space_cons (hc : isSpace c = false) (hs : c ≠ '/') : space (c :: s) = .ok () (c :: s) := by
  rw [run_space, skip_neg hc hs]

theorem space_unspaced (h : Unspaced s) : space s = .ok () s := by
  rw [run_space, skip_unspaced isBreak_of_isSpace h]

theorem space_blank (h : Unspaced s) : space (' ' :: s) = .ok () s := by
  rw [run_space, skip_pos (by decide) (by decide), skip_unspaced isBreak_of_isSpace h]

theorem run_gap1 (h : Unspaced s) : gap1 (' ' :: s) = .ok () s := by
  have hspace : satisfy (fun c => c == ' ' || c == '\t') (' ' :: s) = .ok ' ' s := rfl
  rw [gap1, run_bind, hspace, Outcome.andThen_ok, run_gap, skip_unspaced isBreak_of_isGap h]

theorem gap1_failed (hc : c ≠ ' ' ∧ c ≠ '\t') : (gap1 (c :: s)).Failed := by
  simp [gap1, satisfy, hc]

theorem Unspaced.of_wordChar (hc : isWordChar c = true) : Unspaced (c :: s) := by
  have hne {d : Char} (hd : isWordChar d = false) : c ≠ d := by
    rintro rfl
    rw [hc] at hd
    cases hd
  refine ⟨c, s, rfl, ?_, hne (by decide)⟩
  simp [isBreak, isSpace, isGap, hne (d := ' ') (by decide), hne (d := '\t') (by decide),
    hne (d := '\r') (by decide), hne (d := '\n') (by decide), hne (d := ';') (by decide)]

theorem Unspaced.of_identifier {w : String} (hw : isIdentifier w = true) : Unspaced w.toList := by
  obtain ⟨c, more, hwl, hc, -⟩ := isIdentifier_iff.mp hw
  rw [hwl]
  exact .of_wordChar (isWordChar_of_isWordStart hc)

theorem Unspaced.of_qualified {type : String} (ht : IsQualified type) : Unspaced type.toList := by
  obtain ⟨first, more, rfl, hfirst, -⟩ := ht
  rw [toList_intercalate_cons]
  exact (of_identifier hfirst).append _

/-- The operators of each strength, and none outside the ladder. -/
def opAt : Nat → Parser BinOp
  | 1 => assignOp
  | 2 => orOp
  | 3 => andOp
  | 4 => equalityOp
  | 5 => relationOp
  | 6 => shiftOp
  | 7 => sumOp
  | 8 => productOp
  | _ => fail

/-- There are operators of eight strengths. -/
theorem opAt_failed {k j : Nat} (h : ∀ i < 9, k ≤ i → (opAt i s).Failed) (hj : k ≤ j) :
    (opAt j s).Failed := by
  rcases Nat.lt_or_ge j 9 with hlt | hge
  · exact h j hlt hj
  · obtain ⟨j, rfl⟩ := Nat.exists_eq_add_of_le' hge
    trivial

/-- A written operator is read at its own strength. -/
theorem opAt_token {op : BinOp} (hop : op ≠ .index) :
    opAt op.strength (op.token.toList ++ ' ' :: s) = .ok op (' ' :: s) := by
  cases op with
  | index => exact absurd rfl hop
  | _ => rfl

/-- It is not read at any tighter level. -/
theorem opAt_tighter {op : BinOp} {j : Nat} (hj : op.strength < j) :
    (opAt j (op.token.toList ++ ' ' :: s)).Failed := by
  rcases Nat.lt_or_ge j 9 with h | h
  · cases op <;> simp only [BinOp.strength] at hj <;> interval_cases j <;> trivial
  · obtain ⟨j, rfl⟩ := Nat.exists_eq_add_of_le' h
    trivial

theorem skip_token {op : BinOp} (hg : ∀ c, g c = true → isBreak c = true) :
    skip g (op.token.toList ++ ' ' :: s) = op.token.toList ++ ' ' :: s := by
  cases op with
  | div =>
    refine skip_slash ?_ (by decide) (by decide)
    by_contra h
    exact absurd (hg '/' (Bool.not_eq_false _ ▸ h)) (by decide)
  | _ => exact skip_unspaced hg ⟨_, _, rfl, by decide, by decide⟩

theorem skip_operator {op : BinOp} (hg : ∀ c, g c = true → isBreak c = true) (hs : g ' ' = true) :
    skip g (' ' :: (op.token.toList ++ ' ' :: s)) = op.token.toList ++ ' ' :: s := by
  rw [skip_pos hs (by decide), skip_token hg]

end Token

open QueryBlocks.Token

/-- No rule for operands of strength `k` or more goes on here: neither the word before it, nor a
call of it, nor a number, nor, where `k` admits them, a type, a suffix or an operator. -/
structure Follows (k : Nat) (r : List Char) : Prop where
  word : EndsWord r
  call : ∀ c ∈ (skip isGap r).head?, c ≠ '(' ∧ c ≠ '\x7b'
  fraction : ∀ c s, r = '.' :: c :: s → c.isDigit = false
  segment : k ≤ 11 → r.head? ≠ some '.'
  member : k ≤ 10 → (Rules.dot r).Failed
  index : k ≤ 10 → r.head? ≠ some '['
  cast : k ≤ 10 → (Rules.castWord r).Failed
  operator : ∀ j, k ≤ j → ((do gap; opAt j : Parser BinOp) r).Failed

namespace Follows

variable {k l : Nat} {c : Char} {r s : List Char}

theorem mono (h : Follows k r) (hl : k ≤ l) : Follows l r where
  word := h.word
  call := h.call
  fraction := h.fraction
  segment hk := h.segment (hl.trans hk)
  member hk := h.member (hl.trans hk)
  index hk := h.index (hl.trans hk)
  cast hk := h.cast (hl.trans hk)
  operator j hj := h.operator j (hl.trans hj)

theorem dot_failed (h : (skip isSpace r).head? ≠ some '.') : (Rules.dot r).Failed := by
  rw [Rules.dot, run_bind, run_space, Outcome.andThen_ok, run_bind]
  exact (char_failed h).andThen

theorem operator_failed {j : Nat} (h : (opAt j (skip isGap r)).Failed) :
    ((do gap; opAt j : Parser BinOp) r).Failed := by
  rw [run_bind, run_gap, Outcome.andThen_ok]
  exact h

theorem castWord_failed (h : (keyword "as" (skip isGap r)).Failed) :
    (Rules.castWord r).Failed := by
  rw [Rules.castWord, run_bind, run_gap, Outcome.andThen_ok, run_bind]
  exact h.andThen

/-- A closing bracket, a comma or a newline ends every expression, unless a dot is the first thing
on the lines below. -/
theorem of_stop (hc : c = ')' ∨ c = ']' ∨ c = ',' ∨ c = '\n')
    (hdot : (skip isSpace (c :: s)).head? ≠ some '.') : Follows k (c :: s) := by
  have hgap : skip isGap (c :: s) = c :: s := by
    rcases hc with rfl | rfl | rfl | rfl <;> exact skip_neg (by decide) (by decide)
  have hword : EndsWord (c :: s) := by
    rcases hc with rfl | rfl | rfl | rfl <;> exact endsWord_cons.mpr (by decide)
  have hne {d : Char} (hd : d ≠ ')' ∧ d ≠ ']' ∧ d ≠ ',' ∧ d ≠ '\n') : c ≠ d := by
    rintro rfl
    rcases hc with h | h | h | h
    · exact hd.1 h
    · exact hd.2.1 h
    · exact hd.2.2.1 h
    · exact hd.2.2.2 h
  refine ⟨hword, ?_, fun d t h => ?_, fun _ h => ?_, fun _ => dot_failed hdot, fun _ h => ?_,
    fun _ => castWord_failed ?_, fun j _ => operator_failed ?_⟩
  · rw [hgap]
    intro d hd
    cases hd
    exact ⟨hne (by decide), hne (by decide)⟩
  · exact absurd (List.cons.inj h).1 (hne (by decide))
  · exact absurd (Option.some.inj h) (hne (by decide))
  · exact absurd (Option.some.inj h) (hne (by decide))
  · rw [hgap]
    exact keyword_symbol (d := 'a') rfl (hne (by decide))
  · rw [hgap]
    refine opAt_failed (fun i hi _ => ?_) (Nat.zero_le j)
    rcases hc with rfl | rfl | rfl | rfl <;> interval_cases i <;> trivial

theorem of_close (hc : c = ')' ∨ c = ']' ∨ c = ',') : Follows k (c :: s) := by
  refine of_stop (by tauto) ?_
  rcases hc with rfl | rfl | rfl <;> rw [skip_neg (by decide) (by decide)] <;> simp

/-- The end of the text ends every expression. -/
theorem nil : Follows k [] := by
  refine ⟨endsWord_nil, ?_, fun _ _ h => (nomatch h), fun _ h => (nomatch h),
    fun _ => dot_failed ?_, fun _ h => (nomatch h), fun _ => castWord_failed ?_,
    fun j _ => operator_failed ?_⟩
  · rw [skip_nil]
    intro c hc
    cases hc
  · rw [skip_nil]
    intro h
    cases h
  · rw [skip_nil]
    trivial
  · rw [skip_nil]
    refine opAt_failed (fun i hi _ => ?_) (Nat.zero_le j)
    interval_cases i <;> trivial

theorem of_operator {op : BinOp} (hop : op ≠ .index) :
    Follows (op.strength + 1) (' ' :: (op.token.toList ++ ' ' :: s)) := by
  have hgap : skip isGap (' ' :: (op.token.toList ++ ' ' :: s)) = op.token.toList ++ ' ' :: s :=
    skip_operator isBreak_of_isGap (by decide)
  refine ⟨endsWord_cons.mpr (by decide), ?_, fun _ _ h => ?_, fun _ => by simp,
    fun _ => dot_failed ?_, fun _ => by simp, fun _ => castWord_failed ?_,
    fun j hj => operator_failed ?_⟩
  · rw [hgap]
    intro c hc
    cases op with
    | index => exact absurd rfl hop
    | _ => cases hc; decide
  · cases h
  · rw [skip_operator isBreak_of_isSpace (by decide)]
    cases op <;> simp [BinOp.token]
  · rw [hgap]
    cases op <;> trivial
  · rw [hgap]
    exact opAt_tighter hj

/-- Behind the first operand of a cast. -/
theorem of_cast : Follows 11 (' ' :: 'a' :: 's' :: ' ' :: s) := by
  have hgap : skip isGap (' ' :: 'a' :: 's' :: ' ' :: s) = 'a' :: 's' :: ' ' :: s := by
    rw [skip_pos (by decide) (by decide), skip_neg (by decide) (by decide)]
  refine ⟨endsWord_cons.mpr (by decide), ?_, fun _ _ h => ?_, fun _ => by simp,
    fun h => absurd h (by decide), fun h => absurd h (by decide), fun h => absurd h (by decide),
    fun j hj => operator_failed ?_⟩
  · rw [hgap]
    intro c hc
    cases hc
    decide
  · cases h
  · obtain ⟨j, rfl⟩ := Nat.exists_eq_add_of_le' hj
    trivial

/-- Behind the object of a member or of an index. -/
theorem of_suffix (hc : c = '.' ∨ c = '[')
    (hs : c = '.' → ∀ d ∈ s.head?, d.isDigit = false) : Follows 12 (c :: s) := by
  have hgap : skip isGap (c :: s) = c :: s := by
    rcases hc with rfl | rfl <;> exact skip_neg (by decide) (by decide)
  refine ⟨?_, ?_, fun d t h => ?_, fun h => absurd h (by decide),
    fun h => absurd h (by decide), fun h => absurd h (by decide), fun h => absurd h (by decide),
    fun j hj => operator_failed ?_⟩
  · rcases hc with rfl | rfl <;> exact endsWord_cons.mpr (by decide)
  · rw [hgap]
    intro d hd
    cases hd
    rcases hc with rfl | rfl <;> decide
  · cases h
    exact hs rfl d rfl
  · obtain ⟨j, rfl⟩ := Nat.exists_eq_add_of_le' hj
    trivial

end Follows

end QueryBlocks
