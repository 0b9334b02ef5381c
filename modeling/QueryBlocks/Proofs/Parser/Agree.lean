import QueryBlocks.Proofs.Parser.Run
import Mathlib.Data.List.Infix

/-! Parsers that read alike. Two parsers agree on the texts shorter than a bound if they read the
same characters, and the values differ by a given function. That reading only goes forward is part
of agreement: it is what lets the bound shrink when a text inside a construct is read. A parser that
goes forward is one that agrees with itself, and each combinator keeps that. -/
namespace QueryBlocks

variable {α β γ : Type}

namespace Outcome

/-- What is left, or the place of a failure, is an end of the text; a success has read at least `k`
characters. -/
def Within (k : Nat) (s : List Char) : Outcome α → Prop
  | ok _ rest => rest <:+ s ∧ rest.length + k ≤ s.length
  | fail place | stop place => place <:+ s

variable {k l : Nat} {s rest : List Char} {o : Outcome α}

theorem Within.weaken (h : o.Within k s) (hl : l ≤ k) : o.Within l s := by
  cases o with
  | ok => exact ⟨h.1, by have := h.2; omega⟩
  | fail => exact h
  | stop => exact h

theorem Within.trans (h : o.Within l rest) (hs : rest <:+ s) (hk : rest.length + k ≤ s.length) :
    o.Within (k + l) s := by
  cases o with
  | ok => exact ⟨h.1.trans hs, by have := h.2; omega⟩
  | fail => exact List.IsSuffix.trans h hs
  | stop => exact List.IsSuffix.trans h hs

theorem Within.map {f : α → β} (h : o.Within k s) : (o.map f).Within k s := by
  cases o with
  | ok => exact h
  | fail => exact h
  | stop => exact h

end Outcome

namespace Parser

/-- On texts shorter than `n`, `q` reads what `p` reads and gives the image of its value. -/
def Agree (φ : α → β) (k n : Nat) (p : Parser α) (q : Parser β) : Prop :=
  ∀ s, s.length < n → q s = (p s).map φ ∧ (p s).Within k s

/-- Every success reads at least `k` characters, and no outcome leaves the text. -/
def Advances (k : Nat) (p : Parser α) : Prop := ∀ s, (p s).Within k s

variable {φ : α → β} {k l n : Nat} {p p' : Parser α} {q : Parser β}

theorem Advances.agree (h : Advances k p) : Agree id k n p p :=
  fun s _ => ⟨(Outcome.map_id _).symm, h s⟩

/-- A parser that agrees with others on all texts goes forward as they do. -/
theorem Agree.advances {r : Nat → Parser α} (h : ∀ n, Agree φ k (n + 1) (r n) q) :
    Advances k q := by
  intro s
  obtain ⟨hq, hw⟩ := h s.length s (Nat.lt_succ_self _)
  rw [hq]
  exact hw.map

namespace Advances

theorem weaken (h : Advances k p) (hl : l ≤ k) : Advances l p := fun s => (h s).weaken hl

theorem pure (a : α) : Advances 0 (Pure.pure a : Parser α) :=
  fun s => ⟨List.suffix_refl s, Nat.le_refl _⟩

theorem bind_add {f : α → Parser β} (hp : Advances k p) (hf : ∀ a, Advances l (f a)) :
    Advances (k + l) (p >>= f) := by
  intro s
  have hw := hp s
  rw [run_bind]
  cases h : p s with
  | ok a rest =>
    rw [h] at hw
    exact (hf a rest).trans hw.1 hw.2
  | fail place => rwa [h] at hw
  | stop place => rwa [h] at hw

theorem bind {f : α → Parser β} (hp : Advances k p) (hf : ∀ a, Advances l (f a)) :
    Advances l (p >>= f) :=
  (hp.bind_add hf).weaken (Nat.le_add_left _ _)

theorem bind_read {f : α → Parser β} (hp : Advances 1 p) (hf : ∀ a, Advances 0 (f a)) :
    Advances 1 (p >>= f) :=
  hp.bind_add hf

theorem orElse (hp : Advances k p) (hp' : Advances k p') : Advances k (p <|> p') := by
  intro s
  have hw := hp s
  rw [run_orElse]
  cases h : p s with
  | ok a rest => rwa [h] at hw
  | fail place => exact hp' s
  | stop place => rwa [h] at hw

theorem optional (hp : Advances k p) : Advances 0 (Parser.optional p) := by
  intro s
  have hw := hp s
  unfold Parser.optional
  cases h : p s with
  | ok a rest =>
    rw [h] at hw
    exact hw.weaken (Nat.zero_le k)
  | fail place => exact ⟨List.suffix_refl s, Nat.le_refl _⟩
  | stop place => rwa [h] at hw

theorem notNext (hp : Advances k p) : Advances 0 (Parser.notNext p) := by
  intro s
  have hw := hp s
  unfold Parser.notNext
  cases h : p s with
  | ok a rest => exact List.suffix_refl s
  | fail place => exact ⟨List.suffix_refl s, Nat.le_refl _⟩
  | stop place => rwa [h] at hw

theorem many (hp : Advances k p) : Advances 0 (Parser.many p) := by
  intro s
  induction hm : s.length using Nat.strong_induction_on generalizing s with
  | _ m ih =>
    have hw := hp s
    rw [Parser.many]
    cases h : p s with
    | ok a rest =>
      rw [h] at hw
      by_cases hl : rest.length < s.length
      · have hrest := ih rest.length (by omega) rest rfl
        simp only [hl, if_true]
        exact (hrest.trans (k := 0) hw.1 (by omega)).map
      · simp only [hl, if_false]
        exact List.suffix_refl s
    | fail place => exact ⟨List.suffix_refl s, Nat.le_refl _⟩
    | stop place => rwa [h] at hw

theorem sepBy1 {sep : Parser γ} (hsep : Advances l sep) (hp : Advances k p) :
    Advances k (Parser.sepBy1 sep p) := by
  have hmore : Advances 0 (Parser.many (do let _ ← sep; p)) := many (hsep.bind fun _ => hp)
  exact hp.bind_add fun first => hmore.bind fun more => pure (first :: more)

theorem sepBy {sep : Parser γ} (hsep : Advances l sep) (hp : Advances k p) :
    Advances 0 (Parser.sepBy sep p) :=
  ((sepBy1 hsep hp).weaken (Nat.zero_le _)).orElse (pure [])

theorem verify {good : α → Bool} (hp : Advances k p) : Advances k (Parser.verify p good) := by
  intro s
  have hw := hp s
  unfold Parser.verify
  cases h : p s with
  | ok a rest =>
    rw [h] at hw
    by_cases hg : good a
    · simpa [hg] using hw
    · simp only [hg]
      exact List.suffix_refl s
  | fail place => simpa [h] using hw
  | stop place => simpa [h] using hw

theorem satisfy (good : Char → Bool) : Advances 1 (Parser.satisfy good) := by
  intro s
  cases s with
  | nil => exact List.suffix_refl []
  | cons c rest =>
    by_cases hg : good c
    · simpa [Parser.satisfy, hg] using ⟨List.suffix_cons c rest, Nat.le_refl _⟩
    · simp only [Parser.satisfy, hg]
      exact List.suffix_refl (c :: rest)

theorem skipping {f : List Char → List Char} (hf : ∀ s, f s <:+ s) :
    Advances 0 (Parser.skipping f) :=
  fun s => ⟨hf s, (hf s).length_le⟩

end Advances

end Parser

end QueryBlocks
