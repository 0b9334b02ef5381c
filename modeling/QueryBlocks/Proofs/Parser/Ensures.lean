import QueryBlocks.Proofs.Parser.Run

/-! What is known of a value because a parser has given it. -/
namespace QueryBlocks

variable {α β : Type}

theorem Outcome.or_eq_ok {o o' : Outcome α} {a : α} {rest : List Char} :
    o.or o' = .ok a rest ↔ o = .ok a rest ∨ o.Failed ∧ o' = .ok a rest := by
  cases o <;> simp [Outcome.or]

theorem Outcome.andThen_eq_ok {o : Outcome α} {f : α → Parser β} {b : β} {rest : List Char} :
    o.andThen f = .ok b rest ↔ ∃ a mid, o = .ok a mid ∧ f a mid = .ok b rest := by
  constructor
  · intro h
    cases o with
    | ok a mid => exact ⟨a, mid, rfl, h⟩
    | fail => cases h
    | stop => cases h
  · rintro ⟨a, mid, rfl, h⟩
    exact h

theorem Outcome.map_eq_ok {o : Outcome α} {f : α → β} {b : β} {rest : List Char} :
    o.map f = .ok b rest ↔ ∃ a, o = .ok a rest ∧ f a = b := by
  constructor
  · intro h
    cases o with
    | ok a mid =>
      cases h
      exact ⟨a, rfl, rfl⟩
    | fail => cases h
    | stop => cases h
  · rintro ⟨a, rfl, rfl⟩
    rfl

namespace Parser

theorem verify_eq_ok {p : Parser α} {good : α → Bool} {s rest : List Char} {a : α} :
    verify p good s = .ok a rest ↔ p s = .ok a rest ∧ good a = true := by
  constructor
  · intro h
    cases hs : p s with
    | ok b mid =>
      cases hb : good b with
      | true =>
        rw [verify_ok hs hb] at h
        cases h
        exact ⟨rfl, hb⟩
      | false => simp [verify, hs, hb] at h
    | fail place => simp [verify, hs] at h
    | stop place => simp [verify, hs] at h
  · rintro ⟨hs, ha⟩
    exact verify_ok hs ha

theorem notNext_eq_ok {p : Parser α} {s rest : List Char} (h : notNext p s = .ok () rest) :
    (p s).Failed ∧ rest = s := by
  cases hs : p s with
  | ok a mid => simp [notNext, hs] at h
  | fail place =>
    rw [notNext_failed (by simp [hs])] at h
    cases h
    exact ⟨trivial, rfl⟩
  | stop place => simp [notNext, hs] at h

theorem ahead_eq_ok {p : Parser α} {s rest : List Char} (h : ahead p s = .ok () rest) :
    (∃ a mid, p s = .ok a mid) ∧ rest = s := by
  obtain ⟨hfail, hrest⟩ := notNext_eq_ok h
  cases hs : p s with
  | ok a mid => exact ⟨⟨a, mid, rfl⟩, hrest⟩
  | fail place => simp [notNext, hs] at hfail
  | stop place => simp [notNext, hs] at hfail

theorem optional_eq_ok {p : Parser α} {s rest : List Char} {o : Option α}
    (h : optional p s = .ok o rest) :
    (∃ a, o = some a ∧ p s = .ok a rest) ∨ o = none ∧ rest = s ∧ (p s).Failed := by
  cases hs : p s with
  | ok a mid =>
    rw [optional_ok hs] at h
    cases h
    exact .inl ⟨a, rfl, rfl⟩
  | fail place =>
    rw [optional_failed (by simp [hs])] at h
    cases h
    exact .inr ⟨rfl, rfl, trivial⟩
  | stop place => simp [optional, hs] at h

theorem many_eq_ok {p : Parser α} {s rest : List Char} {as : List α}
    (h : many p s = .ok as rest) :
    (p s).Failed ∧ as = [] ∧ rest = s ∨
      ∃ a mid others, p s = .ok a mid ∧ mid.length < s.length ∧
        many p mid = .ok others rest ∧ as = a :: others := by
  rw [many] at h
  cases hs : p s with
  | ok a mid =>
    rw [hs] at h
    by_cases hl : mid.length < s.length
    · simp only [hl, if_true] at h
      obtain ⟨others, hothers, rfl⟩ := Outcome.map_eq_ok.mp h
      exact .inr ⟨a, mid, others, rfl, hl, hothers, rfl⟩
    · simp [hl] at h
  | fail place =>
    rw [hs] at h
    cases h
    exact .inl ⟨trivial, rfl, rfl⟩
  | stop place => simp [hs] at h

theorem extend_eq_ok {step : α → Parser (Option α)} {a b : α} {s rest : List Char}
    (h : extend step a s = .ok b rest) :
    step a s = .ok none rest ∧ b = a ∨
      ∃ c mid, step a s = .ok (some c) mid ∧ mid.length < s.length ∧
        extend step c mid = .ok b rest := by
  rw [extend] at h
  cases hs : step a s with
  | ok o mid =>
    rw [hs] at h
    cases o with
    | none =>
      cases h
      exact .inl ⟨rfl, rfl⟩
    | some c =>
      by_cases hl : mid.length < s.length
      · simp only [hl, if_true] at h
        exact .inr ⟨c, mid, rfl, hl, h⟩
      · simp [hl] at h
  | fail place => simp [hs] at h
  | stop place => simp [hs] at h

/-- Either the end was there at once, or a round was read before the others. -/
theorem manyUntil_eq_ok {done : List Char → Bool} {p : Parser α} {s rest : List Char}
    {as : List α} (h : manyUntil done p s = .ok as rest) :
    done s = true ∧ as = [] ∧ rest = s ∨
      done s = false ∧ ∃ a mid others, p s = .ok a mid ∧ mid.length < s.length ∧
        manyUntil done p mid = .ok others rest ∧ as = a :: others := by
  cases hd : done s with
  | true =>
    rw [manyUntil_done hd] at h
    cases h
    exact .inl ⟨rfl, rfl, rfl⟩
  | false =>
    right
    rw [manyUntil, if_neg (by simp [hd])] at h
    cases hs : p s with
    | ok a mid =>
      rw [hs] at h
      by_cases hl : mid.length < s.length
      · simp only [hl, if_true] at h
        obtain ⟨others, hothers, rfl⟩ := Outcome.map_eq_ok.mp h
        exact ⟨rfl, a, mid, others, rfl, hl, hothers, rfl⟩
      · simp [hl] at h
    | fail place => simp [hs] at h
    | stop place => simp [hs] at h

/-- Every value that `p` gives has the property. -/
def Ensures (p : Parser α) (P : α → Prop) : Prop := ∀ s a rest, p s = .ok a rest → P a

namespace Ensures

variable {p q : Parser α} {P Q : α → Prop} {R : β → Prop}

theorem mono (hp : Ensures p P) (h : ∀ a, P a → Q a) : Ensures p Q :=
  fun s a rest hr => h a (hp s a rest hr)

theorem anything : Ensures p fun _ => True := fun _ _ _ _ => trivial

theorem pure {a : α} (h : P a) : Ensures (Pure.pure a) P := by
  intro s b rest hr
  cases hr
  exact h

theorem fail : Ensures (Parser.fail : Parser α) P := by
  intro s a rest hr
  cases hr

theorem bind {f : α → Parser β} (hp : Ensures p P) (hf : ∀ a, P a → Ensures (f a) R) :
    Ensures (p >>= f) R := by
  intro s b rest hr
  rw [run_bind, Outcome.andThen_eq_ok] at hr
  obtain ⟨a, mid, ha, hb⟩ := hr
  exact hf a (hp s a mid ha) mid b rest hb

/-- Go on after a value of which nothing has to be known. -/
theorem after {f : α → Parser β} (hf : ∀ a, Ensures (f a) R) : Ensures (p >>= f) R :=
  anything.bind fun a _ => hf a

theorem orElse (hp : Ensures p P) (hq : Ensures q P) : Ensures (p <|> q) P := by
  intro s a rest hr
  rw [run_orElse, Outcome.or_eq_ok] at hr
  rcases hr with hr | ⟨_, hr⟩
  · exact hp s a rest hr
  · exact hq s a rest hr

theorem optional (hp : Ensures p P) : Ensures (Parser.optional p) fun o => ∀ a ∈ o, P a := by
  intro s o rest hr b hb
  rcases optional_eq_ok hr with ⟨a, rfl, ha⟩ | ⟨rfl, -, -⟩
  · cases hb
    exact hp s _ rest ha
  · cases hb

theorem verify {good : α → Bool} (hp : Ensures p P) :
    Ensures (Parser.verify p good) fun a => P a ∧ good a = true := by
  intro s a rest hr
  obtain ⟨hs, ha⟩ := verify_eq_ok.mp hr
  exact ⟨hp s a rest hs, ha⟩

theorem many (hp : Ensures p P) : Ensures (Parser.many p) fun as => ∀ a ∈ as, P a := by
  intro s
  induction hn : s.length using Nat.strongRecOn generalizing s with
  | ind n ih =>
    intro as rest hr b hb
    rcases many_eq_ok hr with ⟨-, rfl, -⟩ | ⟨a, mid, more, h, hl, hm, rfl⟩
    · cases hb
    · rcases List.mem_cons.mp hb with rfl | hb
      · exact hp s b mid h
      · exact ih mid.length (by omega) mid rfl more rest hm b hb

theorem manyUntil {done : List Char → Bool} (hp : Ensures p P) :
    Ensures (Parser.manyUntil done p) fun as => ∀ a ∈ as, P a := by
  intro s
  induction hn : s.length using Nat.strongRecOn generalizing s with
  | ind n ih =>
    intro as rest hr
    rcases manyUntil_eq_ok hr with ⟨-, rfl, -⟩ | ⟨-, a, mid, more, h, hl, hm, rfl⟩
    · intro b hb
      cases hb
    · intro b hb
      rcases List.mem_cons.mp hb with rfl | hb
      · exact hp s b mid h
      · exact ih mid.length (by omega) mid rfl more rest hm b hb

theorem extend {step : α → Parser (Option α)}
    (hstep : ∀ a, P a → Ensures (step a) fun o => ∀ b ∈ o, P b) {a : α} (ha : P a) :
    Ensures (Parser.extend step a) P := by
  intro s
  induction hn : s.length using Nat.strongRecOn generalizing s a with
  | ind n ih =>
    intro b rest hr
    rcases extend_eq_ok hr with ⟨-, rfl⟩ | ⟨c, mid, h, hl, hm⟩
    · exact ha
    · exact ih mid.length (by omega) (hstep a ha s _ mid h c rfl) mid rfl b rest hm

theorem sepBy1 {separator : Parser β} (hp : Ensures p P) :
    Ensures (Parser.sepBy1 separator p) fun as => ∀ a ∈ as, P a := by
  refine hp.bind fun first hfirst => (many (after fun _ => hp)).bind fun more hmore => ?_
  refine pure fun a ha => ?_
  rcases List.mem_cons.mp ha with rfl | ha
  · exact hfirst
  · exact hmore a ha

theorem sepBy {separator : Parser β} (hp : Ensures p P) :
    Ensures (Parser.sepBy separator p) fun as => ∀ a ∈ as, P a :=
  (sepBy1 hp).orElse (pure fun _ ha => by cases ha)

end Ensures

end Parser

end QueryBlocks
