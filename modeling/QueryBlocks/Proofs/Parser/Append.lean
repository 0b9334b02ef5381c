import QueryBlocks.Proofs.Parser.Agree
import QueryBlocks.Proofs.Parser.Ensures

/-!
Reading a text with more behind it. A parser is firm if what comes behind makes no difference to it.
Other parsers look for a continuation of what they have read; their successes carry over if the rest
that they leave does not invite one.
-/
namespace QueryBlocks

variable {α β : Type}

namespace Outcome

theorem failed_andThen {o : Outcome α} {f : α → Parser β} :
    (o.andThen f).Failed ↔ o.Failed ∨ ∃ a mid, o = .ok a mid ∧ (f a mid).Failed := by
  cases o <;> simp [andThen]

theorem failed_or {o o' : Outcome α} : (o.or o').Failed ↔ o.Failed ∧ o'.Failed := by
  cases o <;> simp [Outcome.or]

theorem failed_map {f : α → β} {o : Outcome α} : (o.map f).Failed ↔ o.Failed := by
  cases o <;> simp

end Outcome

namespace Parser

/-- With `more` behind the text, `p` reads the same and fails in the same places. -/
structure Firm (more : List Char) (p : Parser α) : Prop where
  ok : ∀ {s a rest}, p s = .ok a rest → p (s ++ more) = .ok a (rest ++ more)
  failed : ∀ {s}, (p s).Failed → (p (s ++ more)).Failed

/-- What `p` reads from a text shorter than `n` is read with `more` behind it, if `C` holds of the
rest. -/
def Carries (more : List Char) (n : Nat) (C : List Char → Prop) (p : Parser α) : Prop :=
  ∀ ⦃s a rest⦄, s.length < n → p s = .ok a rest → C rest → p (s ++ more) = .ok a (rest ++ more)

variable {more : List Char} {n : Nat} {C D : List Char → Prop} {p q : Parser α}
  {f : α → Parser β}

theorem not_failed_optional {s : List Char} : ¬ (Parser.optional p s).Failed := by
  unfold Parser.optional
  split <;> exact id

theorem failed_of_bind_pure {s : List Char} (hf : ∀ a, ∃ b, f a = Pure.pure b)
    (h : ((p >>= f) s).Failed) : (p s).Failed := by
  rw [run_bind, Outcome.failed_andThen] at h
  rcases h with h | ⟨a, mid, -, h⟩
  · exact h
  · obtain ⟨b, hb⟩ := hf a
    rw [hb] at h
    exact h.elim

theorem length_lt_append {s rest : List Char} (h : rest.length < s.length) (more : List Char) :
    (rest ++ more).length < (s ++ more).length := by
  simp only [List.length_append]
  omega

namespace Firm

theorem pure (a : α) : Firm more (Pure.pure a : Parser α) where
  ok h := by
    cases h
    rfl
  failed h := h.elim

theorem bind (hp : Firm more p) (hf : ∀ a, Firm more (f a)) : Firm more (p >>= f) where
  ok {s b rest} h := by
    rw [run_bind, Outcome.andThen_eq_ok] at h
    obtain ⟨a, mid, ha, hb⟩ := h
    rw [run_bind, hp.ok ha]
    exact (hf a).ok hb
  failed {s} h := by
    rw [run_bind, Outcome.failed_andThen] at h
    rw [run_bind]
    rcases h with h | ⟨a, mid, ha, hb⟩
    · exact (hp.failed h).andThen
    · rw [hp.ok ha]
      exact (hf a).failed hb

theorem orElse (hp : Firm more p) (hq : Firm more q) : Firm more (p <|> q) where
  ok {s a rest} h := by
    rw [run_orElse, Outcome.or_eq_ok] at h
    rw [run_orElse]
    rcases h with h | ⟨hfail, h⟩
    · rw [hp.ok h]
      rfl
    · rw [(hp.failed hfail).or]
      exact hq.ok h
  failed {s} h := by
    rw [run_orElse, Outcome.failed_or] at h
    rw [run_orElse, (hp.failed h.1).or]
    exact hq.failed h.2

theorem optional (hp : Firm more p) : Firm more (Parser.optional p) where
  ok {s o rest} h := by
    rcases optional_eq_ok h with ⟨a, rfl, ha⟩ | ⟨rfl, rfl, hfail⟩
    · exact optional_ok (hp.ok ha)
    · exact optional_failed (hp.failed hfail)
  failed h := absurd h not_failed_optional

theorem notNext (hp : Firm more p) : Firm more (Parser.notNext p) where
  ok {s o rest} h := by
    obtain ⟨hfail, rfl⟩ := notNext_eq_ok h
    exact notNext_failed (hp.failed hfail)
  failed {s} h := by
    cases hs : p s with
    | ok a mid => simp [Parser.notNext, hp.ok hs]
    | fail place => simp [Parser.notNext, hs] at h
    | stop place => simp [Parser.notNext, hs] at h

theorem ahead (hp : Firm more p) : Firm more (Parser.ahead p) := hp.notNext.notNext

theorem verify {good : α → Bool} (hp : Firm more p) : Firm more (Parser.verify p good) where
  ok {s a rest} h := by
    obtain ⟨hs, ha⟩ := verify_eq_ok.mp h
    exact verify_ok (hp.ok hs) ha
  failed {s} h := by
    cases hs : p s with
    | ok b mid =>
      cases hb : good b with
      | true => simp [Parser.verify, hs, hb] at h
      | false => exact verify_refused (hp.ok hs) hb
    | fail place => exact verify_failed (hp.failed (by simp [hs]))
    | stop place => simp [Parser.verify, hs] at h

theorem satisfy {good : Char → Bool} (hgood : ∀ c ∈ more.head?, good c = false) :
    Firm more (Parser.satisfy good) where
  ok {s c rest} h := by
    cases s with
    | nil => cases h
    | cons d s =>
      cases hd : good d with
      | true =>
        simp only [Parser.satisfy, hd, if_true] at h
        cases h
        simp [Parser.satisfy, hd]
      | false => simp [Parser.satisfy, hd] at h
  failed {s} h := by
    cases s with
    | nil =>
      cases more with
      | nil => trivial
      | cons d more => simp [Parser.satisfy, hgood d rfl]
    | cons d s =>
      cases hd : good d with
      | true => simp [Parser.satisfy, hd] at h
      | false => simp [Parser.satisfy, hd]

theorem many (hp : Firm more p) : Firm more (Parser.many p) := by
  -- both halves go round by round, and every round shortens the text with `more` as without it
  have hround (s : List Char) : (∀ as rest, Parser.many p s = .ok as rest →
      Parser.many p (s ++ more) = .ok as (rest ++ more)) ∧
      ((Parser.many p s).Failed → (Parser.many p (s ++ more)).Failed) := by
    induction hn : s.length using Nat.strongRecOn generalizing s with
    | ind n ih =>
      cases hs : p s with
      | ok a mid =>
        by_cases hl : mid.length < s.length
        · obtain ⟨hok, hfail⟩ := ih mid.length (by omega) mid rfl
          rw [many_ok hs hl, many_ok (hp.ok hs) (length_lt_append hl more)]
          constructor
          · intro as rest h
            obtain ⟨others, hothers, rfl⟩ := Outcome.map_eq_ok.mp h
            rw [hok others rest hothers]
            rfl
          · intro h
            exact (hfail (Outcome.failed_map.mp h)).map
        · have hlong : ¬ (mid ++ more).length < (s ++ more).length := by
            simp only [List.length_append]
            omega
          constructor
          · intro as rest h
            rw [Parser.many, hs] at h
            simp [hl] at h
          · intro _
            rw [Parser.many, hp.ok hs]
            simp only [if_neg hlong]
            trivial
      | fail place =>
        have hfail : (p s).Failed := by simp [hs]
        rw [many_failed hfail, many_failed (hp.failed hfail)]
        constructor
        · intro as rest h
          cases h
          rfl
        · exact id
      | stop place =>
        have hstop : Parser.many p s = .stop place := by rw [Parser.many, hs]
        rw [hstop]
        constructor
        · intro as rest h
          cases h
        · intro h
          exact h.elim
  exact ⟨fun h => (hround _).1 _ _ h, fun h => (hround _).2 h⟩

theorem carries (hp : Firm more p) : Carries more n C p := fun _ _ _ _ h _ => hp.ok h

end Firm

/-- Reading only goes forward, so a bound on the text is one on the rest. -/
theorem Advances.length_le {k : Nat} {s rest : List Char} {a : α} (hp : Advances k p)
    (h : p s = .ok a rest) : rest.length + k ≤ s.length := by
  have hwithin := hp s
  rw [h] at hwithin
  exact hwithin.2

namespace Carries

theorem zero : Carries more 0 C p := fun _ _ _ h => absurd h (Nat.not_lt_zero _)

theorem mono (h : Carries more n C p) (hC : ∀ s, D s → C s) : Carries more n D p :=
  fun _ _ _ hn hs hD => h hn hs (hC _ hD)

theorem pure (a : α) : Carries more n C (Pure.pure a : Parser α) := (Firm.pure a).carries

/-- What goes on behind `p` has to show that the condition of `p` held there. It has to be carried
over only on texts that are shorter by what `p` reads. -/
theorem bind_bounded {k m : Nat} (hp : Carries more n D p) (hadvance : Advances k p)
    (hbound : n ≤ m + k) (hf : ∀ a, Carries more m C (f a))
    (hmid : ∀ a mid b rest, f a mid = .ok b rest → C rest → D mid) :
    Carries more n C (p >>= f) := by
  intro s b rest hn h hC
  rw [run_bind, Outcome.andThen_eq_ok] at h
  obtain ⟨a, mid, ha, hb⟩ := h
  have hlen := hadvance.length_le ha
  rw [run_bind, hp hn ha (hmid a mid b rest hb hC)]
  exact hf a (by omega) hb hC

theorem bind {k : Nat} (hp : Carries more n D p) (hadvance : Advances k p)
    (hf : ∀ a, Carries more n C (f a))
    (hmid : ∀ a mid b rest, f a mid = .ok b rest → C rest → D mid) :
    Carries more n C (p >>= f) :=
  hp.bind_bounded hadvance (Nat.le_add_right n k) hf hmid

theorem bind_read (hp : Carries more (n + 1) D p) (hadvance : Advances 1 p)
    (hf : ∀ a, Carries more n C (f a))
    (hmid : ∀ a mid b rest, f a mid = .ok b rest → C rest → D mid) :
    Carries more (n + 1) C (p >>= f) :=
  hp.bind_bounded hadvance (Nat.le_refl _) hf hmid

theorem bind_firm {k : Nat} (hp : Firm more p) (hadvance : Advances k p)
    (hf : ∀ a, Carries more n C (f a)) : Carries more n C (p >>= f) :=
  bind (D := fun _ => True) hp.carries hadvance hf fun _ _ _ _ _ _ => trivial

theorem bind_firm_read (hp : Firm more p) (hadvance : Advances 1 p)
    (hf : ∀ a, Carries more n C (f a)) : Carries more (n + 1) C (p >>= f) :=
  bind_read (D := fun _ => True) hp.carries hadvance hf fun _ _ _ _ _ _ => trivial

/-- Only a value is made of what `p` has read. -/
theorem bind_pure (hp : Carries more n C p) (hf : ∀ a, ∃ b, f a = Pure.pure b) :
    Carries more n C (p >>= f) := by
  intro s b rest hn h hC
  rw [run_bind, Outcome.andThen_eq_ok] at h
  obtain ⟨a, mid, ha, hb⟩ := h
  obtain ⟨b', hb'⟩ := hf a
  rw [hb'] at hb
  cases hb
  rw [run_bind, hp hn ha hC, Outcome.andThen_ok, hb']
  rfl

theorem restrict {m : Nat} (h : Carries more n C p) (hm : m ≤ n) : Carries more m C p :=
  fun _ _ _ hs => h (Nat.lt_of_lt_of_le hs hm)

/-- The alternative that is taken must not be barred by an earlier one that could go on. -/
theorem orElse (hp : Carries more n C p) (hq : Carries more n C q)
    (hbar : ∀ s a rest, s.length < n → (p s).Failed → q s = .ok a rest → C rest →
      (p (s ++ more)).Failed) :
    Carries more n C (p <|> q) := by
  intro s a rest hn h hC
  rw [run_orElse, Outcome.or_eq_ok] at h
  rw [run_orElse]
  rcases h with h | ⟨hfail, h⟩
  · rw [hp hn h hC]
    rfl
  · rw [(hbar s a rest hn hfail h hC).or]
    exact hq hn h hC

theorem optional (hp : Carries more n C p)
    (hstop : ∀ s, C s → (p s).Failed → (p (s ++ more)).Failed) :
    Carries more n C (Parser.optional p) := by
  intro s o rest hn h hC
  rcases optional_eq_ok h with ⟨a, rfl, ha⟩ | ⟨rfl, rfl, hfail⟩
  · exact optional_ok (hp hn ha hC)
  · exact optional_failed (hstop _ hC hfail)

/-- A part that may be left out. Where it was, it must not be found with `more` behind. -/
theorem optional_bounded {k m : Nat} {f : Option α → Parser β} (hp : Carries more n D p)
    (hadvance : Advances k p) (hbound : n ≤ m + k) (hsome : ∀ a, Carries more m C (f (some a)))
    (hnone : Carries more n C (f none))
    (hmid : ∀ a mid b rest, f (some a) mid = .ok b rest → C rest → D mid)
    (hstop : ∀ s b rest, (p s).Failed → f none s = .ok b rest → C rest → (p (s ++ more)).Failed) :
    Carries more n C (Parser.optional p >>= f) := by
  intro s b rest hn h hC
  rw [run_bind, Outcome.andThen_eq_ok] at h
  obtain ⟨o, mid, ho, hb⟩ := h
  rw [run_bind]
  rcases optional_eq_ok ho with ⟨a, rfl, ha⟩ | ⟨rfl, rfl, hfail⟩
  · have hlen := hadvance.length_le ha
    rw [optional_ok (hp hn ha (hmid a mid b rest hb hC))]
    exact hsome a (by omega) hb hC
  · rw [optional_failed (hstop _ b rest hfail hb hC)]
    exact hnone hn hb hC

theorem optional_bind {k : Nat} {f : Option α → Parser β} (hp : Carries more n D p)
    (hadvance : Advances k p) (hsome : ∀ a, Carries more n C (f (some a)))
    (hnone : Carries more n C (f none))
    (hmid : ∀ a mid b rest, f (some a) mid = .ok b rest → C rest → D mid)
    (hstop : ∀ s b rest, (p s).Failed → f none s = .ok b rest → C rest → (p (s ++ more)).Failed) :
    Carries more n C (Parser.optional p >>= f) :=
  hp.optional_bounded hadvance (Nat.le_add_right n k) hsome hnone hmid hstop

theorem optional_read {f : Option α → Parser β} (hp : Firm more p) (hadvance : Advances 1 p)
    (hsome : ∀ a, Carries more n C (f (some a))) (hnone : Carries more (n + 1) C (f none)) :
    Carries more (n + 1) C (Parser.optional p >>= f) :=
  optional_bounded (D := fun _ => True) hp.carries hadvance (Nat.le_refl _) hsome hnone
    (fun _ _ _ _ _ _ => trivial) fun _ _ _ hfail _ _ => hp.failed hfail

/-- Where a repetition begins, a round of it begins or all of them have ended. -/
theorem start_of_many {s rest : List Char} {as : List α}
    (hstart : ∀ s a rest, p s = .ok a rest → D s) (hend : ∀ s, C s → D s)
    (h : Parser.many p s = .ok as rest) (hC : C rest) : D s := by
  rcases many_eq_ok h with ⟨-, -, rfl⟩ | ⟨a, mid, -, ha, -⟩
  · exact hend _ hC
  · exact hstart s a mid ha

/-- A parser that is read as often as possible. The condition `D` of one round holds where the next
one begins and where the last one ended. -/
theorem many (hp : Carries more n D p) (hstart : ∀ s a rest, p s = .ok a rest → D s)
    (hend : ∀ s, C s → D s) (hstop : ∀ s, C s → (p s).Failed → (p (s ++ more)).Failed) :
    Carries more n C (Parser.many p) := by
  intro s as rest
  induction hn : s.length using Nat.strongRecOn generalizing s as with
  | ind k ih =>
    intro hlt h hC
    rcases many_eq_ok h with ⟨hfail, rfl, rfl⟩ | ⟨a, mid, others, ha, hl, hothers, rfl⟩
    · exact many_failed (hstop _ hC hfail)
    · have hmid : D mid := start_of_many hstart hend hothers hC
      rw [many_ok (hp (hn ▸ hlt) ha hmid) (length_lt_append hl more),
        ih mid.length (by omega) rfl (by omega) hothers hC]
      rfl

section separated

variable {k : Nat} {separator : Parser β} (hp : Carries more n D p) (hadvance : Advances k p)
  (hsep : Carries more n D (do let _ ← separator; p))
  (hstart : ∀ s a rest, (do let _ ← separator; p : Parser α) s = .ok a rest → D s)
  (hend : ∀ s, C s → D s)
  (hstop : ∀ s, C s → ((do let _ ← separator; p : Parser α) (s ++ more)).Failed)

include hp hadvance hsep hstart hend hstop

theorem sepBy1 : Carries more n C (Parser.sepBy1 separator p) := by
  refine hp.bind hadvance (fun first => ?_) fun first mid b rest h hC => ?_
  · exact (hsep.many hstart hend fun s hC _ => hstop s hC).bind_pure fun others => ⟨_, rfl⟩
  · rw [run_bind, Outcome.andThen_eq_ok] at h
    obtain ⟨others, mid', hothers, hb⟩ := h
    cases hb
    exact start_of_many hstart hend hothers hC

theorem sepBy (hempty : ∀ s, C s → (p (s ++ more)).Failed) :
    Carries more n C (Parser.sepBy separator p) := by
  refine (sepBy1 hp hadvance hsep hstart hend hstop).orElse (.pure []) ?_
  intro s a rest _ _ h hC
  cases h
  rw [Parser.sepBy1, run_bind]
  exact (hempty s hC).andThen

end separated

section extend

variable {step : α → Parser (Option α)} (hstep : ∀ a, Carries more n C (step a))
  (hback : ∀ a s o rest, step a s = .ok o rest → C rest → C s)

include hback

theorem start_of_extend {a b : α} {s rest : List Char} (h : Parser.extend step a s = .ok b rest)
    (hC : C rest) : C s := by
  induction hn : s.length using Nat.strongRecOn generalizing s a with
  | ind k ih =>
    rcases extend_eq_ok h with ⟨hs, -⟩ | ⟨c, mid, hs, hl, hmore⟩
    · exact hback a s none rest hs hC
    · exact hback a s (some c) mid hs (ih mid.length (by omega) hmore rfl)

include hstep

/-- A value that is extended as often as possible. The condition goes back from behind each step to
the place where it began. -/
theorem extend (a : α) : Carries more n C (Parser.extend step a) := by
  intro s c rest
  induction hn : s.length using Nat.strongRecOn generalizing s a with
  | ind k ih =>
    intro hlt h hC
    rcases extend_eq_ok h with ⟨hs, rfl⟩ | ⟨b, mid, hs, hl, hmore⟩
    · exact extend_none (hstep _ (hn ▸ hlt) hs hC)
    · have hmid : C mid := start_of_extend hback hmore hC
      rw [extend_some (hstep a (hn ▸ hlt) hs hmid) (length_lt_append hl more)]
      exact ih mid.length (by omega) b rfl (by omega) hmore hC

end extend

end Carries

/-- Where `p` fails, it fails with `more` behind the text as well. -/
def StillFails (more : List Char) (p : Parser α) : Prop :=
  ∀ ⦃s⦄, (p s).Failed → (p (s ++ more)).Failed

theorem StillFails.bind (hp : Firm more p) (hf : ∀ a, StillFails more (f a)) :
    StillFails more (p >>= f) := by
  intro s h
  rw [run_bind, Outcome.failed_andThen] at h
  rw [run_bind]
  rcases h with h | ⟨a, mid, ha, h⟩
  · exact (hp.failed h).andThen
  · rw [hp.ok ha]
    exact hf a h

theorem StillFails.bind_pure (hp : StillFails more p) (hf : ∀ a, ∃ b, f a = Pure.pure b) :
    StillFails more (p >>= f) := by
  intro s h
  rw [run_bind]
  exact (hp (failed_of_bind_pure hf h)).andThen

theorem StillFails.skipping (f : List Char → List Char) : StillFails more (Parser.skipping f) :=
  fun _ h => h.elim

/-- Only texts with the property are read by `p`. -/
def Needs (P : List Char → Prop) (p : Parser α) : Prop := ∀ ⦃s a rest⦄, p s = .ok a rest → P s

namespace Needs

variable {P Q : List Char → Prop}

theorem mono (hp : Needs P p) (h : ∀ s, P s → Q s) : Needs Q p := fun s _ _ hs => h s (hp hs)

theorem bind (hp : Needs P p) : Needs P (p >>= f) := by
  intro s b rest h
  rw [run_bind, Outcome.andThen_eq_ok] at h
  obtain ⟨a, mid, ha, -⟩ := h
  exact hp ha

theorem orElse (hp : Needs P p) (hq : Needs P q) : Needs P (p <|> q) := by
  intro s a rest h
  rw [run_orElse, Outcome.or_eq_ok] at h
  rcases h with h | ⟨-, h⟩
  · exact hp h
  · exact hq h

theorem verify {good : α → Bool} (hp : Needs P p) : Needs P (Parser.verify p good) :=
  fun _ _ _ h => hp (verify_eq_ok.mp h).1

/-- Where `p` fails without the property, it needs it. -/
theorem of_failed (h : ∀ s, ¬ P s → (p s).Failed) : Needs P p := by
  intro s a rest hs
  by_contra hP
  exact (h s hP).ne_ok hs

/-- Either an item comes first or what comes behind them all. -/
theorem sepBy_bind {γ : Type} {separator : Parser β} {f : List α → Parser γ} (hp : Needs P p)
    (hf : ∀ as, Needs P (f as)) : Needs P (Parser.sepBy separator p >>= f) := by
  intro s b rest h
  rw [run_bind, Outcome.andThen_eq_ok] at h
  obtain ⟨as, mid, has, hb⟩ := h
  rw [Parser.sepBy, run_orElse, Outcome.or_eq_ok] at has
  rcases has with has | ⟨-, has⟩
  · exact hp.bind has
  · cases has
    exact hf [] hb

end Needs

end Parser

end QueryBlocks
