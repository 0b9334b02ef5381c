import QueryBlocks.Proofs.Parser.Agree

/-!
Two parsers side by side, each on a text of its own. The texts are related before and after, and the
values differ by a given function. Unlike parsers that agree, the two may read different numbers of
characters: what counts is that both go forward.
-/
namespace QueryBlocks

variable {α β γ δ : Type}

/-- A relation between the remaining texts of two runs. -/
abbrev TextRel := List Char → List Char → Prop

variable {loose R R' R'' S : TextRel}

namespace Outcome

/-- Both runs end in the same way: with related rests, or at places that are loosely related. -/
inductive Alike (loose R : TextRel) (φ : α → β) : Outcome α → Outcome β → Prop
  | ok {a : α} {b : β} {s t : List Char} (hb : b = φ a) (h : R s t) :
    Alike loose R φ (.ok a s) (.ok b t)
  | fail {s t : List Char} (h : loose s t) : Alike loose R φ (.fail s) (.fail t)
  | stop {s t : List Char} (h : loose s t) : Alike loose R φ (.stop s) (.stop t)

variable {φ : α → β} {o : Outcome α} {o' : Outcome β}

theorem Alike.mono (h : Alike loose R φ o o') (hR : ∀ {s t}, R s t → R' s t) :
    Alike loose R' φ o o' := by
  cases h with
  | ok hb h => exact .ok hb (hR h)
  | fail h => exact .fail h
  | stop h => exact .stop h

/-- One run succeeds if and only if the other does. -/
theorem Alike.ok_iff (h : Alike loose R φ o o') :
    (∃ a rest, o = .ok a rest) ↔ ∃ b rest, o' = .ok b rest := by
  cases h <;> simp

/-- One more item in front of both lists. -/
theorem Alike.cons {o : Outcome (List α)} {o' : Outcome (List β)}
    (h : Alike loose R (List.map φ) o o') (a : α) :
    Alike loose R (List.map φ) (o.map (a :: ·)) (o'.map (φ a :: ·)) := by
  cases h with
  | ok hb h =>
    subst hb
    exact .ok rfl h
  | fail h => exact .fail h
  | stop h => exact .stop h

end Outcome

namespace Parser

/-- On related texts the second of which is shorter than `n`, both parsers end alike, and each reads
at least `k` characters if they succeed. -/
def Parallel (loose R R' : TextRel) (φ : α → β) (k n : Nat) (p : Parser α) (q : Parser β) : Prop :=
  ∀ s t, R s t → t.length < n →
    (p s).Alike loose R' φ (q t) ∧ (p s).Within k s ∧ (q t).Within k t

/-- One step of a loop that extends a value: both steps end alike, and reading shortens each text
unless the value is not extended. -/
def ParallelStep (loose R R' : TextRel) (φ : α → β) (n : Nat) (p : Parser (Option α))
    (q : Parser (Option β)) : Prop :=
  ∀ s t, R s t → t.length < n →
    (p s).Alike loose R' (Option.map φ) (q t) ∧ (p s).Within 0 s ∧ (q t).Within 0 t ∧
      ∀ a b rest rest', p s = .ok (some a) rest → q t = .ok (some b) rest' →
        rest.length < s.length ∧ rest'.length < t.length

variable {φ : α → β} {ψ : γ → δ} {k l n m : Nat} {p p' : Parser α} {q q' : Parser β}

namespace Parallel

theorem weaken (h : Parallel loose R R' φ k n p q) (hl : l ≤ k) :
    Parallel loose R R' φ l n p q := by
  intro s t hst hn
  obtain ⟨ha, hp, hq⟩ := h s t hst hn
  exact ⟨ha, hp.weaken hl, hq.weaken hl⟩

theorem restrict (h : Parallel loose R R' φ k n p q) (hm : m ≤ n) :
    Parallel loose R R' φ k m p q := by
  intro s t hst hn
  exact h s t hst (Nat.lt_of_lt_of_le hn hm)

/-- A stronger relation before, a weaker one after. -/
theorem mono (h : Parallel loose R R' φ k n p q) (hR : ∀ {s t}, S s t → R s t)
    (hR' : ∀ {s t}, R' s t → R'' s t) : Parallel loose S R'' φ k n p q := by
  intro s t hst hn
  obtain ⟨ha, hp, hq⟩ := h s t (hR hst) hn
  exact ⟨ha.mono hR', hp, hq⟩

theorem of_advances {p : Parser α} (hp : Advances k p)
    (h : ∀ s t, R s t → (p s).Alike loose R' id (p t)) : Parallel loose R R' id k n p p := by
  intro s t hst _
  exact ⟨h s t hst, hp s, hp t⟩

theorem of_eq {a : α} {b : β} (hb : b = φ a) :
    Parallel loose R R φ 0 n (Pure.pure a) (Pure.pure b) := by
  intro s t hst _
  exact ⟨.ok hb hst, ⟨List.suffix_refl s, Nat.le_refl _⟩, ⟨List.suffix_refl t, Nat.le_refl _⟩⟩

theorem bind_add {f : α → Parser γ} {f' : β → Parser δ}
    (hp : Parallel loose R R' φ k n p q)
    (hf : ∀ a, Parallel loose R' R'' ψ l (n - k) (f a) (f' (φ a))) :
    Parallel loose R R'' ψ (k + l) n (p >>= f) (q >>= f') := by
  intro s t hst hn
  obtain ⟨ha, hwp, hwq⟩ := hp s t hst hn
  rw [run_bind, run_bind]
  generalize p s = o, q t = o' at ha hwp hwq
  cases ha with
  | @ok a _ rest rest' hb hrest =>
    subst hb
    have hlen := hwq.2
    obtain ⟨hab, hwf, hwf'⟩ := hf a rest rest' hrest (by omega)
    exact ⟨hab, hwf.trans hwp.1 hwp.2, hwf'.trans hwq.1 hwq.2⟩
  | fail h => exact ⟨.fail h, hwp, hwq⟩
  | stop h => exact ⟨.stop h, hwp, hwq⟩

theorem bind {f : α → Parser γ} {f' : β → Parser δ} (hp : Parallel loose R R' φ k n p q)
    (hf : ∀ a, Parallel loose R' R'' ψ l n (f a) (f' (φ a))) :
    Parallel loose R R'' ψ l n (p >>= f) (q >>= f') :=
  (bind_add hp fun a => (hf a).restrict (Nat.sub_le _ _)).weaken (Nat.le_add_left _ _)

/-- After a character has been read, what follows is asked of shorter texts only. -/
theorem bind_read {f : α → Parser γ} {f' : β → Parser δ} (hp : Parallel loose R R' φ 1 (n + 1) p q)
    (hf : ∀ a, Parallel loose R' R'' ψ 0 n (f a) (f' (φ a))) :
    Parallel loose R R'' ψ 1 (n + 1) (p >>= f) (q >>= f') :=
  bind_add hp hf

theorem bind_left {f : α → Parser γ} {f' : β → Parser δ} (hp : Parallel loose R R' φ k n p q)
    (hf : ∀ a, Parallel loose R' R'' ψ 0 n (f a) (f' (φ a))) :
    Parallel loose R R'' ψ k n (p >>= f) (q >>= f') :=
  bind_add hp fun a => (hf a).restrict (Nat.sub_le _ _)

theorem orElse (hp : Parallel loose R R' φ k n p q) (hp' : Parallel loose R R' φ k n p' q') :
    Parallel loose R R' φ k n (p <|> p') (q <|> q') := by
  intro s t hst hn
  obtain ⟨ha, hwp, hwq⟩ := hp s t hst hn
  rw [run_orElse, run_orElse]
  generalize p s = o, q t = o' at ha hwp hwq
  cases ha with
  | ok hb h => exact ⟨.ok hb h, hwp, hwq⟩
  | fail => exact hp' s t hst hn
  | stop h => exact ⟨.stop h, hwp, hwq⟩

/-- An optional part and what follows, with or without it. The texts are as before where the part
is missing. -/
theorem optional_bind_add {j : Nat} {f : Option α → Parser γ} {f' : Option β → Parser δ}
    (hp : Parallel loose R R' φ k n p q)
    (hsome : ∀ a, Parallel loose R' R'' ψ j (n - k) (f (some a)) (f' (some (φ a))))
    (hnone : Parallel loose R R'' ψ l n (f none) (f' none)) (hl : l ≤ k + j) :
    Parallel loose R R'' ψ l n (Parser.optional p >>= f) (Parser.optional q >>= f') := by
  intro s t hst hn
  obtain ⟨ha, hwp, hwq⟩ := hp s t hst hn
  rw [run_bind, run_bind]
  unfold Parser.optional
  generalize p s = o, q t = o' at ha hwp hwq
  cases ha with
  | @ok a _ rest rest' hb hrest =>
    subst hb
    have hlen := hwq.2
    obtain ⟨hab, hwf, hwf'⟩ := hsome a rest rest' hrest (by omega)
    exact ⟨hab, (hwf.trans hwp.1 hwp.2).weaken hl, (hwf'.trans hwq.1 hwq.2).weaken hl⟩
  | fail => exact hnone s t hst hn
  | stop h => exact ⟨.stop h, hwp, hwq⟩

theorem optional_read {f : Option α → Parser γ} {f' : Option β → Parser δ}
    (hp : Parallel loose R R' φ 1 (n + 1) p q)
    (hsome : ∀ a, Parallel loose R' R'' ψ 0 n (f (some a)) (f' (some (φ a))))
    (hnone : Parallel loose R R'' ψ 1 (n + 1) (f none) (f' none)) :
    Parallel loose R R'' ψ 1 (n + 1) (Parser.optional p >>= f) (Parser.optional q >>= f') :=
  optional_bind_add hp hsome hnone (Nat.le_refl _)

theorem optional_bind {f : Option α → Parser γ} {f' : Option β → Parser δ}
    (hp : Parallel loose R R' φ k n p q)
    (hsome : ∀ a, Parallel loose R' R'' ψ l n (f (some a)) (f' (some (φ a))))
    (hnone : Parallel loose R R'' ψ l n (f none) (f' none)) :
    Parallel loose R R'' ψ l n (Parser.optional p >>= f) (Parser.optional q >>= f') :=
  optional_bind_add hp (fun a => (hsome a).restrict (Nat.sub_le _ _)) hnone (Nat.le_add_left _ _)

theorem optional (hp : Parallel loose R R' φ k n p q) (hR : ∀ {s t}, R s t → R' s t) :
    Parallel loose R R' (Option.map φ) 0 n (Parser.optional p) (Parser.optional q) := by
  intro s t hst hn
  obtain ⟨ha, hwp, hwq⟩ := hp s t hst hn
  unfold Parser.optional
  generalize p s = o, q t = o' at ha hwp hwq
  cases ha with
  | ok hb h =>
    subst hb
    exact ⟨.ok rfl h, hwp.weaken (Nat.zero_le _), hwq.weaken (Nat.zero_le _)⟩
  | fail =>
    exact ⟨.ok rfl (hR hst), ⟨List.suffix_refl s, Nat.le_refl _⟩,
      ⟨List.suffix_refl t, Nat.le_refl _⟩⟩
  | stop h => exact ⟨.stop h, hwp, hwq⟩

theorem notNext (hp : Parallel loose R R' φ k n p q) (hR : ∀ {s t}, R s t → loose s t) :
    Parallel loose R R id 0 n (Parser.notNext p) (Parser.notNext q) := by
  intro s t hst hn
  obtain ⟨ha, hwp, hwq⟩ := hp s t hst hn
  unfold Parser.notNext
  generalize p s = o, q t = o' at ha hwp hwq
  cases ha with
  | ok => exact ⟨.fail (hR hst), List.suffix_refl s, List.suffix_refl t⟩
  | fail =>
    exact ⟨.ok rfl hst, ⟨List.suffix_refl s, Nat.le_refl _⟩, ⟨List.suffix_refl t, Nat.le_refl _⟩⟩
  | stop h => exact ⟨.stop h, hwp, hwq⟩

theorem verify {good : α → Bool} {q : Parser α} (hp : Parallel loose R R' id k n p q)
    (hR : ∀ {s t}, R s t → loose s t) :
    Parallel loose R R' id k n (Parser.verify p good) (Parser.verify q good) := by
  intro s t hst hn
  obtain ⟨ha, hwp, hwq⟩ := hp s t hst hn
  unfold Parser.verify
  generalize p s = o, q t = o' at ha hwp hwq
  cases ha with
  | @ok a b rest rest' hb h =>
    obtain rfl : b = a := hb
    by_cases hg : good b
    · simp only [hg, if_true]
      exact ⟨.ok rfl h, hwp, hwq⟩
    · simp only [hg]
      exact ⟨.fail (hR hst), List.suffix_refl s, List.suffix_refl t⟩
  | fail h => exact ⟨.fail h, hwp, hwq⟩
  | stop h => exact ⟨.stop h, hwp, hwq⟩

/-- Every round shortens both texts, so neither run gives up before the other. -/
theorem many (hp : Parallel loose R R φ 1 n p q) :
    Parallel loose R R (List.map φ) 0 n (Parser.many p) (Parser.many q) := by
  intro s t hst hn
  induction hm : t.length using Nat.strong_induction_on generalizing s t with
  | _ m ih =>
    obtain ⟨ha, hwp, hwq⟩ := hp s t hst hn
    rw [Parser.many, Parser.many]
    generalize p s = o, q t = o' at ha hwp hwq
    cases ha with
    | @ok a _ rest rest' hb hrest =>
      subst hb
      have hs : rest.length < s.length := hwp.2
      have ht : rest'.length < t.length := hwq.2
      obtain ⟨hr, hwr, hwr'⟩ := ih rest'.length (by omega) rest rest' hrest (by omega) rfl
      simp only [hs, ht, if_true]
      exact ⟨hr.cons a, (hwr.trans (k := 0) hwp.1 (by omega)).map,
        (hwr'.trans (k := 0) hwq.1 (by omega)).map⟩
    | fail =>
      exact ⟨.ok rfl hst, ⟨List.suffix_refl s, Nat.le_refl _⟩, ⟨List.suffix_refl t, Nat.le_refl _⟩⟩
    | stop h => exact ⟨.stop h, hwp, hwq⟩

theorem manyUntil {done : List Char → Bool} (hdone : ∀ {s t}, R s t → done s = done t)
    (hp : Parallel loose R R φ 1 n p q) :
    Parallel loose R R (List.map φ) 0 n (Parser.manyUntil done p) (Parser.manyUntil done q) := by
  intro s t hst hn
  induction hm : t.length using Nat.strong_induction_on generalizing s t with
  | _ m ih =>
    obtain ⟨ha, hwp, hwq⟩ := hp s t hst hn
    rw [Parser.manyUntil, Parser.manyUntil, hdone hst]
    by_cases hd : done t
    · simp only [hd, if_true]
      exact ⟨.ok rfl hst, ⟨List.suffix_refl s, Nat.le_refl _⟩, ⟨List.suffix_refl t, Nat.le_refl _⟩⟩
    · rw [if_neg hd, if_neg hd]
      generalize p s = o, q t = o' at ha hwp hwq
      cases ha with
      | @ok a _ rest rest' hb hrest =>
        subst hb
        have hs : rest.length < s.length := hwp.2
        have ht : rest'.length < t.length := hwq.2
        obtain ⟨hr, hwr, hwr'⟩ := ih rest'.length (by omega) rest rest' hrest (by omega) rfl
        simp only [hs, ht, if_true]
        exact ⟨hr.cons a, (hwr.trans (k := 0) hwp.1 (by omega)).map,
          (hwr'.trans (k := 0) hwq.1 (by omega)).map⟩
      | fail h => exact ⟨.fail h, hwp, hwq⟩
      | stop h => exact ⟨.stop h, hwp, hwq⟩

theorem extend {step : α → Parser (Option α)} {step' : β → Parser (Option β)}
    (hstep : ∀ a, ParallelStep loose R R φ n (step a) (step' (φ a))) (a : α) :
    Parallel loose R R φ 0 n (Parser.extend step a) (Parser.extend step' (φ a)) := by
  intro s t hst hn
  induction hm : t.length using Nat.strong_induction_on generalizing s t a with
  | _ m ih =>
    obtain ⟨ha, hwp, hwq, hshort⟩ := hstep a s t hst hn
    rw [Parser.extend, Parser.extend]
    generalize step a s = o, step' (φ a) t = o' at ha hwp hwq hshort
    cases ha with
    | @ok x _ rest rest' hb hrest =>
      subst hb
      cases x with
      | none => exact ⟨.ok rfl hrest, hwp, hwq⟩
      | some b =>
        obtain ⟨hs, ht⟩ := hshort b (φ b) rest rest' rfl rfl
        obtain ⟨hr, hwr, hwr'⟩ := ih rest'.length (by omega) b rest rest' hrest (by omega) rfl
        simp only [Option.map_some, hs, ht, if_true]
        exact ⟨hr, hwr.trans (k := 0) hwp.1 (by omega), hwr'.trans (k := 0) hwq.1 (by omega)⟩
    | fail h => exact ⟨.fail h, hwp, hwq⟩
    | stop h => exact ⟨.stop h, hwp, hwq⟩

theorem sepBy1 {sep : Parser γ} {sep' : Parser δ} (hsep : Parallel loose R R' ψ 1 n sep sep')
    (hp : Parallel loose R' R φ k n p q) (hR : ∀ {s t}, R s t → R' s t) :
    Parallel loose R R (List.map φ) k n (Parser.sepBy1 sep p) (Parser.sepBy1 sep' q) := by
  have hround : Parallel loose R R φ 1 n (do let _ ← sep; p) (do let _ ← sep'; q) :=
    hsep.bind_left fun _ => hp.weaken (Nat.zero_le _)
  refine (hp.mono hR id).bind_left fun first => hround.many.bind fun more => ?_
  exact of_eq rfl

theorem sepBy {sep : Parser γ} {sep' : Parser δ} (hsep : Parallel loose R R' ψ 1 n sep sep')
    (hp : Parallel loose R' R φ k n p q) (hR : ∀ {s t}, R s t → R' s t) :
    Parallel loose R R (List.map φ) 0 n (Parser.sepBy sep p) (Parser.sepBy sep' q) :=
  ((sepBy1 hsep hp hR).weaken (Nat.zero_le _)).orElse (of_eq rfl)

end Parallel

namespace ParallelStep

/-- The value is not extended. -/
theorem done : ParallelStep loose R R φ n (Pure.pure none) (Pure.pure none) := by
  intro s t hst _
  refine ⟨.ok rfl hst, ⟨List.suffix_refl s, Nat.le_refl _⟩, ⟨List.suffix_refl t, Nat.le_refl _⟩, ?_⟩
  intro a b rest rest' h
  cases h

/-- A part that announces the extension, or else another step. -/
theorem optional_bind {f : Option γ → Parser (Option α)} {f' : Option δ → Parser (Option β)}
    {mark : Parser γ} {mark' : Parser δ} (hmark : Parallel loose R R' ψ 1 n mark mark')
    (hsome : ∀ c, Parallel loose R' R'' (Option.map φ) 0 n (f (some c)) (f' (some (ψ c))))
    (hnone : ParallelStep loose R R'' φ n (f none) (f' none)) :
    ParallelStep loose R R'' φ n (optional mark >>= f) (optional mark' >>= f') := by
  intro s t hst hn
  obtain ⟨ha, hwp, hwq⟩ := hmark s t hst hn
  rw [run_bind, run_bind]
  unfold optional
  generalize mark s = o, mark' t = o' at ha hwp hwq
  cases ha with
  | @ok c _ rest rest' hb hrest =>
    subst hb
    have hlen := hwp.2
    have hlen' := hwq.2
    obtain ⟨hab, hwf, hwf'⟩ := hsome c rest rest' hrest (by omega)
    refine ⟨hab, (hwf.trans hwp.1 hwp.2).weaken (Nat.zero_le _),
      (hwf'.trans hwq.1 hwq.2).weaken (Nat.zero_le _), ?_⟩
    intro a b u v hu hv
    dsimp only [Outcome.andThen_ok] at hu hv
    rw [hu] at hwf
    rw [hv] at hwf'
    have := hwf.2
    have := hwf'.2
    omega
  | fail => exact hnone s t hst hn
  | stop h =>
    refine ⟨.stop h, hwp, hwq, ?_⟩
    intro a b u v hu
    cases hu

end ParallelStep

end Parser

end QueryBlocks
