import QueryBlocks.Proofs.Parser.Agree
import QueryBlocks.Proofs.Parser.Ensures

/-!
What a parser gives and where it leaves off, from a text or from any end of it. Unlike a property of
the value alone, this can speak of where in the text the value was read.
-/
namespace QueryBlocks.Parser

variable {α β : Type}

/-- From every end of `base`, a success leaves an end of what was there, and has the property. -/
def Gives (base : List Char) (p : Parser α) (P : α → List Char → Prop) : Prop :=
  ∀ s, s <:+ base → ∀ a rest, p s = .ok a rest → rest <:+ s ∧ P a rest

namespace Gives

variable {base mid : List Char} {k : Nat} {p q : Parser α} {P Q : α → List Char → Prop}
  {R : β → List Char → Prop}

theorem mono (hp : Gives base p P) (h : ∀ a rest, P a rest → Q a rest) : Gives base p Q := by
  intro s hs a rest hr
  obtain ⟨hrest, ha⟩ := hp s hs a rest hr
  exact ⟨hrest, h a rest ha⟩

/-- Further on, the same is given. -/
theorem later (hp : Gives base p P) (hmid : mid <:+ base) : Gives mid p P :=
  fun s hs => hp s (hs.trans hmid)

theorem of_advances (hp : Advances k p) : Gives base p fun _ _ => True := by
  intro s _ a rest hr
  have hwithin := hp s
  rw [hr] at hwithin
  exact ⟨hwithin.1, trivial⟩

theorem pure {a : α} (h : ∀ rest, rest <:+ base → P a rest) : Gives base (Pure.pure a) P := by
  intro s hs b rest hr
  cases hr
  exact ⟨List.suffix_refl _, h _ hs⟩

theorem fail : Gives base (Parser.fail : Parser α) P := by
  intro s _ a rest hr
  cases hr

/-- Go on from where a value has been read. -/
theorem bind {f : α → Parser β} (hp : Gives base p P)
    (hf : ∀ a mid, mid <:+ base → P a mid → Gives mid (f a) R) : Gives base (p >>= f) R := by
  intro s hs b rest hr
  rw [run_bind, Outcome.andThen_eq_ok] at hr
  obtain ⟨a, mid, ha, hb⟩ := hr
  obtain ⟨hmid, hP⟩ := hp s hs a mid ha
  obtain ⟨hrest, hR⟩ := hf a mid (hmid.trans hs) hP mid (List.suffix_refl _) b rest hb
  exact ⟨hrest.trans hmid, hR⟩

/-- Go on after a value whose place does not matter. -/
theorem andThen {f : α → Parser β} (hp : Gives base p P)
    (hf : ∀ a mid, P a mid → Gives base (f a) R) : Gives base (p >>= f) R :=
  hp.bind fun a mid hmid hP => (hf a mid hP).later hmid

/-- Go on after a value of which nothing has to be known. -/
theorem after {f : α → Parser β} (hp : Advances k p) (hf : ∀ a, Gives base (f a) R) :
    Gives base (p >>= f) R :=
  (of_advances hp).andThen fun a _ _ => hf a

theorem orElse (hp : Gives base p P) (hq : Gives base q P) : Gives base (p <|> q) P := by
  intro s hs a rest hr
  rw [run_orElse, Outcome.or_eq_ok] at hr
  rcases hr with hr | ⟨-, hr⟩
  · exact hp s hs a rest hr
  · exact hq s hs a rest hr

theorem optional (hp : Gives base p P) :
    Gives base (Parser.optional p) fun o rest => ∀ a ∈ o, P a rest := by
  intro s hs o rest hr
  rcases optional_eq_ok hr with ⟨a, rfl, ha⟩ | ⟨rfl, rfl, -⟩
  · obtain ⟨hrest, hP⟩ := hp s hs a rest ha
    refine ⟨hrest, fun b hb => ?_⟩
    cases hb
    exact hP
  · exact ⟨List.suffix_refl _, fun b hb => by cases hb⟩

section loops

variable {good : α → Prop}

theorem many (hp : Gives base p fun a _ => good a) :
    Gives base (Parser.many p) fun as _ => ∀ a ∈ as, good a := by
  intro s hs
  induction hn : s.length using Nat.strongRecOn generalizing s with
  | ind n ih =>
    intro as rest hr
    rcases many_eq_ok hr with ⟨-, rfl, rfl⟩ | ⟨a, mid, more, h, hl, hm, rfl⟩
    · exact ⟨List.suffix_refl _, fun b hb => by cases hb⟩
    · obtain ⟨hmid, ha⟩ := hp s hs a mid h
      obtain ⟨hrest, hmore⟩ := ih mid.length (by omega) mid (hmid.trans hs) rfl more rest hm
      exact ⟨hrest.trans hmid, List.forall_mem_cons.mpr ⟨ha, hmore⟩⟩

theorem manyUntil {done : List Char → Bool} (hp : Gives base p fun a _ => good a) :
    Gives base (Parser.manyUntil done p) fun as _ => ∀ a ∈ as, good a := by
  intro s hs
  induction hn : s.length using Nat.strongRecOn generalizing s with
  | ind n ih =>
    intro as rest hr
    rcases manyUntil_eq_ok hr with ⟨-, rfl, rfl⟩ | ⟨-, a, mid, more, h, hl, hm, rfl⟩
    · exact ⟨List.suffix_refl _, fun b hb => by cases hb⟩
    · obtain ⟨hmid, ha⟩ := hp s hs a mid h
      obtain ⟨hrest, hmore⟩ := ih mid.length (by omega) mid (hmid.trans hs) rfl more rest hm
      exact ⟨hrest.trans hmid, List.forall_mem_cons.mpr ⟨ha, hmore⟩⟩

theorem sepBy1 {separator : Parser β} (hsep : Advances k separator)
    (hp : Gives base p fun a _ => good a) :
    Gives base (Parser.sepBy1 separator p) fun as _ => ∀ a ∈ as, good a := by
  refine hp.andThen fun first _ hfirst => ?_
  refine (many (after hsep fun _ => hp)).andThen fun more _ hmore => ?_
  exact pure fun _ _ => List.forall_mem_cons.mpr ⟨hfirst, hmore⟩

theorem sepBy {separator : Parser β} (hsep : Advances k separator)
    (hp : Gives base p fun a _ => good a) :
    Gives base (Parser.sepBy separator p) fun as _ => ∀ a ∈ as, good a :=
  (sepBy1 hsep hp).orElse (pure fun _ _ _ ha => by cases ha)

/-- What holds of a value where the loop begins, and is kept by every step, holds where it ends. -/
theorem extend {step : α → Parser (Option α)}
    (hstep : ∀ a mid, P a mid → Gives mid (step a) fun o rest => P (o.getD a) rest)
    (hlater : ∀ a s rest, P a s → rest <:+ s → P a rest) {a : α} (ha : P a base) :
    Gives base (Parser.extend step a) P := by
  intro s hs
  replace ha := hlater a base s ha hs
  induction hn : s.length using Nat.strongRecOn generalizing s a with
  | ind n ih =>
    intro b rest hr
    rcases extend_eq_ok hr with ⟨h, rfl⟩ | ⟨c, mid, h, hl, hm⟩
    · exact hstep b s ha s (List.suffix_refl _) none rest h
    · obtain ⟨hmid, hc⟩ := hstep a s ha s (List.suffix_refl _) (some c) mid h
      obtain ⟨hrest, hb⟩ := ih mid.length (by omega) mid (hmid.trans hs) hc rfl b rest hm
      exact ⟨hrest.trans hmid, hb⟩

end loops

end Gives

end QueryBlocks.Parser
