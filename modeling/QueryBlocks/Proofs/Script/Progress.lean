import QueryBlocks.Script.Read
import QueryBlocks.Proofs.Script.InStep

/-!
Reading goes forward and ends. The loops of the grammar and the recursion through its rules carry
bounds that make them definable: a round that reads nothing is refused, and the rules for nested
text are tied only as deep as the text is long. Neither bound is ever felt. The loops run as they
would without the refusal, and what stands below the last depth is never asked.
-/
namespace QueryBlocks

open QueryBlocks.Token

variable {α : Type}

namespace Parser

/-- A finite run of a loop that reads `p` until `done`, with no bound on its rounds. -/
inductive Rounds (done : List Char → Bool) (p : Parser α) : List Char → Outcome (List α) → Prop
  | done {s : List Char} (hd : done s = true) : Rounds done p s (.ok [] s)
  | next {s rest : List Char} {a : α} {o : Outcome (List α)} (hd : done s = false)
    (hp : p s = .ok a rest) (more : Rounds done p rest o) : Rounds done p s (o.map (a :: ·))
  | fail {s place : List Char} (hd : done s = false) (hp : p s = .fail place) :
    Rounds done p s (.fail place)
  | stop {s place : List Char} (hd : done s = false) (hp : p s = .stop place) :
    Rounds done p s (.stop place)

/-- A finite run of a loop that extends a value, with no bound on its rounds. -/
inductive Extends (step : α → Parser (Option α)) : α → List Char → Outcome α → Prop
  | last {a : α} {s rest : List Char} (hp : step a s = .ok none rest) :
    Extends step a s (.ok a rest)
  | next {a b : α} {s rest : List Char} {o : Outcome α} (hp : step a s = .ok (some b) rest)
    (more : Extends step b rest o) : Extends step a s o
  | fail {a : α} {s place : List Char} (hp : step a s = .fail place) :
    Extends step a s (.fail place)
  | stop {a : α} {s place : List Char} (hp : step a s = .stop place) :
    Extends step a s (.stop place)

/-- Where every round reads a character, the loop runs as without its bound. -/
theorem rounds_manyUntil {done : List Char → Bool} {p : Parser α} {s : List Char}
    (hp : ∀ t, t <:+ s → (p t).Within 1 t) : Rounds done p s (manyUntil done p s) := by
  induction hn : s.length using Nat.strong_induction_on generalizing s with
  | _ n ih =>
    have hs := hp s (List.suffix_refl s)
    rw [manyUntil]
    by_cases hd : done s
    · rw [if_pos hd]
      exact .done hd
    · rw [if_neg hd]
      rw [Bool.not_eq_true] at hd
      cases h : p s with
      | ok a rest =>
        rw [h] at hs
        obtain ⟨hrest, hlen⟩ := hs
        simp only [show rest.length < s.length from hlen, if_true]
        exact .next hd h (ih rest.length (by omega) (fun t ht => hp t (ht.trans hrest)) rfl)
      | fail place => exact .fail hd h
      | stop place => exact .stop hd h

/-- Where every extension reads a character, the loop runs as without its bound. -/
theorem extends_extend {step : α → Parser (Option α)} {s : List Char}
    (hstep : ∀ a t, t <:+ s → (step a t).Within 0 t ∧
      ∀ b rest, step a t = .ok (some b) rest → rest.length < t.length) (a : α) :
    Extends step a s (extend step a s) := by
  induction hn : s.length using Nat.strong_induction_on generalizing s a with
  | _ n ih =>
    obtain ⟨hwithin, hshort⟩ := hstep a s (List.suffix_refl s)
    rw [extend]
    cases h : step a s with
    | ok b rest =>
      cases b with
      | none => exact .last h
      | some b =>
        rw [h] at hwithin
        have hlen := hshort b rest h
        simp only [hlen, if_true]
        exact .next h (ih rest.length (by omega)
          (fun a t ht => hstep a t (ht.trans hwithin.1)) b rfl)
    | fail place => exact .fail h
    | stop place => exact .stop h

/-- Side by side with another, a step that extends a value reads a character. -/
theorem ParallelStep.extends {φ : α → α} {n : Nat} {step step' : α → Parser (Option α)}
    (hstep : ∀ a, ParallelStep Eq Eq Eq φ n (step a) (step' (φ a))) {s : List Char}
    (hs : s.length < n) (a : α) : Extends step a s (extend step a s) := by
  refine extends_extend (fun a t ht => ?_) a
  obtain ⟨halike, hwithin, -, hshort⟩ := hstep a t t rfl (Nat.lt_of_le_of_lt ht.length_le hs)
  refine ⟨hwithin, fun b rest hb => ?_⟩
  rw [hb] at halike
  generalize hout : step' (φ a) t = o at halike
  cases halike with
  | ok hc hrest =>
    subst hc
    exact (hshort b (φ b) rest _ hb hout).1

end Parser

namespace Rules

open QueryBlocks.Parser

variable {k m : Nat} {s : List Char}

/-- A rule succeeds with an end of its text, at least `k` characters shorter, or it gives up at an
end of its text. Deeper rules do the same, whatever rules stand at the bottom. So the bottom is not
asked: one that stops would show in the outcome. -/
structure Settles (text : String) (k : Nat) (rule : Rules → Parser α) (s : List Char) : Prop where
  progress : (rule (Source.ofString text).rules s).Within k s
  bottomless : ∀ (bottom : Rules) (depth : Nat),
    bottom.place = (Source.ofString text).index.locate → text.toList.length ≤ depth →
      rule (deepened bottom depth) s = rule (Source.ofString text).rules s

/-- The rules over a text are in step with deeper ones. -/
theorem inStep_rules (text : String) {bottom : Rules} {depth : Nat}
    (hplace : bottom.place = (Source.ofString text).index.locate)
    (hdepth : text.toList.length ≤ depth) :
    InStep .same id text.toList.length (Source.ofString text).rules (deepened bottom depth) := by
  rw [Source.rules, nested_eq_deepened]
  refine inStep_deepened ?_ (Nat.le_refl _) hdepth
  rintro s _ rfl
  rw [hplace]
  rfl

/-- Rules are in step with themselves on texts of any length, however deep they are tied: at the
bottom they read nothing. -/
theorem inStep_nested (place : List Char → Position) (n depth : Nat) :
    InStep .same id n (nested place depth) (nested place depth) := by
  induction depth generalizing n with
  | zero =>
    refine ⟨?_, ?_, ?_, ?_, ?_, ?_⟩
    · rintro s _ rfl
      rfl
    all_goals
      rintro s _ rfl -
      exact ⟨.fail rfl, List.suffix_refl s, List.suffix_refl s⟩
  | succ depth ih =>
    have hg := ih n
    have hle := Nat.le_succ n
    refine ⟨?_, hg.assignment.restrict hle, hg.signed.restrict hle, hg.statement.restrict hle,
      hg.statements.reads.restrict hle, hg.conditional.restrict hle⟩
    rintro s _ rfl
    rfl

theorem inStep_self (text : String) (n : Nat) :
    InStep .same id n (Source.ofString text).rules (Source.ofString text).rules :=
  inStep_nested _ n _

/-- Rules that read alike whenever those for nested text do, settle. -/
theorem settles {text : String} {φ : α → α} {rule : Rules → Parser α}
    (hrule : ∀ {g h : Rules}, InStep .same id text.toList.length g h →
      Pairing.same.Reads φ k m (rule g) (rule h)) (hs : s.length < m) :
    Settles text k rule s := by
  obtain ⟨hself, hwithin, -⟩ := hrule (inStep_self text _) s s rfl hs
  refine ⟨hwithin, ?_⟩
  intro bottom depth hplace hdepth
  obtain ⟨hother, -, -⟩ := hrule (inStep_rules text hplace hdepth) s s rfl hs
  generalize rule (Source.ofString text).rules s = o at hself hother
  generalize rule (deepened bottom depth) s = o' at hother
  cases hother with
  | ok hb hrest =>
    cases hself with
    | ok ha => rw [hb, ← ha, show _ = _ from hrest]
  | fail h => rw [show _ = _ from h]
  | stop h => rw [show _ = _ from h]

/-- The rules of the grammar settle on `s`. Arguments without parentheses stand behind a word: they
go forward on every text, and settle on those that are not the whole. -/
structure RulesSettle (text : String) (s : List Char) : Prop where
  expr : Settles text 1 assignment s
  statement : Settles text 1 statement s
  statements : Settles text 0 statements s
  block : Settles text 1 block s
  script : Settles text 0 script s
  classDecl : Settles text 1 classDecl s
  member : Settles text 1 classMember s
  method : Settles text 1 method s
  closure : Settles text 1 closure s
  callArgs : Settles text 0 callArgs s
  parenArgs : Settles text 1 parenArgs s
  properBareArgs : s.length < text.toList.length → Settles text 1 bareArgs s
  bareArgs : ((Source.ofString text).rules.bareArgs s).Within 1 s

theorem rulesSettle {text : String} (hs : s <:+ text.toList) : RulesSettle text s := by
  have hlen : s.length < text.toList.length + 1 := Nat.lt_succ_of_le hs.length_le
  exact {
    expr := settles (fun hg => hg.assignment) hlen
    statement := settles (fun hg => hg.statement) hlen
    statements := settles (fun hg => hg.statements.reads) hlen
    block := settles (fun hg => hg.block) hlen
    script := settles (fun hg => hg.script.reads) hlen
    classDecl := settles (fun hg => hg.classDecl) hlen
    member := settles (fun hg => hg.classMember) hlen
    method := settles (fun hg => hg.method) hlen
    closure := settles (fun hg => hg.closure) hlen
    callArgs := settles (fun hg => hg.callArgs) hlen
    parenArgs := settles (fun hg => hg.parenArgs.reads) hlen
    properBareArgs := fun hproper => settles (fun hg => hg.bareArgs) hproper
    bareArgs := ((inStep_self text _).bareArgs s s rfl hlen).2.1 }

/-- The loops of the grammar run to their end from `s`, with no bound on their rounds: those over
statements, items and members, those over the operators of each level, and those over what may
stand behind an operand. -/
structure LoopsEnd (text : String) (s : List Char) : Prop where
  statements : Rounds closed (entry (Source.ofString text).rules.statement) (skip isBreak s)
    ((Source.ofString text).rules.statements s)
  items : Rounds closed (entry (Source.ofString text).rules.item) (skip isBreak s)
    (sequence (Source.ofString text).rules.item s)
  members : Rounds closed (entry (Source.ofString text).rules.classMember) (skip isBreak s)
    (sequence (Source.ofString text).rules.classMember s)
  operators : ∀ {op tighter first rest}, op :: tighter <:+ ladder →
    (Source.ofString text).rules.levels tighter s = .ok first rest →
      Extends (operation op ((Source.ofString text).rules.levels tighter)) first rest
        ((Source.ofString text).rules.levels (op :: tighter) s)
  suffixes : ∀ {first rest}, (Source.ofString text).rules.primary s = .ok first rest →
    Extends (Source.ofString text).rules.suffix first rest
      ((Source.ofString text).rules.postfixed s)

/-- A list of entries is read without its bound where an entry reads a character. -/
theorem rounds_sequence {φ : α → α} {p q : Parser α} (hp : Pairing.same.Reads φ 1 m p q)
    (hs : s.length < m) : Rounds closed (entry p) (skip isBreak s) (sequence p s) := by
  have hskip : skip isBreak s <:+ s := (advances_breaks s).1
  refine rounds_manyUntil fun t ht => ?_
  have hlen : t.length < m := Nat.lt_of_le_of_lt (ht.trans hskip).length_le hs
  exact (InStep.entry hp t t rfl hlen).2.1

theorem loopsEnd {text : String} (hs : s <:+ text.toList) : LoopsEnd text s := by
  have hg := inStep_self text text.toList.length
  have hlen : s.length < text.toList.length + 1 := Nat.lt_succ_of_le hs.length_le
  -- Behind an operand the text is shorter than the whole.
  have hrest {e : Expr} {p q : Parser Expr} {rest : List Char} (hp : Pairing.same.Reads
      (Expr.map id id) 1 (text.toList.length + 1) p q) (h : p s = .ok e rest) :
      rest.length < text.toList.length := by
    have hwithin := (hp s s rfl hlen).2.1
    rw [h] at hwithin
    have := hwithin.2
    omega
  refine ⟨rounds_sequence hg.statement hlen, rounds_sequence hg.item hlen,
    rounds_sequence hg.classMember hlen, ?_, ?_⟩
  · intro op tighter first rest hops hfirst
    have hop {m : Nat} : Pairing.same.Takes 1 m op :=
      Pairing.takes_ladder (hops.subset List.mem_cons_self)
    have htighter := hg.levels fun op' hop' _ =>
      Pairing.takes_ladder (hops.subset (List.mem_cons_of_mem op hop'))
    rw [levels, leftGrouped, run_bind, hfirst]
    exact ParallelStep.extends (InStep.operation hop htighter) (hrest htighter hfirst) first
  · intro first rest hfirst
    rw [postfixed, run_bind, hfirst]
    exact ParallelStep.extends hg.suffix (hrest hg.primary hfirst) first

/-- Reading gave a value, or an error at the place of an end of the text. -/
def Answers (text : String) (result : Except ParseError α) : Prop :=
  (∃ a, result = .ok a) ∨ ∃ e rest, result = .error e ∧ rest <:+ text.toList ∧
    e.pos = (Source.ofString text).index.locate rest

theorem answers_finish {text : String} {o : Outcome α} (hs : s <:+ text.toList)
    (ho : o.Within k s) : Answers text ((Source.ofString text).finish o) := by
  cases o with
  | ok a rest =>
    have hskip : skip isBreak rest <:+ text.toList :=
      ((advances_breaks rest).1.trans ho.1).trans hs
    rw [Source.finish]
    split
    · exact .inl ⟨a, rfl⟩
    · exact .inr ⟨_, _, rfl, hskip, rfl⟩
  | fail place => exact .inr ⟨_, place, rfl, List.IsSuffix.trans ho hs, rfl⟩
  | stop place => exact .inr ⟨_, place, rfl, List.IsSuffix.trans ho hs, rfl⟩

/-- Reading goes forward, ends and answers, on malformed texts too. -/
theorem reading_ends (text : String) :
    (∀ s, s <:+ text.toList → RulesSettle text s ∧ LoopsEnd text s) ∧
      Answers text (Script.read text) ∧ Answers text (Block.read text) ∧
        Answers text (Expr.read text) := by
  refine ⟨fun s hs => ⟨rulesSettle hs, loopsEnd hs⟩, ?_, ?_, ?_⟩
  · have hall := List.suffix_refl text.toList
    exact answers_finish hall (rulesSettle hall).script.progress
  · have hall := List.suffix_refl text.toList
    have h := answers_finish hall (rulesSettle hall).statements.progress
    rw [Block.read]
    rcases h with ⟨ss, hss⟩ | ⟨e, rest, he, hrest⟩
    · exact .inl ⟨⟨⟨1, 1⟩, ss⟩, congrArg _ hss⟩
    · exact .inr ⟨e, rest, congrArg _ he, hrest⟩
  · have htrim : Text.trimStart text.toList <:+ text.toList := List.dropWhile_suffix _
    exact answers_finish htrim (rulesSettle htrim).expr.progress

/-- An argument list that is never closed, seen from its parenthesis. -/
theorem reading_ends_unclosed : RulesSettle "f(" ['('] ∧ LoopsEnd "f(" ['('] :=
  (reading_ends "f(").1 ['('] ⟨['f'], rfl⟩

end Rules

end QueryBlocks
