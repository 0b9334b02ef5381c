import QueryBlocks.Proofs.Script.Choice

/-!
Expressions with another line below them. An expression that ends at the end of its line is read the
same, whatever the line below it is, as long as that line does not begin with a dot. Inside brackets
nothing is said of the line below, because it is out of reach there.
-/
namespace QueryBlocks

open QueryBlocks.Parser QueryBlocks.Token QueryBlocks.Rules

/-- The end of an operand: no arguments of a call follow, and no comment that the line below could
close. -/
structure Done (s : List Char) : Prop where
  closed : ¬ Unclosed (skip isSpace s)
  call : ∀ c ∈ (skip isGap s).head?, c ≠ '(' ∧ c ≠ '\x7b'

/-- The end of a statement, as far as the line below is concerned; the other branch of a condition
may follow. -/
structure Over (s : List Char) : Prop where
  closed : ¬ Unclosed (skip isSpace s)
  ends : ended (skip isGap s) = true ∨ ∃ t, keyword "else" (skip isSpace s) = .ok () t

/-- The end of the statements of a block. -/
def Shut (s : List Char) : Prop := ∃ t, skip isSpace s = '\x7d' :: t

/-- The rules for nested text, on texts shorter than `n`, with the line `v` below. -/
structure Rules.Carried (v : List Char) (n : Nat) : Prop where
  expr : Carries ('\n' :: v) n Done bare.expr
  unary : Carries ('\n' :: v) n Done bare.unary
  stmt : Carries ('\n' :: v) n Over bare.stmt
  stmts : Carries ('\n' :: v) n Shut bare.stmts
  branch : Carries ('\n' :: v) n Over bare.branch

section ends

variable {s t m r : List Char} {c : Char}

theorem not_unclosed_isGap (hs : ¬ Unclosed (skip isSpace s)) : ¬ Unclosed (skip isGap s) := by
  intro hopen
  rw [← skip_skip isSpace_of_isGap, hopen.skip_eq] at hs
  exact hs hopen

/-- A gap inside the line ends where the wider one does, or at a newline. -/
theorem head?_skip_isGap (hs : skip isSpace s = c :: t) :
    ∀ d ∈ (skip isGap s).head?, d = '\n' ∨ d = c := by
  intro d hd
  rw [← skip_skip isSpace_of_isGap] at hs
  rcases skip_cases isGap s with hnil | hopen | ⟨e, u, hu, he, hcomment⟩
  · rw [hnil] at hd
    cases hd
  · rw [hopen.skip_eq] at hs
    rw [hs] at hd
    cases hd
    exact .inr rfl
  · rw [hu] at hd hs
    cases hd
    rw [hcomment.skip_eq] at hs
    by_cases hspace : isSpace d = true
    · left
      simpa [isSpace, he] using hspace
    · rw [if_neg hspace] at hs
      cases hs
      exact .inr rfl

namespace Done

theorem of_space (hs : skip isSpace s = c :: t) (hc : c ≠ '/' ∧ c ≠ '(' ∧ c ≠ '\x7b') : Done s where
  closed := by
    rw [hs]
    exact (settled_cons hc.1).2
  call d hd := by
    rcases head?_skip_isGap hs d hd with rfl | rfl
    · decide
    · exact hc.2

theorem of_gap (hs : Settled (skip isGap s))
    (hc : ∀ c ∈ (skip isGap s).head?, c ≠ '\n' ∧ c ≠ '(' ∧ c ≠ '\x7b') : Done s where
  closed := by
    rw [← skip_skip isSpace_of_isGap]
    rcases skip_cases isGap s with hnil | hopen | ⟨d, t, ht, hd, hcomment⟩
    · exact absurd hnil hs.1
    · exact absurd hopen hs.2
    · have hspace : isSpace d = false := by
        have hne := (hc d (by rw [ht]; rfl)).1
        simp [isSpace, hd, hne]
      rw [Solid.skip_eq ⟨d, t, ht, hspace, hcomment⟩]
      exact hs.2
  call c hd := (hc c hd).2

end Done

theorem Shut.settled {ss : List Stmt} (hr : Shut r) (h : bare.stmts s = .ok ss r) : Settled s := by
  rw [bare_stmts] at h
  refine settled_statements h ?_
  rintro rfl
  obtain ⟨t, ht⟩ := hr
  rw [skip_nil] at ht
  cases ht

theorem Over.done (hs : Over s) : Done s := by
  rcases hs.ends with hended | ⟨t, helse⟩
  · refine ⟨hs.closed, fun c hc => ?_⟩
    obtain ⟨u, hu⟩ := List.head?_eq_some_iff.mp hc
    rw [hu, ended] at hended
    constructor <;> rintro rfl <;> cases hended
  · exact .of_space (c := 'e') (keyword_eq_ok helse).1 (by decide)

end ends

/-! ### Brackets -/

section brackets

variable {v s m t r : List Char} {n : Nat} {α β : Type} {C : List Char → Prop}

theorem carries_after_here {f : Position → Parser β} (hf : ∀ pos, Carries ('\n' :: v) n C (f pos)) :
    Carries ('\n' :: v) n C (bare.here >>= f) :=
  .bind_firm (k := 0) (firm_here v) (fun s => ⟨List.suffix_refl s, Nat.le_refl _⟩) hf

/-- Up to a closing bracket. -/
theorem carries_close {c : Char} (hc : c ≠ '\n' ∧ c ≠ '/') (a : α) :
    Carries ('\n' :: v) n C (do space; let _ ← char c; return a) :=
  carries_after_skip ((firm_char v hc.1).carries.bind_pure fun _ => ⟨a, rfl⟩)
    (settled_char hc.2).bind

theorem close_eq_ok {c : Char} {a b : α}
    (h : (do space; let _ ← char c; return a : Parser α) s = .ok b r) :
    skip isSpace s = c :: r ∧ b = a := by
  rw [run_bind, run_space, Outcome.andThen_ok, run_bind, Outcome.andThen_eq_ok] at h
  obtain ⟨_, mid, hc, h⟩ := h
  cases h
  exact ⟨char_eq_ok hc, rfl⟩

theorem settled_close {c : Char} (hc : c ≠ '/') (a : α) :
    Needs Settled (do space; let _ ← char c; return a) :=
  settled_after_skip (settled_char hc).bind

/-- A rule that begins with a bracket does not go on from a gap that leads to something else. -/
theorem failed_after_gap {p : Parser α} {c : Char} (hp : ∀ t, t.head? ≠ some c → (p t).Failed)
    (hc : c ≠ '\n') (hs : ¬ Unclosed (skip isGap s)) (hne : (skip isGap s).head? ≠ some c) :
    ((do gap; p : Parser α) (s ++ '\n' :: v)).Failed := by
  rw [run_bind, run_gap, skip_isGap_append hs, Outcome.andThen_ok]
  refine hp _ fun hhead => ?_
  cases ht : skip isGap s with
  | nil =>
    rw [ht] at hhead
    exact hc (Option.some.inj hhead).symm
  | cons d t =>
    rw [ht] at hhead hne
    exact hne hhead

theorem settled_of_head {p : Parser α} {c : Char} (hc : c ≠ '/')
    (hp : ∀ t, t.head? ≠ some c → (p t).Failed) : Needs Settled p := by
  refine (Needs.of_failed hp).mono fun s hs => ?_
  obtain ⟨t, rfl⟩ := List.head?_eq_some_iff.mp hs
  exact settled_cons hc

theorem parenArgs_failed (h : s.head? ≠ some '(') : (bare.parenArgs s).Failed := by
  rw [parenArgs, run_bind]
  exact (char_failed h).andThen

/-! ### Arguments -/

theorem settled_expr : Needs Settled bare.expr := by
  rw [bare_expr]
  exact unspaced_assignment.mono fun _ => Unspaced.settled

theorem settled_argument : Needs Settled bare.argument := by
  refine needs_after_here fun pos s e r h => ?_
  rw [run_bind, Outcome.andThen_eq_ok] at h
  obtain ⟨o, mid, ho, h⟩ := h
  rcases optional_eq_ok ho with ⟨_, -, hstar⟩ | ⟨rfl, rfl, -⟩
  · rw [char_eq_ok hstar]
    exact settled_cons (by decide)
  · exact settled_expr h

theorem comma_eq_ok {g : Char → Bool} (h : comma (skipping (skip g)) space s = .ok () r) :
    ∃ t, skip g s = ',' :: t := by
  rw [comma, run_bind, skipping, Outcome.andThen_ok, run_bind, Outcome.andThen_eq_ok] at h
  obtain ⟨_, t, hcomma, -⟩ := h
  exact ⟨t, char_eq_ok hcomma⟩

theorem carries_comma (g h : Char → Bool) :
    Carries ('\n' :: v) n Settled (comma (skipping (skip g)) (skipping (skip h))) :=
  carries_after_skip (.bind_firm (firm_char v (by decide))
    (advances_char ',') fun _ => carries_skip h)
    (settled_char (by decide)).bind

theorem advances_arguments : Advances 0 (sepBy (comma space space) bare.argument) :=
  .sepBy (advances_comma advances_space advances_space) advances_argument

/-- The text behind the last item in brackets: a bracket, perhaps with a comma in front. -/
def Bracket (s : List Char) : Prop :=
  ∃ c t, skip isSpace s = c :: t ∧
    (c = ')' ∨ c = ']' ∨ c = ',' ∧ ∃ t', skip isSpace t = ']' :: t')

theorem Bracket.done (hs : Bracket s) : Done s := by
  obtain ⟨c, t, ht, hc⟩ := hs
  refine .of_space ht ?_
  rcases hc with rfl | rfl | ⟨rfl, -⟩ <;> decide

/-- No argument begins in a gap, or where it leads to no beginning of one. -/
theorem argument_of_skip {c : Char} (hs : skip isSpace s = c :: t)
    (hc : isOpening c = false ∧ c ≠ '\'' ∧ c ≠ '*') : (bare.argument (s ++ r)).Failed := by
  cases s with
  | nil =>
    rw [skip_nil] at hs
    cases hs
  | cons d s =>
    have hd : isSpace d = true ∨ d = '/' ∨ d = c := by
      by_cases hspace : isSpace d = true
      · exact .inl hspace
      · by_cases hslash : d = '/'
        · exact .inr (.inl hslash)
        · rw [skip_neg (by simpa using hspace) hslash] at hs
          cases hs
          exact .inr (.inr rfl)
    rcases hd with hd | rfl | rfl
    · simp only [isSpace, isGap, Bool.or_eq_true, beq_iff_eq] at hd
      rcases hd with ((rfl | rfl) | rfl) | rfl <;>
        exact argument_unopened (by decide) (by decide) (by decide)
    · exact argument_unopened (by decide) (by decide) (by decide)
    · exact argument_unopened hc.1 hc.2.1 hc.2.2

theorem Bracket.argument_failed (hs : Bracket s) : (bare.argument (s ++ r)).Failed := by
  obtain ⟨c, t, ht, hc⟩ := hs
  refine argument_of_skip ht ?_
  rcases hc with rfl | rfl | ⟨rfl, -⟩ <;> decide

theorem Bracket.comma_failed (hs : Bracket s) :
    ((do let _ ← comma space space; bare.argument : Parser Expr) (s ++ '\n' :: v)).Failed := by
  obtain ⟨c, t, ht, hc⟩ := hs
  have hskip : skip isSpace (s ++ '\n' :: v) = c :: (t ++ '\n' :: v) := by
    have hsettled : Settled (skip isSpace s) := by
      rw [ht]
      rcases hc with rfl | rfl | ⟨rfl, -⟩ <;> exact settled_cons (by decide)
    rw [skip_append_settled hsettled, ht]
    rfl
  rw [run_bind, comma, run_bind, run_space, hskip, Outcome.andThen_ok, run_bind]
  rcases hc with rfl | rfl | ⟨rfl, t', ht'⟩
  · exact (char_failed (by simp)).andThen.andThen
  · exact (char_failed (by simp)).andThen.andThen
  · have hsettled : Settled (skip isSpace t) := by
      rw [ht']
      exact settled_cons (by decide)
    rw [run_char, Outcome.andThen_ok, run_space, skip_append_settled hsettled, ht',
      Outcome.andThen_ok]
    exact QueryBlocks.argument_failed (.inr rfl)

/-! ### Closures -/

theorem settled_arrow : Needs Settled (exactly "->") := by
  intro s _ r h
  rw [exactly_eq_ok.mp h]
  exact settled_cons (c := '-') (by decide)

theorem settled_closureParams : Needs Settled closureParams :=
  .sepBy_bind (unspaced_identifier.verify.mono fun _ => Unspaced.settled) fun _ =>
    settled_after_skip settled_arrow.bind

theorem name_of_skip {c : Char} (hs : skip isGap s = c :: t) (hc : isWordStart c = false) :
    (name (s ++ r)).Failed := by
  cases s with
  | nil =>
    rw [skip_nil] at hs
    cases hs
  | cons d s =>
    refine name_failed ?_
    by_contra hd
    have hword : isWordStart d = true := by simpa using hd
    have hun : Unspaced (d :: s) := .of_wordChar (isWordChar_of_isWordStart hword)
    rw [skip_unspaced isBreak_of_isGap hun] at hs
    cases hs
    rw [hc] at hword
    cases hword

theorem carries_closureParams : Carries ('\n' :: v) n Settled closureParams := by
  have hnames : Carries ('\n' :: v) n (fun s => ∃ t, skip isGap s = '-' :: t)
      (sepBy (comma gap gap) name) := by
    refine .sepBy (D := fun _ => True) (firm_name v).carries
      advances_name ?_ (fun _ _ _ _ => trivial) (fun _ _ => trivial) ?_ ?_
    · exact (carries_comma isGap isGap).bind
        (advances_comma advances_gap advances_gap)
        (fun _ => (firm_name v).carries) fun _ _ _ _ h _ =>
          (unspaced_identifier.verify h).settled
    · rintro s ⟨t, ht⟩
      have hskip : skip isGap (s ++ '\n' :: v) = '-' :: (t ++ '\n' :: v) := by
        have hsettled : Settled (skip isGap s) := ht ▸ settled_cons (by decide)
        rw [skip_append_settled hsettled, ht]
        rfl
      rw [run_bind, comma, run_bind, run_gap, hskip, Outcome.andThen_ok, run_bind]
      exact (char_failed (by simp)).andThen.andThen
    · rintro s ⟨t, ht⟩
      exact name_of_skip ht (by decide)
  refine hnames.bind (.sepBy (advances_comma advances_gap advances_gap) advances_name)
    (fun names => ?_) fun names mid b r h _ => ?_
  · refine carries_after_skip (.bind_firm (firm_exactly v (by decide))
      (advances_exactly (by decide)) fun _ => ?_) settled_arrow.bind
    exact (carries_skip isSpace).bind_pure fun _ => ⟨names, rfl⟩
  · rw [run_bind, run_gap, Outcome.andThen_ok, run_bind, Outcome.andThen_eq_ok] at h
    obtain ⟨_, t, harrow, -⟩ := h
    exact ⟨_, exactly_eq_ok.mp harrow⟩

end brackets

/-! ### Operands -/

section operands

variable {v s m t r : List Char} {n : Nat} {α : Type} {cs : List Char} {e : Expr}

/-- The text begins with one of the characters or with a word. -/
def Opens (cs : List Char) (s : List Char) : Prop :=
  ∃ c t, s = c :: t ∧ (c ∈ cs ∨ isWordChar c = true)

namespace Opens

theorem head?_ne {c : Char} (hs : Opens cs s) (hc : c ∉ cs) (hword : isWordChar c = false)
    (r : List Char) : (s ++ r).head? ≠ some c := by
  obtain ⟨d, t, rfl, hd⟩ := hs
  intro h
  cases h
  rcases hd with hd | hd
  · exact hc hd
  · rw [hd] at hword
    cases hword

theorem settled (hs : Opens cs s) (hc : '/' ∉ cs) : Settled s := by
  obtain ⟨c, t, rfl, hd⟩ := hs
  refine settled_cons ?_
  rintro rfl
  rcases hd with hd | hd
  · exact hc hd
  · exact absurd hd (by decide)

theorem of_identifier {w : String} (hw : isIdentifier w = true) : Opens cs (w.toList ++ r) := by
  obtain ⟨c, more, hwl, hc, -⟩ := isIdentifier_iff.mp hw
  exact ⟨c, more ++ r, by rw [hwl]; rfl, .inr (isWordChar_of_isWordStart hc)⟩

/-- An alternative for one more character. -/
theorem add {p q : Parser α} {c : Char} (hp : ∀ s, s.head? ≠ some c → (p s).Failed)
    (hq : Needs (Opens cs) q) : Needs (Opens (c :: cs)) (p <|> q) := by
  refine .orElse ((Needs.of_failed hp).mono fun s hs => ?_) (hq.mono fun s hs => ?_)
  · obtain ⟨t, rfl⟩ := List.head?_eq_some_iff.mp hs
    exact ⟨c, t, rfl, .inl List.mem_cons_self⟩
  · obtain ⟨d, t, rfl, hd⟩ := hs
    exact ⟨d, t, rfl, hd.imp_left (List.mem_cons_of_mem c)⟩

theorem of_keyword {k : String} (hk : isIdentifier k = true) : Needs (Opens cs) (keyword k) := by
  intro s _ r h
  obtain ⟨rfl, -⟩ := keyword_eq_ok h
  exact of_identifier hk

end Opens

theorem opens_number : Needs (Opens cs) number := by
  refine .of_failed fun s hs => number_failed fun c hc => ?_
  obtain ⟨t, rfl⟩ := List.head?_eq_some_iff.mp hc
  by_contra hdigit
  exact hs ⟨c, t, rfl, .inr (isWordChar_of_isDigit (by simpa using hdigit))⟩

theorem opens_wordLiteral : Needs (Opens cs) wordLiteral :=
  (Opens.of_keyword (by decide)).bind.orElse
    ((Opens.of_keyword (by decide)).bind.orElse (Opens.of_keyword (by decide)).bind)

theorem opens_string : Needs (Opens ['"', '\'']) stringLiteral := by
  refine .of_failed fun s hs => ?_
  have hne {c : Char} (hc : c ∈ ['"', '\'']) : s.head? ≠ some c := by
    intro hhead
    obtain ⟨t, rfl⟩ := List.head?_eq_some_iff.mp hhead
    exact hs ⟨c, t, rfl, .inl hc⟩
  exact stringLiteral_failed (hne (by decide)) (hne (by decide))

theorem opens_construction : Needs (Opens cs) bare.construction :=
  needs_after_here fun _ => (Opens.of_keyword (by decide)).bind

theorem opens_nameOrCall : Needs (Opens cs) bare.nameOrCall := by
  refine needs_after_here fun _ => Needs.bind fun s w r h => ?_
  obtain ⟨rfl, hw, -⟩ := name_eq_ok h
  exact .of_identifier (isIdentifier_of_isName hw)

/-- The alternatives for an operand that begins with a digit or a letter. -/
theorem opens_word : Needs (Opens cs) (bare.literal number <|> bare.literal wordLiteral <|>
    bare.construction <|> bare.nameOrCall) :=
  .orElse (needs_after_here fun _ => opens_number.bind)
    (.orElse (needs_after_here fun _ => opens_wordLiteral.bind)
      (opens_construction.orElse opens_nameOrCall))

theorem opens_quoted : Needs (Opens ['"', '\'']) (bare.literal (do return .string (← stringLiteral))
    <|> bare.literal number <|> bare.literal wordLiteral <|> bare.construction <|>
      bare.nameOrCall) :=
  .orElse (needs_after_here fun _ => opens_string.bind.bind) opens_word

theorem opens_primary : Needs (Opens ['(', '[', '\x7b', '"', '\'']) bare.primary :=
  Opens.add (fun _ => parenthesized_failed) (Opens.add (fun _ => listExpr_failed)
    (Opens.add (fun _ => closureExpr_failed) opens_quoted))

/-- The first character tells the alternatives apart. -/
theorem carries_orElse {C : List Char → Prop} {p q : Parser α} {c : Char}
    (hp : Carries ('\n' :: v) n C p) (hq : Carries ('\n' :: v) n C q)
    (hhead : ∀ s, s.head? ≠ some c → (p s).Failed) (hneeds : Needs (Opens cs) q)
    (hc : c ∉ cs ∧ isWordChar c = false) : Carries ('\n' :: v) n C (p <|> q) :=
  hp.orElse hq fun _ _ _ _ _ h _ => hhead _ ((hneeds h).head?_ne hc.1 hc.2 _)

/-! ### Operators -/

theorem operator_eq_ok {op : Parser BinOp} {o : BinOp} (hop : op ∈ assignOp :: ladder)
    (h : op s = .ok o r) : Settled s ∧ ∀ c ∈ s.head?, c ≠ '\n' ∧ c ≠ '(' ∧ c ≠ '\x7b' := by
  simp only [ladder, List.mem_cons, List.not_mem_nil, or_false] at hop
  have hne {t : List Char} (ht : (op t).Failed) : s ≠ t := by
    rintro rfl
    rw [h] at ht
    exact ht
  refine ⟨⟨hne ?_, ?_⟩, fun c hc => ⟨?_, ?_, ?_⟩⟩
  · rcases hop with rfl | rfl | rfl | rfl | rfl | rfl | rfl | rfl <;> trivial
  · rintro ⟨rest, hrest, -⟩
    refine hne ?_ hrest
    rcases hop with rfl | rfl | rfl | rfl | rfl | rfl | rfl | rfl <;> trivial
  all_goals
    rintro rfl
    obtain ⟨t, ht⟩ := List.head?_eq_some_iff.mp hc
    refine hne ?_ ht
    rcases hop with rfl | rfl | rfl | rfl | rfl | rfl | rfl | rfl <;> trivial

theorem firm_operator {op : Parser BinOp} (hop : op ∈ assignOp :: ladder) :
    Firm ('\n' :: v) op := by
  rcases List.mem_cons.mp hop with rfl | hop
  · exact firm_assignOp v
  · exact firm_ladder v hop

theorem advances_operator {op : Parser BinOp} (hop : op ∈ assignOp :: ladder) : Advances 1 op := by
  rcases List.mem_cons.mp hop with rfl | hop
  · exact advances_assignOp
  · exact advances_ladder hop

theorem stillFails_after_gap {p : Parser α} (hp : StillFails ('\n' :: v) p)
    (hs : ¬ Unclosed (skip isGap s)) (h : ((do gap; p : Parser α) s).Failed) :
    ((do gap; p : Parser α) (s ++ '\n' :: v)).Failed := by
  rw [run_bind, run_gap, Outcome.andThen_ok] at h
  rw [run_bind, run_gap, skip_isGap_append hs, Outcome.andThen_ok]
  exact hp h

/-- A gap that may run into the line below: there, too, nothing must be found. -/
theorem stillFails_after_space {p : Parser α} (hp : StillFails ('\n' :: v) p)
    (hbelow : (p (skip isSpace v)).Failed) (hs : ¬ Unclosed (skip isSpace s))
    (h : ((do space; p : Parser α) s).Failed) :
    ((do space; p : Parser α) (s ++ '\n' :: v)).Failed := by
  rw [run_bind, run_space, Outcome.andThen_ok] at h
  rw [run_bind, run_space, skip_append hs, Outcome.andThen_ok]
  split
  · rwa [skip_pos (by decide) (by decide)]
  · exact hp h

section operation

variable {op : Parser BinOp} {f : Option BinOp → Parser α} {a : α}
  (hop : op ∈ assignOp :: ladder)

include hop

/-- An operator ends the operand in front of it; without one nothing is read. -/
theorem done_of_operation {b : α} (h : (Parser.optional (do gap; op) >>= f) s = .ok b r)
    (hnone : f none = pure a) (hr : Done r) : Done s := by
  rw [run_bind, Outcome.andThen_eq_ok] at h
  obtain ⟨o, mid, ho, h⟩ := h
  rcases optional_eq_ok ho with ⟨o', rfl, hread⟩ | ⟨rfl, rfl, -⟩
  · rw [run_bind, run_gap, Outcome.andThen_ok] at hread
    obtain ⟨hsettled, hhead⟩ := operator_eq_ok hop hread
    exact .of_gap hsettled hhead
  · rw [hnone] at h
    cases h
    exact hr

theorem carries_operation (hf : ∀ o, Carries ('\n' :: v) n Done (f (some o)))
    (hnone : f none = pure a) :
    Carries ('\n' :: v) n Done (optional (do gap; op) >>= f) := by
  refine .optional_bind (D := fun _ => True) ?_ (advances_gap.bind fun _ => advances_operator hop)
    hf ?_ (fun _ _ _ _ _ _ => trivial) ?_
  · exact carries_after_skip (firm_operator hop).carries fun s o r h => (operator_eq_ok hop h).1
  · rw [hnone]
    exact .pure a
  · intro s b r hfail h hr
    rw [hnone] at h
    cases h
    exact stillFails_after_gap (fun _ => (firm_operator hop).failed)
      (not_unclosed_isGap hr.closed) hfail

end operation

/-! ### Suffixes -/

theorem settled_signed : Needs Settled bare.signed := by
  refine needs_after_here fun pos s e r h => ?_
  rw [run_bind, Outcome.andThen_eq_ok] at h
  obtain ⟨o, mid, ho, h⟩ := h
  rcases optional_eq_ok ho with ⟨_, -, hsign⟩ | ⟨rfl, rfl, -⟩
  · exact settled_char (by decide) hsign
  · rw [if_neg (by simp), run_bind, Outcome.andThen_eq_ok] at h
    obtain ⟨o, mid', ho, h⟩ := h
    rcases optional_eq_ok ho with ⟨_, -, hsign⟩ | ⟨rfl, rfl, -⟩
    · exact settled_char (by decide) hsign
    · exact (opens_primary.bind h).settled (by decide)

theorem settled_levels (ops : List (Parser BinOp)) : Needs Settled (bare.levels ops) := by
  induction ops with
  | nil => exact settled_signed
  | cons op ops ih => exact ih.bind

theorem castWord_stays (hs : Done s) (h : (castWord s).Failed) :
    (castWord (s ++ '\n' :: v)).Failed :=
  stillFails_after_gap (.bind (firm_keyword v (by decide)) fun _ => .skipping _)
    (not_unclosed_isGap hs.closed) h

theorem dot_eq_ok (h : dot s = .ok () r) : ∃ t, skip isSpace s = '.' :: t := by
  rw [dot, run_bind, run_space, Outcome.andThen_ok, run_bind, Outcome.andThen_eq_ok] at h
  obtain ⟨_, t, hdot, -⟩ := h
  exact ⟨t, char_eq_ok hdot⟩

/-- At the end of the text, a dot would have to stand in the line below. -/
theorem dot_stays (hv : EndsLine ('\n' :: v)) (hs : Done s) (h : (dot s).Failed) :
    (dot (s ++ '\n' :: v)).Failed := by
  have hstill : StillFails ('\n' :: v) (do let _ ← char '.'; notNext (char '.'); gap) :=
    .bind (firm_char v (by decide)) fun _ => .bind (firm_char v (by decide)).notNext fun _ =>
      .skipping _
  obtain ⟨_, he, hdot, -⟩ := hv
  cases he
  refine stillFails_after_space hstill ?_ hs.closed h
  rw [run_bind]
  exact (char_failed hdot).andThen

theorem carries_dot : Carries ('\n' :: v) n Settled dot :=
  carries_after_skip (.bind_firm (firm_char v (by decide))
    (advances_char '.') fun _ => .bind_firm (firm_char v (by decide)).notNext
      (advances_char '.').notNext fun _ => carries_skip isGap) (settled_char (by decide)).bind

theorem castWord_eq_ok (h : castWord s = .ok () r) : ∃ t, skip isGap s = 'a' :: t := by
  rw [castWord, run_bind, run_gap, Outcome.andThen_ok, run_bind, Outcome.andThen_eq_ok] at h
  obtain ⟨_, t, hword, -⟩ := h
  exact ⟨_, (keyword_eq_ok hword).1⟩

theorem carries_castWord : Carries ('\n' :: v) n Settled castWord :=
  carries_after_skip (.bind_firm (firm_keyword v (by decide))
    (advances_keyword (by decide)) fun _ => carries_skip isGap)
    (settled_keyword (by decide)).bind

/-- In front of a suffix an operand has ended; if there is none, nothing is read. -/
theorem done_of_suffix {o : Option Expr} (h : bare.suffix e s = .ok o r) (hr : Done r) :
    Done s := by
  rw [suffix, run_bind, Outcome.andThen_eq_ok] at h
  obtain ⟨found, mid, hfound, h⟩ := h
  rcases optional_eq_ok hfound with ⟨_, rfl, hdot⟩ | ⟨rfl, rfl, hdot⟩
  · obtain ⟨t, ht⟩ := dot_eq_ok hdot
    exact .of_space ht (by decide)
  rw [if_neg (by simp), run_bind, Outcome.andThen_eq_ok] at h
  obtain ⟨found, mid, hfound, h⟩ := h
  rcases optional_eq_ok hfound with ⟨_, rfl, hindex⟩ | ⟨rfl, rfl, hindex⟩
  · obtain rfl := char_eq_ok hindex
    exact .of_space (skip_neg (by decide) (by decide)) (by decide)
  rw [if_neg (by simp), run_bind, Outcome.andThen_eq_ok] at h
  obtain ⟨found, mid, hfound, h⟩ := h
  rcases optional_eq_ok hfound with ⟨_, rfl, hcast⟩ | ⟨rfl, rfl, hcast⟩
  · obtain ⟨t, ht⟩ := castWord_eq_ok hcast
    refine .of_gap ?_ fun c hc => ?_
    · rw [ht]
      exact settled_cons (by decide)
    · rw [ht] at hc
      cases hc
      decide
  · rw [if_neg (by simp)] at h
    cases h
    exact hr

end operands

namespace Rules.Carried

variable {v s m t r : List Char} {n : Nat} {C : List Char → Prop} (hg : Carried v n)

include hg

theorem argument : Carries ('\n' :: v) n Done bare.argument := by
  refine carries_after_here fun pos => ?_
  refine .bind_firm (firm_char v (by decide)).optional (advances_char '*').optional fun star => ?_
  cases star with
  | none => exact hg.expr
  | some _ => exact hg.expr.bind_pure fun e => ⟨_, rfl⟩

theorem separated (g : Char → Bool) :
    Carries ('\n' :: v) n Done (do let _ ← comma (skipping (skip g)) space; bare.argument) :=
  (carries_comma g isSpace).bind (advances_comma (.skipping (skip_suffix g)) advances_space)
    (fun _ => hg.argument) fun _ _ _ _ h _ => settled_argument h

theorem arguments : Carries ('\n' :: v) n Bracket (sepBy (comma space space) bare.argument) := by
  refine .sepBy (D := Done) hg.argument advances_argument (hg.separated isSpace)
    (fun s e r h => ?_) (fun _ => Bracket.done) (fun _ => Bracket.comma_failed)
    fun _ => Bracket.argument_failed
  rw [run_bind, Outcome.andThen_eq_ok] at h
  obtain ⟨_, mid, hcomma, -⟩ := h
  obtain ⟨t, ht⟩ := comma_eq_ok hcomma
  exact .of_space ht (by decide)

theorem parenArgs : Carries ('\n' :: v) (n + 1) C bare.parenArgs := by
  refine .bind_firm_read (firm_char v (by decide)) (advances_char '(') fun _ => ?_
  refine carries_after_skip (hg.arguments.bind advances_arguments
    (fun args => carries_close (by decide) args) fun args mid b r h _ => ?_) ?_
  · exact ⟨')', r, (close_eq_ok h).1, .inl rfl⟩
  · exact .sepBy_bind settled_argument fun args => settled_close (by decide) args

theorem parenthesized : Carries ('\n' :: v) (n + 1) C bare.parenthesized := by
  refine .bind_firm_read (firm_char v (by decide)) (advances_char '(') fun _ => ?_
  refine carries_after_skip (hg.expr.bind advances_expr
    (fun inner => carries_close (by decide) inner) fun inner mid b r h _ => ?_) settled_expr.bind
  exact .of_space (close_eq_ok h).1 (by decide)

/-- A comma behind the last item of a list is read after the items, together with the bracket. -/
theorem listExpr : Carries ('\n' :: v) (n + 1) C bare.listExpr := by
  refine carries_after_here fun pos => ?_
  refine .bind_firm_read (firm_char v (by decide)) (advances_char '[') fun _ => ?_
  have hneeds (items : List Expr) : Needs Settled (do
      let _ ← optional (char ',')
      space
      let _ ← char ']'
      return .list pos items : Parser Expr) := by
    intro s b r h
    rw [run_bind, Outcome.andThen_eq_ok] at h
    obtain ⟨o, mid, ho, h⟩ := h
    rcases optional_eq_ok ho with ⟨_, -, hcomma⟩ | ⟨-, rfl, -⟩
    · exact settled_char (by decide) hcomma
    · exact settled_close (by decide) _ h
  refine carries_after_skip (hg.arguments.bind advances_arguments (fun items => ?_)
    fun items mid b r h _ => ?_) ?_
  · exact carries_after_skip (.bind_firm (firm_char v (by decide)).optional
      (advances_char ',').optional fun _ => carries_close (by decide) _) (hneeds items)
  · rw [run_bind, run_space, Outcome.andThen_ok, run_bind, Outcome.andThen_eq_ok] at h
    obtain ⟨o, mid', ho, h⟩ := h
    have hclose := (close_eq_ok h).1
    rcases optional_eq_ok ho with ⟨_, -, hcomma⟩ | ⟨-, rfl, -⟩
    · exact ⟨',', mid', char_eq_ok hcomma, .inr (.inr ⟨rfl, r, hclose⟩)⟩
    · rw [skip_skip fun _ h => h] at hclose
      exact ⟨']', r, hclose, .inr (.inl rfl)⟩
  · exact .sepBy_bind settled_argument fun items => settled_after_skip (hneeds items)

/-- Statements up to a closing brace. -/
theorem braced {α : Type} (f : List Stmt → α) : Carries ('\n' :: v) n C (do
    let statements ← bare.stmts
    space
    let _ ← char '\x7d'
    return f statements) :=
  hg.stmts.bind advances_stmts (fun ss => carries_close (by decide) (f ss))
    fun _ _ _ r h _ => ⟨r, (close_eq_ok h).1⟩

/-- What a closure holds is read as statements with the line below as well, so its parameters are
still none. -/
theorem closure : Carries ('\n' :: v) (n + 1) C bare.closure := by
  refine carries_after_here fun pos => ?_
  refine .bind_firm_read (firm_char v (by decide)) (advances_char '\x7b') fun _ => ?_
  refine carries_after_skip (.bind (D := fun m => ∃ ss r, bare.stmts m = .ok ss r ∧ Shut r)
    (.orElse (carries_closureParams.mono ?_) (.pure []) ?_)
    (advances_closureParams.orElse (.pure [])) (fun params => hg.braced _) ?_) ?_
  · rintro s ⟨ss, r, h, hr⟩
    exact hr.settled h
  · rintro s _ _ hn - hpure ⟨ss, r, h, hr⟩
    cases hpure
    have happend := hg.stmts hn h hr
    rw [bare_stmts] at happend
    exact closureParams_of_statements happend
  · intro params mid b r h _
    rw [run_bind, Outcome.andThen_eq_ok] at h
    obtain ⟨ss, mid', hss, h⟩ := h
    exact ⟨ss, mid', hss, r, (close_eq_ok h).1⟩
  · intro s b r h
    rw [run_bind, Outcome.andThen_eq_ok] at h
    obtain ⟨params, mid, hparams, h⟩ := h
    rw [run_orElse, Outcome.or_eq_ok] at hparams
    rcases hparams with hparams | ⟨-, hparams⟩
    · exact settled_closureParams hparams
    · cases hparams
      rw [run_bind, Outcome.andThen_eq_ok] at h
      obtain ⟨ss, mid', hss, h⟩ := h
      exact Shut.settled ⟨r, (close_eq_ok h).1⟩ hss

theorem closureExpr : Carries ('\n' :: v) (n + 1) C bare.closureExpr :=
  carries_after_here fun _ => hg.closure.bind_pure fun ⟨_, _⟩ => ⟨_, rfl⟩

/-- At the end of an operand no arguments are found in the line below either. -/
theorem callArgs : Carries ('\n' :: v) (n + 1) Done bare.callArgs := by
  refine .bind (D := fun m => ¬ Unclosed (skip isGap m) ∧ (skip isGap m).head? ≠ some '(')
    (.optional (carries_after_skip hg.parenArgs ?_) ?_)
    (advances_gap.bind fun _ => advances_parenArgs).optional (fun args => ?_) ?_
  · exact settled_of_head (by decide) fun _ => parenArgs_failed
  · rintro s ⟨hopen, hparen⟩ -
    exact failed_after_gap (fun _ => parenArgs_failed) (by decide) hopen hparen
  · refine .bind_pure (.optional (carries_after_skip hg.closureExpr ?_) fun s hs _ => ?_) ?_
    · exact settled_of_head (by decide) fun _ => closureExpr_failed
    · exact failed_after_gap (fun _ => closureExpr_failed) (by decide)
        (not_unclosed_isGap hs.closed) fun h => (hs.call _ h).2 rfl
    · intro last
      cases last with
      | none => exact ⟨_, rfl⟩
      | some last => exact ⟨_, rfl⟩
  · intro args mid b r h hr
    rw [run_bind, Outcome.andThen_eq_ok] at h
    obtain ⟨last, mid', hlast, h⟩ := h
    rcases optional_eq_ok hlast with ⟨e, rfl, he⟩ | ⟨rfl, rfl, -⟩
    · rw [run_bind, run_gap, Outcome.andThen_ok] at he
      have hhead := Needs.of_failed (fun _ => closureExpr_failed) he
      obtain ⟨t, ht⟩ := List.head?_eq_some_iff.mp hhead
      rw [ht]
      exact ⟨(settled_cons (by decide)).2, by simp⟩
    · cases h
      exact ⟨not_unclosed_isGap hr.closed, fun h => (hr.call _ h).1 rfl⟩

theorem construction : Carries ('\n' :: v) (n + 1) C bare.construction := by
  refine carries_after_here fun pos => ?_
  refine .bind_firm (firm_keyword v (by decide)) (advances_keyword (by decide)) fun _ => ?_
  refine carries_after_gap1 (.bind_firm (firm_qualifiedName v) advances_qualifiedName
    fun type => ?_) settled_qualifiedName.bind
  exact carries_after_skip (hg.parenArgs.bind_pure fun args => ⟨_, rfl⟩)
    (settled_of_head (by decide) fun _ => parenArgs_failed).bind

theorem nameOrCall : Carries ('\n' :: v) (n + 1) Done bare.nameOrCall := by
  refine carries_after_here fun pos => ?_
  refine .bind_firm (firm_name v) advances_name fun word => ?_
  refine hg.callArgs.bind_pure fun args => ?_
  cases args with
  | none => exact ⟨_, rfl⟩
  | some args => exact ⟨_, rfl⟩

theorem primary : Carries ('\n' :: v) (n + 1) Done bare.primary := by
  have hliteral {p : Parser Literal} (hp : Firm ('\n' :: v) p) :
      Firm ('\n' :: v) (bare.literal p) := (firm_here v).bind fun _ => hp.bind fun _ => .pure _
  have hfirm {p : Parser Literal} {q : Parser Expr} (hp : Firm ('\n' :: v) p)
      (hq : Carries ('\n' :: v) (n + 1) Done q) :
      Carries ('\n' :: v) (n + 1) Done (bare.literal p <|> q) :=
    (hliteral hp).carries.orElse hq fun _ _ _ _ hfail _ _ => (hliteral hp).failed hfail
  have hnamed : Carries ('\n' :: v) (n + 1) Done (bare.construction <|> bare.nameOrCall) := by
    refine hg.construction.orElse hg.nameOrCall fun s a r _ _ h _ => ?_
    rw [Rules.nameOrCall, run_bind, here, Outcome.andThen_ok, run_bind,
      Outcome.andThen_eq_ok] at h
    obtain ⟨w, m, hname, -⟩ := h
    obtain ⟨hs, hn, hends⟩ := name_eq_ok ((firm_name v).ok hname)
    rw [hs]
    refine construction_failed (isIdentifier_of_isName hn) hends ?_
    rintro rfl
    exact absurd hn (by decide)
  have hword := hfirm (firm_number v) (hfirm (firm_wordLiteral v) hnamed)
  have hquoted : Carries ('\n' :: v) (n + 1) Done
      (bare.literal (do return .string (← stringLiteral)) <|> bare.literal number <|>
        bare.literal wordLiteral <|> bare.construction <|> bare.nameOrCall) := by
    refine .orElse (carries_after_here fun pos => ?_) hword fun s a r _ _ h _ => ?_
    · exact ((carries_stringLiteral _).bind_pure fun text => ⟨_, rfl⟩).bind_pure fun value =>
        ⟨_, rfl⟩
    · have hopens : Opens [] s := opens_word h
      refine literal_failed ?_
      rw [run_bind]
      exact (stringLiteral_failed (hopens.head?_ne (by simp) (by decide) _)
        (hopens.head?_ne (by simp) (by decide) _)).andThen
  have hopens := Opens.add (fun _ => closureExpr_failed (g := bare)) opens_quoted
  have hbraced := carries_orElse hg.closureExpr hquoted (fun _ => closureExpr_failed) opens_quoted
    (by decide)
  have hlisted := carries_orElse hg.listExpr hbraced (fun _ => listExpr_failed) hopens (by decide)
  exact carries_orElse hg.parenthesized hlisted (fun _ => parenthesized_failed)
    (Opens.add (fun _ => listExpr_failed) hopens) (by decide)

variable (hv : EndsLine ('\n' :: v))

include hv

theorem suffix (e : Expr) : Carries ('\n' :: v) n Done (bare.suffix e) := by
  have hcast : Carries ('\n' :: v) n Done (do
      if (← optional castWord).isSome then
        return some (.cast e.pos e (← qualifiedName))
      else
        return none : Parser (Option Expr)) := by
    refine .optional_bind carries_castWord advances_castWord
      (fun _ => ?_) (.pure none) (fun _ mid b r h _ => ?_) fun s b r hfail h hr => ?_
    · exact (firm_qualifiedName v).carries.bind_pure fun type => ⟨_, rfl⟩
    · exact settled_qualifiedName.bind h
    · cases h
      exact castWord_stays hr hfail
  have hindex : Carries ('\n' :: v) n Done (do
      if (← optional (char '[')).isSome then
        space
        let index ← bare.expr
        space
        let _ ← char ']'
        return some (join e .index index)
      else if (← optional castWord).isSome then
        return some (.cast e.pos e (← qualifiedName))
      else
        return none : Parser (Option Expr)) := by
    refine .optional_bind (D := fun _ => True) (firm_char v (by decide)).carries
      (advances_char '[') (fun _ => ?_) hcast
      (fun _ _ _ _ _ _ => trivial) fun _ _ _ hfail _ _ => (firm_char v (by decide)).failed hfail
    refine carries_after_skip (hg.expr.bind advances_expr (fun index => carries_close (by decide) _)
      fun index mid b r h _ => ?_) settled_expr.bind
    exact .of_space (close_eq_ok h).1 (by decide)
  refine .optional_bind carries_dot advances_dot (fun _ => ?_) hindex
    (fun _ mid b r h _ => ?_) fun s b r hfail h hr => ?_
  · refine .bind_firm (firm_identifier v) advances_identifier fun w => ?_
    refine (hg.callArgs.restrict (Nat.le_succ n)).bind_pure fun args => ?_
    cases args with
    | none => exact ⟨_, rfl⟩
    | some args => exact ⟨_, rfl⟩
  · exact (unspaced_identifier.bind h).settled
  · have hsuffix : bare.suffix e s = .ok b r := by
      rw [Rules.suffix, run_bind, optional_failed hfail]
      exact h
    exact dot_stays hv (done_of_suffix hsuffix hr) hfail

theorem postfixed : Carries ('\n' :: v) (n + 1) Done bare.postfixed := by
  have hback (e : Expr) (s : List Char) (o : Option Expr) (r : List Char) :
      bare.suffix e s = .ok o r → Done r → Done s := done_of_suffix
  refine hg.primary.bind_read advances_primary (fun first => ?_) fun first mid e r h hr => ?_
  · exact .extend (hg.suffix hv) hback first
  · exact Carries.start_of_extend hback h hr

theorem signed : Carries ('\n' :: v) (n + 1) Done bare.signed := by
  refine carries_after_here fun pos => ?_
  refine .optional_read (firm_char v (by decide)) (advances_char '!') (fun _ => ?_) ?_
  · refine carries_after_skip (hg.unary.bind_pure fun e => ⟨_, rfl⟩) ?_
    rw [bare_unary]
    exact settled_signed.bind
  · refine .optional_read (firm_char v (by decide)) (advances_char '-') (fun _ => ?_) ?_
    · exact hg.unary.bind_pure fun e => ⟨_, rfl⟩
    · exact hg.postfixed hv

theorem levels {ops : List (Parser BinOp)} (hops : ∀ op ∈ ops, op ∈ ladder) :
    Carries ('\n' :: v) (n + 1) Done (bare.levels ops) := by
  induction ops with
  | nil => exact hg.signed hv
  | cons op ops ih =>
    have hop : op ∈ assignOp :: ladder := List.mem_cons_of_mem _ (hops op List.mem_cons_self)
    have hmore : ∀ op' ∈ ops, op' ∈ ladder := fun op' h => hops op' (List.mem_cons_of_mem op h)
    have hback (left : Expr) (s : List Char) (o : Option Expr) (r : List Char) :
        operation op (bare.levels ops) left s = .ok o r → Done r → Done s :=
      fun h hr => done_of_operation hop h rfl hr
    have hoperand : Carries ('\n' :: v) n Done (bare.levels ops) :=
      (ih hmore).restrict (Nat.le_succ n)
    refine (ih hmore).bind_read (advances_levels fun op' h => advances_ladder (hmore op' h))
      (fun first => .extend (fun left => ?_) hback first) fun first mid e r h hr => ?_
    · refine carries_operation hop (fun o => ?_) rfl
      exact carries_after_skip (hoperand.bind_pure fun right => ⟨_, rfl⟩) (settled_levels ops).bind
    · exact Carries.start_of_extend hback h hr

theorem assignment : Carries ('\n' :: v) (n + 1) Done bare.assignment := by
  refine (hg.levels hv fun _ h => h).bind_read (advances_levels fun _ => advances_ladder)
    (fun left => ?_) fun left mid e r h hr => ?_
  · refine carries_operation List.mem_cons_self (fun op => ?_) rfl
    exact carries_after_skip (hg.expr.bind_pure fun right => ⟨_, rfl⟩) settled_expr.bind
  · exact done_of_operation List.mem_cons_self h rfl hr

end Rules.Carried

end QueryBlocks
