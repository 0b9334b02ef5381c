import QueryBlocks.Proofs.Parser.Parallel
import QueryBlocks.Proofs.Script.Advance

/-!
Texts that the lexical rules do not tell apart. Two texts are read side by side and are at the same
place before every word; at the end of a line one of them may be a character ahead. Each lexical
rule then ends alike on both.
-/
namespace QueryBlocks

open QueryBlocks.Parser QueryBlocks.Token QueryBlocks.Rules

def isLineEnd (c : Char) : Bool := c == '\n' || c == '\r'

/-- What two texts begin with: nothing, the same character, or the end of a line on both sides. -/
inductive Fronts (aligned : TextRel) : List Char → List Char → Prop
  | nil : Fronts aligned [] []
  | char {c : Char} {s t : List Char} (hc : isLineEnd c = false)
    (here : aligned (c :: s) (c :: t)) (next : aligned s t) : Fronts aligned (c :: s) (c :: t)
  | lineEnd {c d : Char} {s t : List Char} (hc : isLineEnd c = true) (hd : isLineEnd d = true) :
    Fronts aligned (c :: s) (d :: t)

/-- A relation of texts that the lexical rules respect. -/
structure Pairing where
  aligned : TextRel
  /-- Aligned, or at the end of the same line. -/
  loose : TextRel
  loose_of_aligned : ∀ {s t}, aligned s t → loose s t
  fronts : ∀ {s t}, loose s t → Fronts aligned s t
  skip_gap : ∀ {s t}, loose s t → loose (skip isGap s) (skip isGap t)
  /-- Behind a gap both statements are over, or none is and the texts are aligned. -/
  ended_gap : ∀ {s t}, loose s t → Rules.ended (skip isGap s) = Rules.ended (skip isGap t) ∧
    (Rules.ended (skip isGap s) = false → aligned (skip isGap s) (skip isGap t))
  skip_space : ∀ {s t}, loose s t → aligned (skip isSpace s) (skip isSpace t)
  skip_break : ∀ {s t}, loose s t → aligned (skip isBreak s) (skip isBreak t)
  readQuoted : ∀ {s t mark}, isLineEnd mark = false → aligned s t →
    Option.Rel (fun a b => a.1 = b.1 ∧ aligned a.2 b.2) (Text.readQuoted mark s)
      (Text.readQuoted mark t)

/-- A text is in step with itself. -/
def Pairing.same : Pairing where
  aligned := Eq
  loose := Eq
  loose_of_aligned h := h
  fronts := by
    rintro s _ rfl
    cases s with
    | nil => exact .nil
    | cons c s =>
      cases hc : isLineEnd c with
      | false => exact .char hc rfl rfl
      | true => exact .lineEnd hc hc
  skip_gap h := h ▸ rfl
  ended_gap h := by
    subst h
    exact ⟨rfl, fun _ => rfl⟩
  skip_space h := h ▸ rfl
  skip_break h := h ▸ rfl
  readQuoted := by
    rintro s _ mark _ rfl
    cases Text.readQuoted mark s with
    | none => exact .none
    | some found => exact .some ⟨rfl, rfl⟩

/-- On aligned texts in particular. -/
theorem Parser.Parallel.reads {π : Pairing} {α β : Type} {k n : Nat} {R : TextRel} {φ : α → β}
    {p : Parser α} {q : Parser β} (h : Parallel π.loose π.loose R φ k n p q) :
    Parallel π.loose π.aligned R φ k n p q :=
  h.mono π.loose_of_aligned id

namespace Pairing

variable (π : Pairing) {α β : Type} {k n : Nat}

/-- Both parsers begin and end on aligned texts. -/
abbrev Reads (φ : α → β) (k n : Nat) (p : Parser α) (q : Parser β) : Prop :=
  Parallel π.loose π.aligned π.aligned φ k n p q

/-- Both parsers may begin at the end of a line, and end on aligned texts. -/
abbrev Starts (φ : α → β) (k n : Nat) (p : Parser α) (q : Parser β) : Prop :=
  Parallel π.loose π.loose π.aligned φ k n p q

/-- A lexical rule that takes the same from both texts. -/
abbrev Takes (k n : Nat) (p : Parser α) : Prop := π.Starts id k n p p

variable {π}

/-- The value is replaced. -/
theorem Takes.giving {p : Parser α} (h : π.Takes k n p) (b : β) :
    π.Takes k n (do let _ ← p; return b) :=
  h.bind_left fun _ => .of_eq rfl

/-- Something must not follow. -/
theorem Takes.unless {p : Parser α} {stop : Parser β} (h : π.Takes k n p)
    (hstop : π.Takes 1 n stop) : π.Takes k n (do let _ ← p; notNext stop) :=
  h.bind_left fun _ => hstop.reads.notNext π.loose_of_aligned

/-- No character of a class ends a line. -/
def IsInline (good : Char → Bool) : Prop := ∀ c, isLineEnd c = true → good c = false

theorem isInline_iff {good : Char → Bool} :
    IsInline good ↔ good '\n' = false ∧ good '\r' = false := by
  constructor
  · intro h
    exact ⟨h '\n' rfl, h '\r' rfl⟩
  · rintro ⟨hn, hr⟩ c hc
    rcases Bool.or_eq_true _ _ ▸ hc with hc | hc
    · rw [beq_iff_eq.mp hc, hn]
    · rw [beq_iff_eq.mp hc, hr]

theorem takes_satisfy (good : Char → Bool) (hgood : good '\n' = false ∧ good '\r' = false) :
    π.Takes 1 n (satisfy good) := by
  refine .of_advances (.satisfy good) fun s t hst => ?_
  cases π.fronts hst with
  | nil => exact .fail hst
  | @char c s t hc here next =>
    unfold satisfy
    by_cases hg : good c
    · simp only [hg, if_true]
      exact .ok rfl next
    · simp only [hg]
      exact .fail hst
  | lineEnd hc hd =>
    have hinline := isInline_iff.mpr hgood
    simp only [satisfy, hinline _ hc, hinline _ hd]
    exact .fail hst

theorem takes_char (c : Char) (hc : isLineEnd c = false) : π.Takes 1 n (char c) := by
  apply takes_satisfy
  simp only [isLineEnd, Bool.or_eq_false_iff, beq_eq_false_iff_ne] at hc
  exact ⟨beq_eq_false_iff_ne.mpr hc.1.symm, beq_eq_false_iff_ne.mpr hc.2.symm⟩

theorem takes_space : π.Takes 0 n space :=
  .of_advances advances_space fun _ _ hst => .ok rfl (π.skip_space hst)

theorem takes_breaks : π.Takes 0 n breaks :=
  .of_advances advances_breaks fun _ _ hst => .ok rfl (π.skip_break hst)

theorem parallel_gap : Parallel π.loose π.loose π.loose id 0 n gap gap :=
  .of_advances advances_gap fun _ _ hst => .ok rfl (π.skip_gap hst)

theorem parallel_gap1 : Parallel π.loose π.loose π.loose id 1 n gap1 gap1 :=
  (takes_satisfy _ (by decide)).bind_left fun _ => parallel_gap.reads

/-- The characters at the front that belong to a class are the same, and so is where they end. -/
theorem takeWhile_dropWhile (good : Char → Bool) (hgood : IsInline good) {s t : List Char}
    (hst : π.aligned s t) :
    s.takeWhile good = t.takeWhile good ∧ π.aligned (s.dropWhile good) (t.dropWhile good) := by
  induction s generalizing t with
  | nil =>
    cases π.fronts (π.loose_of_aligned hst)
    exact ⟨rfl, hst⟩
  | cons c s ih =>
    cases π.fronts (π.loose_of_aligned hst) with
    | char hc here next =>
      obtain ⟨htake, hdrop⟩ := ih next
      by_cases hg : good c
      · simpa [List.takeWhile_cons, List.dropWhile_cons, hg, htake] using hdrop
      · simpa [List.takeWhile_cons, List.dropWhile_cons, hg] using here
    | lineEnd hc hd =>
      simpa [List.takeWhile_cons, List.dropWhile_cons, hgood _ hc, hgood _ hd] using hst

theorem beq_of_lineEnd {c d : Char} (hc : isLineEnd c = false) (hd : isLineEnd d = true) :
    (c == d) = false := by
  rw [beq_eq_false_iff_ne]
  rintro rfl
  simp [hc] at hd

theorem isPrefixOf? {w s t : List Char} (hw : ∀ c ∈ w, isLineEnd c = false)
    (hst : π.aligned s t) : Option.Rel π.aligned (w.isPrefixOf? s) (w.isPrefixOf? t) := by
  induction w generalizing s t with
  | nil => exact .some hst
  | cons c w ih =>
    cases π.fronts (π.loose_of_aligned hst) with
    | nil => exact .none
    | @char d s t hd here next =>
      by_cases hcd : c == d
      · simp only [List.isPrefixOf?, hcd, if_true]
        exact ih (fun d hd => hw d (List.mem_cons_of_mem c hd)) next
      · simp only [List.isPrefixOf?, hcd]
        exact .none
    | lineEnd hd he =>
      have hc := hw c List.mem_cons_self
      simp only [List.isPrefixOf?, beq_of_lineEnd hc hd, beq_of_lineEnd hc he]
      exact .none

/-- A word of at least one character that runs over no line. -/
def isPlain (word : String) : Bool := !word.toList.isEmpty && word.toList.all fun c => !isLineEnd c

theorem takes_exactly {word : String} (hw : isPlain word = true) : π.Takes 1 n (exactly word) := by
  simp only [isPlain, Bool.and_eq_true, Bool.not_eq_true', List.isEmpty_eq_false_iff,
    List.all_eq_true] at hw
  refine .of_advances (advances_exactly (List.length_pos_iff.mpr hw.1)) fun s t hst => ?_
  unfold exactly
  cases π.fronts hst with
  | nil =>
    obtain ⟨c, w, hcw⟩ := List.exists_cons_of_ne_nil hw.1
    rw [hcw]
    exact .fail hst
  | @char c s t hc here next =>
    have hrel := isPrefixOf? hw.2 here
    generalize word.toList.isPrefixOf? (c :: s) = r, word.toList.isPrefixOf? (c :: t) = r' at hrel
    cases hrel with
    | none => exact .fail hst
    | some h => exact .ok rfl h
  | @lineEnd d e s t hd he =>
    obtain ⟨c, w, hcw⟩ := List.exists_cons_of_ne_nil hw.1
    have hc := hw.2 c (hcw ▸ List.mem_cons_self)
    simp only [hcw, List.isPrefixOf?, beq_of_lineEnd hc hd, beq_of_lineEnd hc he]
    exact .fail hst

theorem takes_keyword {word : String} (hw : isPlain word = true) : π.Takes 1 n (keyword word) :=
  (takes_exactly hw).unless (takes_satisfy isWordChar (by decide))

theorem reads_wordRest : π.Reads id 0 n wordRest wordRest := by
  refine .of_advances advances_wordRest fun s t hst => ?_
  obtain ⟨htake, hdrop⟩ := takeWhile_dropWhile isWordChar
    (isInline_iff.mpr (by decide)) hst
  exact .ok htake.symm hdrop

theorem takes_identifier : π.Takes 1 n identifier :=
  (takes_satisfy _ (by decide)).bind_left fun _ => reads_wordRest.bind fun _ => .of_eq rfl

theorem takes_name : π.Takes 1 n name := takes_identifier.verify id

theorem takes_qualifiedName : π.Takes 1 n qualifiedName := by
  refine takes_identifier.bind_left fun first => ?_
  have hmore : π.Reads id 1 n (do let _ ← char '.'; identifier) (do let _ ← char '.'; identifier) :=
    (takes_char '.' rfl).reads.bind_left fun _ => takes_identifier.reads.weaken (Nat.zero_le _)
  exact hmore.many.bind fun more => .of_eq (by simp)

theorem takes_typeName : π.Takes 1 n typeName := takes_qualifiedName.verify id

theorem takes_modifier : π.Takes 1 n modifier := takes_identifier.verify id

theorem takes_stringLiteral : π.Takes 1 n stringLiteral := by
  refine .of_advances advances_stringLiteral fun s t hst => ?_
  have hfinish {mark : Char} {s t : List Char} (hmark : isLineEnd mark = false)
      (hwhole : π.loose (mark :: s) (mark :: t)) (hst : π.aligned s t) :
      (stringLiteral.finish mark s).Alike π.loose π.aligned id (stringLiteral.finish mark t) := by
    have hread := π.readQuoted hmark hst
    unfold stringLiteral.finish
    generalize Text.readQuoted mark s = found, Text.readQuoted mark t = found' at hread
    cases hread with
    | none => exact .fail hwhole
    | some h => exact .ok (by simp [h.1]) h.2
  have hother {c : Char} (s : List Char) (hdouble : c ≠ '"') (hsingle : c ≠ '\'') :
      stringLiteral (c :: s) = .fail (c :: s) := by
    unfold stringLiteral
    split
    · rename_i heq
      exact absurd (List.cons.inj heq).1 hdouble
    · rename_i heq
      exact absurd (List.cons.inj heq).1 hsingle
    · rfl
  cases π.fronts hst with
  | nil => exact .fail hst
  | @char c s t hc here next =>
    by_cases hdouble : c = '"'
    · subst hdouble
      exact hfinish hc hst next
    · by_cases hsingle : c = '\''
      · subst hsingle
        exact hfinish hc hst next
      · rw [hother s hdouble hsingle, hother t hdouble hsingle]
        exact .fail hst
  | @lineEnd c d s t hc hd =>
    have hmark {c mark : Char} (hc : isLineEnd c = true) (hm : isLineEnd mark = false) :
        c ≠ mark := by
      rintro rfl
      simp [hm] at hc
    rw [hother s (hmark hc rfl) (hmark hc rfl), hother t (hmark hd rfl) (hmark hd rfl)]
    exact .fail hst

theorem reads_digits : π.Reads id 1 n digits digits := by
  refine .of_advances advances_digits fun s t hst => ?_
  obtain ⟨htake, hdrop⟩ := takeWhile_dropWhile Char.isDigit
    (isInline_iff.mpr (by decide)) hst
  unfold digits
  rw [htake]
  split
  · exact .fail (π.loose_of_aligned hst)
  · exact .ok rfl hdrop

theorem reads_number : π.Reads id 1 n number number := by
  refine Parallel.verify ?_ π.loose_of_aligned
  refine reads_digits.bind_left fun whole => ?_
  have hfraction : π.Reads id 0 n (do let _ ← char '.'; digits) (do let _ ← char '.'; digits) :=
    (takes_char '.' rfl).reads.bind fun _ => reads_digits.weaken (Nat.zero_le _)
  refine (hfraction.optional id).bind fun fraction => ?_
  refine ((takes_satisfy _ (by decide)).reads.notNext π.loose_of_aligned).bind fun _ => ?_
  cases fraction with
  | none => exact .of_eq rfl
  | some fraction => exact .of_eq rfl

theorem takes_wordLiteral : π.Takes 1 n wordLiteral :=
  ((takes_keyword (by decide)).giving _).orElse
    (((takes_keyword (by decide)).giving _).orElse ((takes_keyword (by decide)).giving _))

/-- A look ahead that succeeds has seen a character, so the texts are aligned. -/
theorem takes_ahead (good : Char → Bool) (hgood : good '\n' = false ∧ good '\r' = false) :
    π.Takes 0 n (ahead (satisfy good)) := by
  refine .of_advances (Advances.satisfy good).notNext.notNext fun s t hst => ?_
  have hmiss {s : List Char} (h : satisfy good s = .fail s) :
      ahead (satisfy good) s = .fail s := by
    simp [ahead, notNext, h]
  cases π.fronts hst with
  | nil =>
    rw [hmiss rfl]
    exact .fail hst
  | @char c s t hc here next =>
    by_cases hg : good c
    · have hhit (u : List Char) : satisfy good (c :: u) = .ok c u := by simp [satisfy, hg]
      rw [ahead_ok (hhit s), ahead_ok (hhit t)]
      exact .ok rfl here
    · rw [hmiss (by simp [satisfy, hg]), hmiss (by simp [satisfy, hg])]
      exact .fail hst
  | lineEnd hc hd =>
    have hinline := isInline_iff.mpr hgood
    rw [hmiss (by simp [satisfy, hinline _ hc]), hmiss (by simp [satisfy, hinline _ hd])]
    exact .fail hst

theorem takes_startsArgument : π.Takes 0 n startsArgument :=
  (((takes_keyword (by decide)).orElse ((takes_keyword (by decide)).orElse
    (takes_keyword (by decide)))).notNext id).bind fun _ => takes_ahead _ (by decide)

section operators

theorem takes_sign {p : Parser α} {stop : Parser β} (hp : π.Takes 1 n p) (hstop : π.Takes 1 n stop)
    (op : BinOp) : π.Takes 1 n (do let _ ← p; notNext stop; return op) :=
  hp.bind_left fun _ => (hstop.reads.notNext π.loose_of_aligned).bind fun _ => .of_eq rfl

theorem takes_assignOp : π.Takes 1 n assignOp :=
  ((takes_exactly (by decide)).giving _).orElse (((takes_exactly (by decide)).giving _).orElse
    (takes_sign (takes_char '=' rfl) (takes_char '=' rfl) _))

theorem takes_relationOp : π.Takes 1 n relationOp :=
  ((takes_exactly (by decide)).giving _).orElse (((takes_exactly (by decide)).giving _).orElse
    ((takes_sign (takes_char '<' rfl) (takes_char '<' rfl) _).orElse
      (((takes_char '>' rfl).giving _).orElse (((takes_keyword (by decide)).giving _).orElse
        ((takes_keyword (by decide)).giving _)))))

theorem takes_ladder {op : Parser BinOp} (h : op ∈ ladder) : π.Takes 1 n op := by
  simp only [ladder, List.mem_cons, List.not_mem_nil, or_false] at h
  rcases h with rfl | rfl | rfl | rfl | rfl | rfl | rfl
  · exact (takes_exactly (by decide)).giving _
  · exact (takes_exactly (by decide)).giving _
  · exact ((takes_exactly (by decide)).giving _).orElse ((takes_exactly (by decide)).giving _)
  · exact takes_relationOp
  · exact takes_sign (takes_exactly (by decide)) (takes_char '=' rfl) _
  · exact (takes_sign (takes_char '+' rfl) (takes_satisfy _ (by decide)) _).orElse
      (takes_sign (takes_char '-' rfl) (takes_satisfy _ (by decide)) _)
  · exact (takes_sign (takes_char '*' rfl) (takes_char '=' rfl) _).orElse
      ((takes_sign (takes_char '/' rfl) (takes_satisfy _ (by decide)) _).orElse
        (takes_sign (takes_char '%' rfl) (takes_char '=' rfl) _))

end operators

section parts

/-- A comma with gaps that may run over lines. -/
theorem takes_comma_space : π.Takes 1 n (comma space space) :=
  takes_space.bind fun _ => (takes_char ',' rfl).reads.bind_left fun _ => takes_space.reads

theorem takes_comma_gap_space : π.Takes 1 n (comma gap space) :=
  parallel_gap.bind fun _ => (takes_char ',' rfl).bind_left fun _ => takes_space.reads

theorem reads_closureParams : π.Reads id 0 n closureParams closureParams := by
  have hcomma : Parallel π.loose π.aligned π.loose id 1 n (comma gap gap) (comma gap gap) :=
    parallel_gap.reads.bind fun _ => (takes_char ',' rfl).bind_left fun _ =>
      parallel_gap.reads
  refine (Parallel.sepBy hcomma takes_name π.loose_of_aligned).bind fun names => ?_
  refine parallel_gap.reads.bind fun _ => ?_
  refine (takes_exactly (by decide)).bind fun _ => takes_space.reads.bind fun _ => .of_eq (by simp)

theorem parallel_dot : Parallel π.loose π.loose π.loose id 1 n dot dot :=
  takes_space.bind fun _ => (takes_char '.' rfl).reads.bind_left fun _ =>
    ((takes_char '.' rfl).reads.notNext π.loose_of_aligned).bind fun _ =>
      parallel_gap.reads

theorem parallel_castWord : Parallel π.loose π.loose π.loose id 1 n castWord castWord :=
  parallel_gap.bind fun _ => (takes_keyword (by decide)).bind_left fun _ =>
    parallel_gap.reads

theorem parallel_statementEnd :
    Parallel π.loose π.loose π.loose id 0 n statementEnd statementEnd := by
  refine .of_advances advances_statementEnd fun s t hst => ?_
  have hrun (s : List Char) : statementEnd s =
      if ended (skip isGap s) then .ok () (skip isGap s) else .stop (skip isGap s) := by
    simp only [statementEnd, gap, skipping, run_bind, Outcome.andThen_ok, remaining]
    split <;> rfl
  rw [hrun, hrun, (π.ended_gap hst).1]
  split
  · exact .ok rfl (π.skip_gap hst)
  · exact .stop (π.skip_gap hst)

/-- Behind `return` a value is read only if the statement goes on; the texts are aligned then. -/
theorem takes_value : π.Takes 1 n
    (do gap1; if ended (← remaining) then fail else return : Parser Unit) := by
  refine .of_advances advances_value fun s t hst => ?_
  have hrun (u : List Char) : (do gap1; if ended (← remaining) then fail else return :
      Parser Unit) u = match satisfy (fun c => c == ' ' || c == '\t') u with
        | .ok _ rest =>
          if ended (skip isGap rest) then .fail (skip isGap rest) else .ok () (skip isGap rest)
        | .fail place => .fail place
        | .stop place => .stop place := by
    simp only [gap1, run_bind]
    cases satisfy (fun c => c == ' ' || c == '\t') u with
    | ok c rest =>
      simp only [Outcome.andThen_ok, gap, skipping, run_bind, remaining]
      cases ended (skip isGap rest) <;> rfl
    | fail => rfl
    | stop => rfl
  have hblank : π.Takes 1 (t.length + 1) (satisfy fun c => c == ' ' || c == '\t') :=
    takes_satisfy _ (by decide)
  have hfirst := (hblank s t hst (Nat.lt_succ_self _)).1
  rw [hrun, hrun]
  generalize satisfy (fun c => c == ' ' || c == '\t') s = o,
    satisfy (fun c => c == ' ' || c == '\t') t = o' at hfirst
  cases hfirst with
  | @ok c d rest rest' hb hrest =>
    obtain ⟨hended, haligned⟩ := π.ended_gap (π.loose_of_aligned hrest)
    simp only [← hended]
    cases he : ended (skip isGap rest) with
    | true => exact .fail (π.skip_gap (π.loose_of_aligned hrest))
    | false => exact .ok rfl (haligned he)
  | fail h => exact .fail h
  | stop h => exact .stop h

theorem takes_declaredType : π.Takes 1 n declaredType := by
  refine ((takes_keyword (by decide)).giving _).orElse ?_
  refine takes_typeName.bind_left fun type => ?_
  refine ((takes_exactly (by decide)).reads.optional id).bind fun array => ?_
  cases array <;> exact .of_eq rfl

theorem parallel_typeAhead : Parallel π.loose π.loose π.loose id 1 n typeAhead typeAhead :=
  takes_declaredType.bind_left fun _ =>
    parallel_gap1.reads.bind fun _ => .of_eq rfl

theorem takes_initMark : π.Takes 1 n initMark :=
  parallel_gap.bind fun _ => (takes_char '=' rfl).bind_left fun _ =>
    ((takes_char '=' rfl).reads.notNext π.loose_of_aligned).bind fun _ => takes_space.reads

theorem takes_elseWord : π.Takes 1 n elseWord :=
  takes_space.bind fun _ => (takes_keyword (by decide)).reads.bind_left fun _ => takes_space.reads

theorem parallel_modifiers : Parallel π.loose π.loose π.loose id 0 n modifiers modifiers := by
  have hround : Parallel π.loose π.loose π.loose id 1 n (do let word ← modifier; gap1; return word)
      (do let word ← modifier; gap1; return word) :=
    takes_modifier.bind_left fun _ =>
      parallel_gap1.reads.bind fun _ => .of_eq rfl
  have hmany := hround.many
  rw [List.map_id_fun] at hmany
  exact hmany

theorem takes_param : π.Takes 1 n param :=
  parallel_typeAhead.optional_bind (fun _ => takes_name) takes_name

theorem takes_params : π.Takes 1 n params := by
  refine (takes_char '(' rfl).bind_left fun _ => takes_space.reads.bind fun _ => ?_
  refine (Parallel.sepBy takes_comma_space.reads takes_param.reads id).bind fun names => ?_
  refine takes_space.reads.bind fun _ => (takes_char ')' rfl).reads.bind fun _ => .of_eq (by simp)

theorem parallel_typeAfter (words : List String) :
    Parallel π.loose π.loose π.loose id 0 n (typeAfter words) (typeAfter words) := by
  unfold typeAfter
  split
  · exact parallel_typeAhead.weaken (Nat.zero_le _)
  · exact (parallel_typeAhead.optional id).bind fun _ => .of_eq (by simp)

theorem takes_superclass : π.Takes 1 n superclass :=
  parallel_gap1.bind_left fun _ => (takes_keyword (by decide)).bind fun _ =>
    parallel_gap1.reads.bind fun _ =>
      takes_qualifiedName.weaken (Nat.zero_le _)

end parts

end Pairing

end QueryBlocks
