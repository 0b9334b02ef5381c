import QueryBlocks.Script.Grammar.Declarations
import QueryBlocks.Proofs.Script.Written

/-! What a statement that is an expression begins with. Its first word, if it has one, is followed
by something that no declaration and no call without parentheses goes on with, so all other kinds
of statements and items give up on it. -/
namespace QueryBlocks

open QueryBlocks.Parser QueryBlocks.Token QueryBlocks.Rules

/-- What an operator may begin with, and what opens a closure. -/
def marks : List Char := ['=', '+', '-', '|', '&', '!', '<', '>', '*', '/', '%', '\x7b']

def isMark (c : Char) : Bool := marks.contains c

/-- The operators that are words. -/
def wordOperators : List String := ["in", "instanceof", "as"]

/-- What stands behind a word and a space of an expression: neither a name nor an argument. -/
inductive Barred : List Char → Prop
  | mark {c : Char} {s : List Char} (hc : isMark c = true) : Barred (c :: s)
  | word {w : String} {s : List Char} (hw : w ∈ wordOperators) : Barred (w.toList ++ ' ' :: s)

/-- What stands behind the first dotted name of an expression. -/
inductive Tail : List Char → Prop
  | stop {s : List Char} : Tail ('\n' :: s)
  | close {s : List Char} : Tail (']' :: s)
  | call {s : List Char} : Tail ('(' :: s)
  | index {s : List Char} (hs : s.head? ≠ some ']') : Tail ('[' :: s)
  | operator {s : List Char} (hs : Barred s) (hgap : skip isGap s = s)
      (harrow : (exactly "->" s).Failed) : Tail (' ' :: s)

namespace Barred

variable {u : List Char}

theorem mark_ne {c d : Char} (hc : isMark c = true) (hd : isMark d = false) : c ≠ d := by
  rintro rfl
  rw [hc] at hd
  cases hd

theorem mark_isWordChar {c : Char} (hc : isMark c = true) : isWordChar c = false := by
  have hall : marks.all (fun d => !isWordChar d) = true := by decide
  rw [isMark, List.contains_eq_mem, decide_eq_true_eq] at hc
  simpa using List.all_eq_true.mp hall c hc

theorem mark_isWordStart {c : Char} (hc : isMark c = true) : isWordStart c = false := by
  by_contra h
  have hword := isWordChar_of_isWordStart (Bool.not_eq_false _ ▸ h)
  rw [mark_isWordChar hc] at hword
  cases hword

theorem wordOperator_facts {w : String} (hw : w ∈ wordOperators) : isIdentifier w = true ∧
    isReserved w = true ∧ w ∉ modifierWords ∧ isTypeName w = false ∧ w ≠ "def" ∧ w ≠ "class" := by
  revert w
  decide

theorem name_failed (h : Barred u) : (name u).Failed := by
  cases h with
  | mark hc => exact Token.name_failed (mark_isWordStart hc)
  | word hw =>
    obtain ⟨hid, hres, -⟩ := wordOperator_facts hw
    exact name_reserved hid (endsWord_cons.mpr (by decide)) hres

theorem modifier_failed (h : Barred u) : (modifier u).Failed := by
  cases h with
  | mark hc => exact verify_failed (identifier_failed (mark_isWordStart hc))
  | word hw =>
    obtain ⟨hid, -, hmod, -⟩ := wordOperator_facts hw
    exact verify_refused (identifier_append hid (endsWord_cons.mpr (by decide))) (by simpa)

theorem modifiers_nil (h : Barred u) : modifiers u = .ok [] u := by
  refine many_failed ?_
  rw [run_bind]
  exact h.modifier_failed.andThen

theorem keyword_class_failed (h : Barred u) : (keyword "class" u).Failed := by
  cases h with
  | mark hc => exact keyword_symbol (d := 'c') rfl (mark_ne hc (by decide))
  | word hw =>
    obtain ⟨hid, -, -, -, -, hne⟩ := wordOperator_facts hw
    exact keyword_failed (by decide) (all_isWordChar hid) (endsWord_cons.mpr (by decide)) hne

theorem qualifiedName_failed {c : Char} {s : List Char} (hc : isWordStart c = false) :
    (qualifiedName (c :: s)).Failed := by
  rw [qualifiedName, run_bind]
  exact (identifier_failed hc).andThen

theorem typeAhead_failed (h : Barred u) : (typeAhead u).Failed := by
  have hdef : (keyword "def" u).Failed := by
    cases h with
    | mark hc => exact keyword_symbol (d := 'd') rfl (mark_ne hc (by decide))
    | word hw =>
      obtain ⟨hid, -, -, -, hne, -⟩ := wordOperator_facts hw
      exact keyword_failed (by decide) (all_isWordChar hid) (endsWord_cons.mpr (by decide)) hne
  have htype : (typeName u).Failed := by
    cases h with
    | mark hc => exact verify_failed (qualifiedName_failed (mark_isWordStart hc))
    | @word w s hw =>
      obtain ⟨hid, -, -, hname, -⟩ := wordOperator_facts hw
      have hread : qualifiedName (w.toList ++ ' ' :: s) = .ok w (' ' :: s) :=
        qualifiedName_append (.of_identifier hid) (endsWord_cons.mpr (by decide)) (by simp)
      exact verify_refused hread hname
  rw [typeAhead, run_bind, declaredType, run_orElse, run_bind, run_bind, hdef.andThen.or]
  exact htype.andThen.andThen

theorem startsArgument_failed (h : Barred u) : (startsArgument u).Failed := by
  cases h with
  | @mark c s hc =>
    have hkey {k : String} {d : Char} {more : List Char} (hk : k.toList = d :: more)
        (hd : isMark d = false) : (keyword k (c :: s)).Failed :=
      keyword_symbol hk (mark_ne hc hd)
    have hnot : notNext (keyword "in" <|> keyword "instanceof" <|> keyword "as") (c :: s) =
        .ok () (c :: s) := by
      refine notNext_failed ?_
      rw [run_orElse, run_orElse, (hkey (d := 'i') rfl (by decide)).or,
        (hkey (d := 'i') rfl (by decide)).or]
      exact hkey (d := 'a') rfl (by decide)
    have hstart : satisfy (fun c => isWordChar c || c == '"' || c == '\'' || c == '[')
        (c :: s) = .fail (c :: s) := by
      simp [satisfy, mark_isWordChar hc, mark_ne hc (d := '"') (by decide),
        mark_ne hc (d := '\'') (by decide), mark_ne hc (d := '[') (by decide)]
    rw [startsArgument, run_bind, hnot, Outcome.andThen_ok]
    exact ahead_failed (by rw [hstart]; trivial)
  | @word w s hw =>
    have hnot : (notNext (keyword "in" <|> keyword "instanceof" <|> keyword "as")
        (w.toList ++ ' ' :: s)).Failed := by
      simp only [wordOperators, List.mem_cons, List.not_mem_nil, or_false] at hw
      rcases hw with rfl | rfl | rfl <;> trivial
    rw [startsArgument, run_bind]
    exact hnot.andThen

end Barred

namespace Tail

variable {u : List Char}

theorem endsWord (h : Tail u) : EndsWord u := by
  cases h <;> exact endsWord_cons.mpr (by decide)

theorem head?_ne_dot (h : Tail u) : u.head? ≠ some '.' := by
  cases h <;> simp

theorem brackets_failed (h : Tail u) : (exactly "[]" u).Failed := by
  cases h with
  | @index s hs =>
    cases s with
    | nil => trivial
    | cons c s =>
      have hc : c ≠ ']' := by simpa using hs
      rcases exactly_cases "[]" ('[' :: c :: s) with ⟨rest, he, -⟩ | he
      · exact absurd (List.cons.inj (List.cons.inj he).2).1 hc
      · rw [he]
        trivial
  | _ => trivial

theorem gap1_cases (h : Tail u) :
    (gap1 u).Failed ∨ ∃ s, u = ' ' :: s ∧ gap1 u = .ok () s ∧ Barred s := by
  cases h with
  | stop => exact .inl (gap1_failed (by decide))
  | close => exact .inl (gap1_failed (by decide))
  | call => exact .inl (gap1_failed (by decide))
  | index => exact .inl (gap1_failed (by decide))
  | @operator s hs hgap =>
    refine .inr ⟨s, rfl, ?_, hs⟩
    have hspace : satisfy (fun c => c == ' ' || c == '\t') (' ' :: s) = .ok ' ' s := rfl
    rw [gap1, run_bind, hspace, Outcome.andThen_ok, run_gap, hgap]

/-- After the gap stands neither a comma nor an arrow. -/
theorem gap_cases (h : Tail u) :
    (skip isGap u).head? ≠ some ',' ∧ (exactly "->" (skip isGap u)).Failed := by
  cases h with
  | @operator s hs hgap harrow =>
    rw [skip_pos (by decide) (by decide), hgap]
    refine ⟨?_, harrow⟩
    cases hs with
    | mark hc =>
      intro he
      cases he
      exact absurd hc (by decide)
    | word hw =>
      simp only [wordOperators, List.mem_cons, List.not_mem_nil, or_false] at hw
      rcases hw with rfl | rfl | rfl <;> simp
  | _ =>
    rw [skip_neg (by decide) (by decide)]
    exact ⟨by simp, trivial⟩

end Tail

/-- A dotted name that no brackets follow is a declared type only in front of a gap. -/
theorem typeAhead_of_qualified {s u : List Char} {base : String} (hdef : (keyword "def" s).Failed)
    (hread : qualifiedName s = .ok base u) (hbrackets : (exactly "[]" u).Failed) :
    (typeAhead s).Failed ∨ typeAhead s = (gap1 u).andThen fun _ => pure (some base) := by
  rw [typeAhead, run_bind, declaredType, run_orElse, run_bind, hdef.andThen.or, run_bind]
  by_cases htype : isTypeName base = true
  · right
    have hname : typeName s = .ok base u := verify_ok hread htype
    rw [hname, Outcome.andThen_ok, run_bind, optional_failed hbrackets]
    simp only [Outcome.andThen_ok, run_pure, run_bind]
  · left
    have hname : (typeName s).Failed := verify_refused hread (by simpa using htype)
    exact hname.andThen.andThen

theorem conditional_of_keyword {s : List Char} (h : (keyword "if" s).Failed) :
    (bare.conditional s).Failed := by
  rw [conditional, run_bind, here, Outcome.andThen_ok, run_bind]
  exact h.andThen

theorem returnStmt_of_keyword {s : List Char} (h : (keyword "return" s).Failed) :
    (bare.returnStmt s).Failed := by
  rw [returnStmt, run_bind, here, Outcome.andThen_ok, run_bind]
  exact h.andThen

/-- The first word of an expression. -/
def StartsExpr (w : String) : Prop := isName w = true ∨ w ∈ ["true", "false", "null"]

/-- What a statement that is an expression begins with. -/
inductive Lead : List Char → Prop
  | mark {c : Char} {s : List Char} (hc : isWordStart c = false) (hopen : isOpening c = true)
      (harrow : c = '-' → s.head? ≠ some '>') : Lead (c :: s)
  | word {w : String} {more : List String} {u : List Char} (hid : isIdentifier w = true)
      (hw : StartsExpr w) (hmore : ∀ word ∈ more, isIdentifier word = true) (hu : Tail u) :
      Lead (w.toList ++ ((more.flatMap fun word => ".".toList ++ word.toList) ++ u))
  | new {s : List Char} : Lead ("new".toList ++ ' ' :: s)

namespace Lead

variable {s : List Char}

theorem word_ne {w k : String} (hw : StartsExpr w) (hk : isReserved k = true)
    (hne : k ∉ ["true", "false", "null"]) : w ≠ k := by
  rintro rfl
  rcases hw with hw | hw
  · simp [isName, hk] at hw
  · exact hne hw

theorem endsWord_segments (more : List String) {u : List Char} (hu : Tail u) :
    EndsWord ((more.flatMap fun word => ".".toList ++ word.toList) ++ u) := by
  cases more with
  | nil => exact hu.endsWord
  | cons => exact endsWord_cons.mpr (by decide)

/-- The reserved words that begin other statements are not there. -/
theorem keyword_failed (h : Lead s) {k : String}
    (hk : k ∈ ["if", "return", "def", "else", "class"]) :
    (keyword k s).Failed := by
  have hfacts : isIdentifier k = true ∧ isReserved k = true ∧ k ∉ ["true", "false", "null"] ∧
      "new" ≠ k := by
    revert k
    decide
  obtain ⟨hid, hres, hlit, hnew⟩ := hfacts
  cases h with
  | mark hc =>
    obtain ⟨d, more, hkl, hd, -⟩ := isIdentifier_iff.mp hid
    refine keyword_symbol hkl ?_
    rintro rfl
    rw [hc] at hd
    cases hd
  | word hw hstart _ hu =>
    exact Token.keyword_failed (all_isWordChar hid) (all_isWordChar hw) (endsWord_segments _ hu)
      (word_ne hstart hres hlit)
  | new =>
    exact Token.keyword_failed (all_isWordChar hid) (by decide) (endsWord_cons.mpr (by decide))
      hnew

theorem conditional_failed (h : Lead s) : (bare.conditional s).Failed :=
  conditional_of_keyword (h.keyword_failed (by decide))

theorem returnStmt_failed (h : Lead s) : (bare.returnStmt s).Failed :=
  returnStmt_of_keyword (h.keyword_failed (by decide))

/-- A declared type is read only where no name follows it. -/
theorem typeAhead_cases (h : Lead s) :
    (typeAhead s).Failed ∨ ∃ type u, typeAhead s = .ok (some type) u ∧ Barred u := by
  have hdef : (keyword "def" s).Failed := h.keyword_failed (by decide)
  have hfail (htype : (typeName s).Failed) : (typeAhead s).Failed := by
    rw [typeAhead, run_bind, declaredType, run_orElse, run_bind, run_bind, hdef.andThen.or]
    exact htype.andThen.andThen
  cases h with
  | mark hc => exact .inl (hfail (verify_failed (Barred.qualifiedName_failed hc)))
  | @new s =>
    have hread : qualifiedName ("new".toList ++ ' ' :: s) = .ok "new" (' ' :: s) :=
      qualifiedName_append (.of_identifier (by decide)) (endsWord_cons.mpr (by decide)) (by simp)
    exact .inl (hfail (verify_refused hread (by decide)))
  | @word w more u hid hstart hmore hu =>
    generalize hs : w.toList ++ ((more.flatMap fun word => ".".toList ++ word.toList) ++ u) = s at *
    have hread : qualifiedName s = .ok (".".intercalate (w :: more)) u := by
      rw [← hs, ← List.append_assoc, ← toList_intercalate_cons]
      exact qualifiedName_append ⟨w, more, rfl, hid, hmore⟩ hu.endsWord hu.head?_ne_dot
    rcases typeAhead_of_qualified hdef hread hu.brackets_failed with htype | htype
    · exact .inl htype
    · rcases hu.gap1_cases with hgap | ⟨v, -, hgap, hv⟩
      · left
        rw [htype]
        exact hgap.andThen
      · right
        refine ⟨".".intercalate (w :: more), v, ?_, hv⟩
        rw [htype, hgap]
        rfl

theorem declaration_failed (h : Lead s) : (bare.declaration s).Failed := by
  rw [declaration, run_bind, here, Outcome.andThen_ok, run_bind]
  rcases h.typeAhead_cases with hfail | ⟨type, u, htype, hu⟩
  · exact hfail.andThen
  · rw [htype, Outcome.andThen_ok, run_bind]
    exact hu.name_failed.andThen

theorem command_failed (h : Lead s) : (bare.command s).Failed := by
  rw [command, run_bind, here, Outcome.andThen_ok, run_bind]
  cases h with
  | mark hc => exact (name_failed hc).andThen
  | new =>
    exact (name_reserved (w := "new") (by decide) (endsWord_cons.mpr (by decide))
      (by decide)).andThen
  | @word w more u hid hstart hmore hu =>
    by_cases hn : isName w = true
    · rw [name_append hn (endsWord_segments _ hu), Outcome.andThen_ok, run_bind]
      cases more with
      | cons word more => exact (gap1_failed (by decide)).andThen
      | nil =>
        rcases hu.gap1_cases with hgap | ⟨v, -, hgap, hv⟩
        · exact hgap.andThen
        · rw [List.flatMap_nil, List.nil_append, hgap, Outcome.andThen_ok, run_bind]
          exact hv.startsArgument_failed.andThen
    · have hres := isReserved_of_not_isName hid hn
      exact (name_reserved hid (endsWord_segments _ hu) hres).andThen

/-- Where no name can be read, there are no parameters and no arrow. -/
theorem closureParams_of_unnamed (hname : (name s).Failed)
    (harrow : (exactly "->" (skip isGap s)).Failed) : (closureParams s).Failed := by
  have hnames : (sepBy1 (comma gap gap) name s).Failed := by
    rw [sepBy1, run_bind]
    exact hname.andThen
  rw [closureParams, run_bind, sepBy, run_orElse, hnames.or, run_pure, Outcome.andThen_ok,
    run_bind, run_gap, Outcome.andThen_ok, run_bind]
  exact harrow.andThen

theorem arrow_failed {c : Char} (hc : c ≠ '-' ∨ s.head? ≠ some '>') :
    (exactly "->" (c :: s)).Failed := by
  rcases exactly_cases "->" (c :: s) with ⟨rest, he, -⟩ | he
  · obtain ⟨rfl, rfl⟩ := List.cons.inj he
    rcases hc with hc | hc
    · exact absurd rfl hc
    · exact absurd rfl hc
  · rw [he]
    trivial

/-- No parameters of a closure are read from a word, unless a comma or an arrow follows it. -/
theorem closureParams_of_word {w : String} {u : List Char} (hid : isIdentifier w = true)
    (hends : EndsWord u) (hu : isName w = true →
      (skip isGap u).head? ≠ some ',' ∧ (exactly "->" (skip isGap u)).Failed) :
    (closureParams (w.toList ++ u)).Failed := by
  by_cases hn : isName w = true
  · have hstop : ((do let _ ← comma gap gap; name : Parser String) u).Failed := by
      rw [run_bind, comma, run_bind, run_gap, Outcome.andThen_ok, run_bind]
      exact (char_failed (hu hn).1).andThen.andThen
    have hnames : sepBy1 (comma gap gap) name (w.toList ++ u) = .ok [w] u := by
      rw [sepBy1, run_bind, name_append hn hends, Outcome.andThen_ok, run_bind,
        many_failed hstop]
      rfl
    rw [closureParams, run_bind, sepBy, run_orElse, hnames, Outcome.or_ok, Outcome.andThen_ok,
      run_bind, run_gap, Outcome.andThen_ok, run_bind]
    exact (hu hn).2.andThen
  · have hres := isReserved_of_not_isName hid hn
    refine closureParams_of_unnamed (name_reserved hid hends hres) ?_
    rw [skip_unspaced isBreak_of_isGap ((Unspaced.of_identifier hid).append u)]
    obtain ⟨c, more, hwl, hc, -⟩ := isIdentifier_iff.mp hid
    rw [hwl]
    refine arrow_failed (.inl ?_)
    rintro rfl
    cases hc

theorem closureParams_failed (h : Lead s) : (closureParams s).Failed := by
  cases h with
  | new =>
    exact closureParams_of_word (w := "new") (by decide) (endsWord_cons.mpr (by decide))
      (fun h => absurd h (by decide))
  | @word w more u hid hstart hmore hu =>
    refine closureParams_of_word hid (endsWord_segments _ hu) fun _ => ?_
    cases more with
    | nil => exact hu.gap_cases
    | cons word more =>
      refine ⟨?_, ?_⟩
      · rw [List.flatMap_cons, List.append_assoc, List.append_assoc]
        change (skip isGap ('.' :: _)).head? ≠ _
        rw [skip_neg (by decide) (by decide)]
        simp
      · rw [List.flatMap_cons, List.append_assoc, List.append_assoc]
        change (exactly "->" (skip isGap ('.' :: _))).Failed
        rw [skip_neg (by decide) (by decide)]
        trivial
  | @mark c s hc hopen harrow =>
    have hbegins : Begins 0 (c :: s) := ⟨c, s, rfl, hopen, fun h => absurd h (by decide)⟩
    refine closureParams_of_unnamed (name_failed hc) ?_
    rw [skip_unspaced isBreak_of_isGap hbegins.unspaced]
    refine arrow_failed ?_
    by_cases hm : c = '-'
    · exact .inr (harrow hm)
    · exact .inl hm

/-- Modifiers are read only where nothing that they could belong to follows. -/
theorem modifiers_cases (h : Lead s) :
    modifiers s = .ok [] s ∨ ∃ w u, modifiers s = .ok [w] u ∧ Barred u := by
  have hnil (hfail : ((do let word ← modifier; gap1; return word : Parser String) s).Failed) :
      modifiers s = .ok [] s := many_failed hfail
  cases h with
  | mark hc =>
    refine .inl (hnil ?_)
    rw [run_bind]
    exact (verify_failed (identifier_failed hc)).andThen
  | @new s =>
    refine .inl (hnil ?_)
    have hread : identifier ("new".toList ++ ' ' :: s) = .ok "new" (' ' :: s) :=
      identifier_append (by decide) (endsWord_cons.mpr (by decide))
    rw [run_bind]
    exact (verify_refused hread (by decide)).andThen
  | @word w more u hid hstart hmore hu =>
    have hread := identifier_append hid (endsWord_segments more hu)
    by_cases hmod : modifierWords.contains w = true
    · have hword := verify_ok hread hmod
      have hgap_of (hgap : (gap1 ((more.flatMap fun word => ".".toList ++ word.toList) ++
          u)).Failed) : ((do let word ← modifier; gap1; return word : Parser String)
            (w.toList ++ ((more.flatMap fun word => ".".toList ++ word.toList) ++ u))).Failed := by
        rw [run_bind, modifier, hword, Outcome.andThen_ok, run_bind]
        exact hgap.andThen
      cases more with
      | cons word more => exact .inl (hnil (hgap_of (gap1_failed (by decide))))
      | nil =>
        rcases hu.gap1_cases with hgap | ⟨v, rfl, hgap, hv⟩
        · exact .inl (hnil (hgap_of hgap))
        · refine .inr ⟨w, v, ?_, hv⟩
          have hfirst : modifier (w.toList ++ ' ' :: v) = .ok w (' ' :: v) := hword
          have hstep : (do let word ← modifier; gap1; return word : Parser String)
              (w.toList ++ ' ' :: v) = .ok w v := by
            rw [run_bind, hfirst, Outcome.andThen_ok, run_bind, hgap]
            rfl
          have hlen : v.length < (w.toList ++ ' ' :: v).length := by
            simp only [List.length_append, List.length_cons]
            omega
          rw [List.flatMap_nil, List.nil_append, modifiers, many_ok hstep hlen, ← modifiers,
            hv.modifiers_nil]
          rfl
    · refine .inl (hnil ?_)
      rw [run_bind]
      exact (verify_refused hread (by simpa using hmod)).andThen

theorem method_failed (h : Lead s) : (bare.method s).Failed := by
  rw [method, run_bind, here, Outcome.andThen_ok, run_bind]
  rcases h.modifiers_cases with hmod | ⟨w, u, hmod, hu⟩
  · rw [hmod, Outcome.andThen_ok, run_bind, typeAfter, List.isEmpty_nil, if_pos rfl]
    rcases h.typeAhead_cases with hfail | ⟨type, u, htype, hu⟩
    · exact hfail.andThen
    · rw [htype, Outcome.andThen_ok, run_bind]
      exact hu.name_failed.andThen
  · have htype : typeAfter [w] u = .ok none u := by
      rw [typeAfter, List.isEmpty_cons, if_neg Bool.false_ne_true, run_bind,
        optional_failed hu.typeAhead_failed]
      rfl
    rw [hmod, Outcome.andThen_ok, run_bind, htype, Outcome.andThen_ok, run_bind]
    exact hu.name_failed.andThen

theorem classDecl_failed (h : Lead s) : (bare.classDecl s).Failed := by
  rw [classDecl, run_bind, here, Outcome.andThen_ok, run_bind]
  rcases h.modifiers_cases with hmod | ⟨w, u, hmod, hu⟩
  · rw [hmod, Outcome.andThen_ok, run_bind]
    exact (h.keyword_failed (by decide)).andThen
  · rw [hmod, Outcome.andThen_ok, run_bind]
    exact hu.keyword_class_failed.andThen

theorem head?_ne (h : Lead s) {c : Char} (hc : isOpening c = false) : s.head? ≠ some c := by
  have hword {w : String} {u : List Char} (hid : isIdentifier w = true) :
      (w.toList ++ u).head? ≠ some c :=
    (Begins.of_identifier (k := 0) hid).head?_ne hc u
  cases h with
  | mark _ hopen =>
    intro he
    cases he
    rw [hopen] at hc
    cases hc
  | word hid => exact hword hid
  | new => exact hword (by decide)

end Lead

/-! ### Written expressions -/

/-- What stands behind the first word of an expression. -/
def Trail (r : List Char) : Prop :=
  ∃ (more : List String) (u : List Char),
    r = (more.flatMap fun word => ".".toList ++ word.toList) ++ u ∧
    (∀ word ∈ more, isIdentifier word = true) ∧ Tail u

section

variable {r : List Char} {name : String}

theorem Tail.trail (h : Tail r) : Trail r := ⟨[], r, rfl, fun _ hw => (nomatch hw), h⟩

theorem Trail.dot (hn : isIdentifier name = true) (h : Trail r) :
    Trail ('.' :: (name.toList ++ r)) := by
  obtain ⟨more, u, rfl, hmore, hu⟩ := h
  refine ⟨name :: more, u, by simp, ?_, hu⟩
  rw [List.forall_mem_cons]
  exact ⟨hn, hmore⟩

theorem Trail.lead {w : String} (hid : isIdentifier w = true) (hw : StartsExpr w) (h : Trail r) :
    Lead (w.toList ++ r) := by
  obtain ⟨more, u, rfl, hmore, hu⟩ := h
  exact .word hid hw hmore hu

theorem Lead.of_isName (hn : isName name = true) (h : Trail r) : Lead (name.toList ++ r) :=
  h.lead (isIdentifier_of_isName hn) (.inl hn)

theorem Tail.of_operator {op : BinOp} (hop : op ≠ .index) :
    Tail (' ' :: (op.token.toList ++ ' ' :: r)) := by
  refine .operator ?_ (skip_token isBreak_of_isGap) ?_
  · cases op with
    | index => exact absurd rfl hop
    | isIn => exact .word (w := "in") (by decide)
    | instanceOf => exact .word (w := "instanceof") (by decide)
    | _ => exact .mark (by decide)
  · cases op <;> trivial

theorem Tail.of_cast : Tail (' ' :: 'a' :: 's' :: ' ' :: r) :=
  .operator (.word (w := "as") (by decide)) (skip_neg (by decide) (by decide)) trivial

theorem Tail.of_arguments (args : List Expr) (d : Nat) :
    Tail ((Print.arguments args (Print.exprs d args)).toList ++ r) := by
  cases h : args.getLast?.any Expr.isClosure with
  | false =>
    rw [arguments_plain h]
    exact .call
  | true =>
    obtain ⟨last, hmem, hlast⟩ := Option.any_eq_true .. |>.mp h
    obtain ⟨init, rfl⟩ := List.getLast?_eq_some_iff.mp hmem
    rw [arguments_closure hlast]
    split
    · obtain ⟨s, hs⟩ := closure_text hlast d
      rw [hs]
      exact .operator (.mark (by decide)) (skip_neg (by decide) (by decide)) trivial
    · exact .call

theorem Lead.operand {k : Nat} {e : Expr} {text : String} (h : Lead (text.toList ++ r)) :
    Lead ((Print.operand k e text).toList ++ r) := by
  unfold Print.operand
  split
  · have hparens : ("(" ++ text ++ ")").toList ++ r = '(' :: (text.toList ++ ')' :: r) := by simp
    rw [hparens]
    exact .mark (by decide) (by decide) (fun h => absurd h (by decide))
  · exact h

/-- The texts of numbers and of quoted texts begin with a mark, the other literals are words. -/
theorem Lead.lit {value : Literal} (hv : value.Valid) (h : Trail r) :
    Lead (value.text.toList ++ r) := by
  have hdigit {c : Char} {s : List Char} (hc : c.isDigit = true) : Lead (c :: s) := by
    refine .mark ?_ (by simp [isOpening, isWordChar_of_isDigit hc]) ?_
    · by_contra hstart
      rw [not_isDigit_of_isWordStart (Bool.not_eq_false _ ▸ hstart)] at hc
      cases hc
    · rintro rfl
      cases hc
  have hminus {c : Char} {s : List Char} (hc : c = '-' ∨ c.isDigit = true) :
      Lead ('-' :: c :: s) := by
    refine .mark (by decide) (by decide) fun _ he => ?_
    cases he
    rcases hc with hc | hc <;> cases hc
  cases value with
  | null => exact h.lead (w := "null") (by decide) (.inr (by decide))
  | bool b =>
    cases b with
    | true => exact h.lead (w := "true") (by decide) (.inr (by decide))
    | false => exact h.lead (w := "false") (by decide) (.inr (by decide))
  | string s =>
    obtain ⟨s, hs⟩ : ∃ t, (Text.quote s).toList = '"' :: t :=
      ⟨s.toList.flatMap Text.escape ++ ['"'], by simp [Text.quote]⟩
    rw [Literal.text, hs]
    exact .mark (by decide) (by decide) (fun h => absurd h (by decide))
  | int n =>
    cases n with
    | ofNat n =>
      obtain ⟨c, s, hcs⟩ := List.exists_cons_of_ne_nil (Nat.toDigits_ne_nil (b := 10) (n := n))
      rw [Literal.text_ofNat, hcs]
      exact hdigit (isDigit_of_mem_toDigits (hcs ▸ List.mem_cons_self))
    | negSucc n =>
      obtain ⟨c, s, hcs⟩ := List.exists_cons_of_ne_nil
        (Nat.toDigits_ne_nil (b := 10) (n := n + 1))
      rw [Literal.text_negSucc, hcs]
      exact hminus (.inr (isDigit_of_mem_toDigits (hcs ▸ List.mem_cons_self)))
  | decimal text =>
    obtain ⟨signs, whole, fraction, htext, hw, hwd, -⟩ := hv
    obtain ⟨c, s, rfl⟩ := List.exists_cons_of_ne_nil hw
    have hc : c.isDigit = true := by
      rw [List.all_cons, Bool.and_eq_true] at hwd
      exact hwd.1
    rw [Literal.text, htext]
    cases signs with
    | zero => exact hdigit hc
    | succ signs =>
      cases signs with
      | zero => exact hminus (.inr hc)
      | succ signs => exact hminus (.inl rfl)

/-- Only the leftmost part of an expression matters for what it begins with. -/
theorem lead_expr {ok : String → Prop} (d : Nat) : ∀ {e : Expr} {r : List Char}, e.Valid ok →
    Trail r → Lead ((Print.expr d e).toList ++ r)
  | .var .., r, hv, hr => .of_isName hv hr
  | .lit .., r, hv, hr => .lit hv hr
  | .member _ object name, r, hv, hr => by
    have h := (lead_expr d (e := object) hv.1 (hr.dot hv.2)).operand (k := 11) (e := object)
    simpa [Print.expr] using h
  | .call _ none name args, r, hv, hr => by
    have h := Lead.of_isName hv.1 (Tail.of_arguments (r := r) args d).trail
    simpa [Print.expr] using h
  | .call _ (some object) name args, r, hv, hr => by
    have h := (lead_expr d (e := object) hv.1
      ((Tail.of_arguments (r := r) args d).trail.dot hv.2.1)).operand (k := 11) (e := object)
    simpa [Print.expr] using h
  | .construct _ type args, r, hv, hr => by
    have h := Lead.new (s := type.toList ++ '(' ::
      ((", ".intercalate (Print.exprs d args)).toList ++ ')' :: r))
    simpa [Print.expr] using h
  | .cast _ value type, r, hv, hr => by
    have h := (lead_expr d (e := value) hv.1 (Tail.of_cast (r := type.toList ++ r)).trail).operand
      (k := 10) (e := value)
    simpa [Print.expr] using h
  | .binary _ left op right, r, hv, hr => by
    by_cases hop : op = .index
    · subst hop
      have hright := lead_expr d (e := right) hv.2 (Tail.close (s := r)).trail
      have h := (lead_expr d (e := left) hv.1
        (Tail.index (hright.head?_ne (by decide))).trail).operand (k := 11) (e := left)
      simpa [Print.expr] using h
    · rw [Print.expr, if_neg hop]
      simp only [String.toList_append, List.append_assoc]
      exact (lead_expr d hv.1 (Tail.of_operator hop).trail).operand
  | .not .., r, hv, hr => by
    rw [Print.expr, String.toList_append]
    exact .mark (by decide) (by decide) (fun h => absurd h (by decide))
  | .negate _ e, r, hv, hr => by
    have h := (lead_expr d (e := e) hv.1 hr).operand (k := 9) (e := e)
    rw [Print.expr, String.toList_append, List.append_assoc]
    exact .mark (by decide) (by decide) fun _ => h.head?_ne (by decide)
  | .list .., r, hv, hr => by
    rw [Print.expr, String.append_assoc, String.toList_append]
    exact .mark (by decide) (by decide) (fun h => absurd h (by decide))
  | .closure _ params ⟨_, statements⟩, r, hv, hr => by
    rw [Print.expr, String.append_assoc, String.toList_append]
    exact .mark (by decide) (by decide) (fun h => absurd h (by decide))

end

end QueryBlocks
