import QueryBlocks.Proofs.Parser.Ensures
import QueryBlocks.Proofs.Script.Advance
import QueryBlocks.Proofs.Script.Valid
import Mathlib.Data.List.Basic

/-! Reading words, names and literals from the front of a text. Each rule takes as much as it can,
so what is said of the text behind a lexeme is that it cannot be part of it. -/
namespace QueryBlocks

open QueryBlocks.Parser

namespace Token

variable {s rest : List Char} {w : String}

/-- No word goes on here. -/
def EndsWord (s : List Char) : Prop := ∀ c ∈ s.head?, isWordChar c = false

@[simp] theorem endsWord_nil : EndsWord [] := by
  intro c hc
  cases hc

@[simp] theorem endsWord_cons {c : Char} : EndsWord (c :: s) ↔ isWordChar c = false := by
  simp [EndsWord]

theorem takeWhile_append_stop {p : Char → Bool} {l : List Char} (hl : l.all p = true)
    (hr : ∀ c ∈ rest.head?, p c = false) : (l ++ rest).takeWhile p = l := by
  rw [List.takeWhile_append_of_pos (List.all_eq_true.mp hl)]
  cases rest with
  | nil => simp
  | cons c rest => simp [hr c rfl]

theorem dropWhile_append_stop {p : Char → Bool} {l : List Char} (hl : l.all p = true)
    (hr : ∀ c ∈ rest.head?, p c = false) : (l ++ rest).dropWhile p = rest := by
  rw [List.dropWhile_append_of_pos (List.all_eq_true.mp hl)]
  cases rest with
  | nil => simp
  | cons c rest => simp [hr c rfl]

theorem head?_dropWhile {p : Char → Bool} (s : List Char) :
    ∀ c ∈ (s.dropWhile p).head?, p c = false := by
  intro c hc
  have := List.head?_dropWhile_not p s
  rw [Option.mem_def.mp hc] at this
  simpa using this

theorem isWordChar_of_isWordStart {c : Char} (h : isWordStart c = true) : isWordChar c = true := by
  simp only [isWordStart, Bool.or_eq_true, beq_iff_eq] at h
  rcases h with (h | rfl) | rfl
  · simp [isWordChar, Char.isAlphanum, h]
  · rfl
  · rfl

theorem not_isDigit_of_isWordStart {c : Char} (h : isWordStart c = true) : c.isDigit = false := by
  by_contra hd
  rw [Bool.not_eq_false, Char.isDigit, Bool.and_eq_true, decide_eq_true_eq, decide_eq_true_eq] at hd
  change (decide (c.val ≥ 'A'.val ∧ c.val ≤ 'Z'.val) ||
    (decide (c.val ≥ 'a'.val) && decide (c.val ≤ 'z'.val)) || c == '_' || c == '$') = true at h
  simp only [Bool.or_eq_true, Bool.and_eq_true, decide_eq_true_eq, beq_iff_eq] at h
  simp only [UInt32.le_iff_toNat_le, ge_iff_le] at hd h
  rcases h with (h | rfl) | rfl
  · simp at hd h
    omega
  · simp at hd
  · simp at hd

theorem isIdentifier_iff : isIdentifier w = true ↔
    ∃ c more, w.toList = c :: more ∧ isWordStart c = true ∧ more.all isWordChar = true := by
  unfold isIdentifier
  cases w.toList with
  | nil => simp
  | cons c more =>
    rw [Bool.and_eq_true]
    constructor
    · rintro ⟨hc, hmore⟩
      exact ⟨c, more, rfl, hc, hmore⟩
    · rintro ⟨d, others, he, hd, hothers⟩
      obtain ⟨rfl, rfl⟩ := List.cons.inj he
      exact ⟨hd, hothers⟩

theorem all_isWordChar (h : isIdentifier w = true) : w.toList.all isWordChar = true := by
  obtain ⟨c, more, hw, hc, hmore⟩ := isIdentifier_iff.mp h
  rw [hw, List.all_cons, isWordChar_of_isWordStart hc, hmore]
  rfl

theorem run_char {c : Char} : char c (c :: s) = .ok c s := by simp [char, satisfy]

theorem char_eq_ok {c d : Char} (h : char c s = .ok d rest) : s = c :: rest := by
  cases s with
  | nil => cases h
  | cons e s =>
    by_cases he : e = c
    · subst he
      rw [run_char] at h
      cases h
      rfl
    · simp [char, satisfy, he] at h

theorem char_failed {c : Char} (h : s.head? ≠ some c) : (char c s).Failed := by
  cases s with
  | nil => trivial
  | cons d s =>
    have hd : d ≠ c := by simpa using h
    simp [char, satisfy, hd]

theorem identifier_append (hw : isIdentifier w = true) (hr : EndsWord rest) :
    identifier (w.toList ++ rest) = .ok w rest := by
  obtain ⟨c, more, hwl, hc, hmore⟩ := isIdentifier_iff.mp hw
  have hof : String.ofList (c :: more) = w := by rw [← hwl, String.ofList_toList]
  simp only [identifier, hwl, List.cons_append, run_bind, satisfy, hc, if_true,
    Outcome.andThen_ok, wordRest, takeWhile_append_stop hmore hr, dropWhile_append_stop hmore hr,
    run_pure, hof]

theorem identifier_eq_ok (h : identifier s = .ok w rest) :
    s = w.toList ++ rest ∧ isIdentifier w = true ∧ EndsWord rest := by
  cases s with
  | nil => cases h
  | cons c s =>
    by_cases hc : isWordStart c
    · simp only [identifier, run_bind, satisfy, hc, if_true, Outcome.andThen_ok, wordRest,
        run_pure, Outcome.ok.injEq] at h
      obtain ⟨rfl, rfl⟩ := h
      refine ⟨?_, ?_, head?_dropWhile s⟩
      · rw [String.toList_ofList, List.cons_append, List.takeWhile_append_dropWhile]
      · rw [isIdentifier_iff]
        exact ⟨c, _, String.toList_ofList, hc, List.all_takeWhile⟩
    · simp [identifier, satisfy, hc] at h

theorem identifier_failed {c : Char} (hc : isWordStart c = false) :
    (identifier (c :: s)).Failed := by
  simp [identifier, satisfy, hc]

theorem name_append (hw : isName w = true) (hr : EndsWord rest) :
    name (w.toList ++ rest) = .ok w rest := by
  rw [isName, Bool.and_eq_true] at hw
  exact verify_ok (identifier_append hw.1 hr) hw.2

theorem name_failed {c : Char} (hc : isWordStart c = false) : (name (c :: s)).Failed :=
  verify_failed (identifier_failed hc)

theorem isReserved_of_not_isName (hid : isIdentifier w = true) (hn : ¬ isName w = true) :
    isReserved w = true := by
  rw [isName, hid, Bool.true_and, Bool.not_eq_true', Bool.not_eq_false] at hn
  exact hn

theorem name_reserved (hw : isIdentifier w = true) (hr : EndsWord rest)
    (hres : isReserved w = true) : (name (w.toList ++ rest)).Failed :=
  verify_refused (identifier_append hw hr) (by simp [hres])

theorem exactly_eq_ok {k : String} : exactly k s = .ok () rest ↔ s = k.toList ++ rest := by
  unfold exactly
  cases h : k.toList.isPrefixOf? s with
  | none =>
    refine ⟨fun he => (nomatch he), ?_⟩
    rintro rfl
    rw [List.isPrefixOf?_eq_some_iff_append_eq.mpr rfl] at h
    cases h
  | some after =>
    rw [List.isPrefixOf?_eq_some_iff_append_eq] at h
    subst h
    constructor
    · intro he
      cases he
      rfl
    · intro he
      rw [List.append_cancel_left he]

theorem exactly_append (k : String) : exactly k (k.toList ++ rest) = .ok () rest :=
  exactly_eq_ok.mpr rfl

theorem exactly_cases (k : String) (s : List Char) :
    (∃ rest, s = k.toList ++ rest ∧ exactly k s = .ok () rest) ∨ exactly k s = .fail s := by
  unfold exactly
  cases h : k.toList.isPrefixOf? s with
  | none => exact .inr rfl
  | some rest => exact .inl ⟨rest, (List.isPrefixOf?_eq_some_iff_append_eq.mp h).symm, rfl⟩

theorem notNext_wordChar (hr : EndsWord rest) :
    notNext (satisfy isWordChar) rest = .ok () rest := by
  cases rest with
  | nil => rfl
  | cons c rest =>
    rw [endsWord_cons] at hr
    simp [notNext, satisfy, hr]

theorem keyword_append (hr : EndsWord rest) : keyword w (w.toList ++ rest) = .ok () rest := by
  simp only [keyword, run_bind, exactly_append, Outcome.andThen_ok, notNext_wordChar hr]

theorem keyword_cases (k : String) (s : List Char) :
    (∃ rest, s = k.toList ++ rest ∧ EndsWord rest ∧ keyword k s = .ok () rest) ∨
      (keyword k s).Failed := by
  rcases exactly_cases k s with ⟨rest, rfl, he⟩ | he
  · by_cases hr : EndsWord rest
    · exact .inl ⟨rest, rfl, hr, keyword_append hr⟩
    · right
      cases rest with
      | nil => exact absurd endsWord_nil hr
      | cons c rest =>
        rw [endsWord_cons, Bool.not_eq_false] at hr
        simp [keyword, he, notNext, satisfy, hr]
  · right
    simp [keyword, he]

theorem keyword_eq_ok {k : String} (h : keyword k s = .ok () rest) :
    s = k.toList ++ rest ∧ EndsWord rest := by
  rcases keyword_cases k s with ⟨after, hs, hends, hread⟩ | hfail
  · rw [hread] at h
    cases h
    exact ⟨hs, hends⟩
  · exact absurd h hfail.ne_ok

/-- A keyword is read as a whole word or not at all. -/
theorem keyword_failed {k : String} (hk : k.toList.all isWordChar = true)
    (hw : w.toList.all isWordChar = true) (hr : EndsWord rest) (hne : w ≠ k) :
    (keyword k (w.toList ++ rest)).Failed := by
  rcases keyword_cases k (w.toList ++ rest) with ⟨after, hs, ha, -⟩ | hfail
  · -- both words are all of the word characters in front, so they are the same
    have h := congrArg (List.takeWhile isWordChar) hs
    rw [takeWhile_append_stop hw hr, takeWhile_append_stop hk ha] at h
    exact absurd (String.toList_inj.mp h) hne
  · exact hfail

theorem keyword_symbol {k : String} {c d : Char} {more : List Char} (hk : k.toList = d :: more)
    (hc : c ≠ d) : (keyword k (c :: s)).Failed := by
  have he : exactly k (c :: s) = .fail (c :: s) := by
    rcases exactly_cases k (c :: s) with ⟨after, hs, -⟩ | he
    · rw [hk] at hs
      exact absurd (List.cons.inj hs).1 hc
    · exact he
  simp [keyword, he]

theorem keyword_of_identifier (h : identifier s = .ok w rest) : keyword w s = .ok () rest := by
  obtain ⟨rfl, -, hr⟩ := identifier_eq_ok h
  exact keyword_append hr

/-! ### Dotted names -/

theorem toList_intercalate_cons (sep first : String) (more : List String) :
    (sep.intercalate (first :: more)).toList =
      first.toList ++ more.flatMap fun word => sep.toList ++ word.toList := by
  induction more generalizing first with
  | nil => simp
  | cons word more ih =>
    have h := ih word
    simp only [String.toList_intercalate, List.map_cons] at h ⊢
    rw [List.intercalate_cons_cons, h]
    simp

theorem toList_intercalate {ι : Type} (sep : String) (text : ι → String) (is : List ι) :
    (sep.intercalate (is.map text)).toList = joined sep.toList (fun i => (text i).toList) is := by
  cases is with
  | nil => simp [joined]
  | cons first more => rw [List.map_cons, toList_intercalate_cons, List.flatMap_map, joined]

theorem many_segments {more : List String} (hmore : ∀ word ∈ more, isIdentifier word = true)
    (hr : EndsWord rest) (hdot : rest.head? ≠ some '.') :
    many (do let _ ← char '.'; identifier)
      ((more.flatMap fun word => ".".toList ++ word.toList) ++ rest) = .ok more rest := by
  have hitem : ∀ word ∈ more, ∀ r, EndsWord r → identifier (word.toList ++ r) = .ok word r :=
    fun word hw r hr => identifier_append (hmore word hw) hr
  have hsep : ∀ word ∈ more, ∀ r, ∃ b,
      char '.' (".".toList ++ (word.toList ++ r)) = .ok b (word.toList ++ r) :=
    fun _ _ _ => ⟨'.', rfl⟩
  have hnext : ∀ r, EndsWord (".".toList ++ r) := fun _ => endsWord_cons.mpr (by decide)
  have hrun := many_run hitem hsep (by decide) hnext hr (char_failed hdot)
  rwa [List.map_id'] at hrun

theorem qualifiedName_append {type : String} (ht : IsQualified type) (hr : EndsWord rest)
    (hdot : rest.head? ≠ some '.') : qualifiedName (type.toList ++ rest) = .ok type rest := by
  obtain ⟨first, more, rfl, hfirst, hmore⟩ := ht
  have hends : EndsWord ((more.flatMap fun word => ".".toList ++ word.toList) ++ rest) := by
    cases more with
    | nil => exact hr
    | cons _ _ => exact endsWord_cons.mpr rfl
  rw [toList_intercalate_cons, List.append_assoc]
  simp only [qualifiedName, run_bind, identifier_append hfirst hends, Outcome.andThen_ok,
    many_segments hmore hr hdot, run_pure]

theorem IsQualified.of_identifier (hw : isIdentifier w = true) : IsQualified w :=
  ⟨w, [], by simp, hw, fun _ h => by cases h⟩

theorem many_segments_eq_ok {more : List String}
    (h : many (do let _ ← char '.'; identifier) s = .ok more rest) :
    s = (more.flatMap fun word => ".".toList ++ word.toList) ++ rest ∧
      ∀ word ∈ more, isIdentifier word = true := by
  induction more generalizing s with
  | nil =>
    rcases many_eq_ok h with ⟨-, -, rfl⟩ | ⟨_, _, _, _, _, _, he⟩
    · exact ⟨rfl, by simp⟩
    · cases he
  | cons word more ih =>
    rcases many_eq_ok h with ⟨-, he, -⟩ | ⟨first, mid, others, hfirst, -, hothers, he⟩
    · cases he
    · cases he
      rw [run_bind, Outcome.andThen_eq_ok] at hfirst
      obtain ⟨_, u, hdot, hid⟩ := hfirst
      obtain rfl := char_eq_ok hdot
      obtain ⟨rfl, hword, -⟩ := identifier_eq_ok hid
      obtain ⟨rfl, hmore⟩ := ih hothers
      refine ⟨by simp, ?_⟩
      rw [List.forall_mem_cons]
      exact ⟨hword, hmore⟩

/-- A dotted name is read off the text. -/
theorem qualifiedName_split {type : String} (h : qualifiedName s = .ok type rest) :
    ∃ first more, type = ".".intercalate (first :: more) ∧ isIdentifier first = true ∧
      (∀ word ∈ more, isIdentifier word = true) ∧ s = type.toList ++ rest := by
  rw [qualifiedName, run_bind, Outcome.andThen_eq_ok] at h
  obtain ⟨first, after, hfirst, h⟩ := h
  rw [run_bind, Outcome.andThen_eq_ok] at h
  obtain ⟨more, mid, hmore, h⟩ := h
  cases h
  obtain ⟨rfl, hid, -⟩ := identifier_eq_ok hfirst
  obtain ⟨rfl, hwords⟩ := many_segments_eq_ok hmore
  refine ⟨first, more, rfl, hid, hwords, ?_⟩
  rw [toList_intercalate_cons, List.append_assoc]

/-- The first segment is what stands before the first dot. -/
theorem firstSegment_of_toList {type first : String} {more : List Char}
    (hfirst : isIdentifier first = true) (htype : type.toList = first.toList ++ more)
    (hmore : ∀ c ∈ more.head?, (c != '.') = false) : firstSegment type = first := by
  have hall : first.toList.all (· != '.') = true := by
    rw [List.all_eq_true]
    intro c hc
    have hword := List.all_eq_true.mp (all_isWordChar hfirst) c hc
    simp only [bne_iff_ne]
    rintro rfl
    exact absurd hword (by decide)
  rw [firstSegment, htype, takeWhile_append_stop hall hmore, String.ofList_toList]

theorem firstSegment_intercalate {first : String} (hfirst : isIdentifier first = true)
    (more : List String) : firstSegment (".".intercalate (first :: more)) = first := by
  refine firstSegment_of_toList hfirst (toList_intercalate_cons "." first more) ?_
  cases more with
  | nil => simp
  | cons => simp

theorem firstSegment_append {type : String} (h : firstSegment type ≠ type) (more : String) :
    firstSegment (type ++ more) = firstSegment type := by
  rw [firstSegment, String.toList_append, List.takeWhile_append, if_neg]
  · rfl
  · intro hlen
    have hall := (List.takeWhile_prefix (l := type.toList) (· != '.')).eq_of_length hlen
    exact h (by rw [firstSegment, hall, String.ofList_toList])

/-- The first identifier of a dotted name is read as such, and a dot follows it unless it is the
whole name. -/
theorem qualifiedName_eq_ok {type : String} (h : qualifiedName s = .ok type rest) :
    ∃ after, identifier s = .ok (firstSegment type) after ∧
      (type = firstSegment type ∨ ∃ more, after = '.' :: more) := by
  rw [qualifiedName, run_bind, Outcome.andThen_eq_ok] at h
  obtain ⟨first, after, hfirst, h⟩ := h
  rw [run_bind, Outcome.andThen_eq_ok] at h
  obtain ⟨more, mid, hmore, h⟩ := h
  cases h
  have hseg := firstSegment_intercalate (identifier_eq_ok hfirst).2.1 more
  refine ⟨after, by rw [hseg]; exact hfirst, ?_⟩
  cases more with
  | nil => exact .inl (by rw [hseg]; rfl)
  | cons word more =>
    right
    cases after with
    | nil => simp [many, char, satisfy] at hmore
    | cons c after =>
      by_cases hc : c = '.'
      · exact ⟨after, by rw [hc]⟩
      · rw [many_failed (by simp [char, satisfy, hc])] at hmore
        cases hmore

/-! ### Numbers and texts -/

theorem digits_append {ds : List Char} (hne : ds ≠ []) (hds : ds.all Char.isDigit = true)
    (hr : ∀ c ∈ rest.head?, c.isDigit = false) : digits (ds ++ rest) = .ok ds rest := by
  unfold digits
  rw [takeWhile_append_stop hds hr, dropWhile_append_stop hds hr]
  cases ds with
  | nil => exact absurd rfl hne
  | cons => rfl

theorem isWordChar_of_isDigit {c : Char} (h : c.isDigit = true) : isWordChar c = true := by
  simp [isWordChar, Char.isAlphanum, h]

theorem not_isDigit_of_endsWord (hr : EndsWord rest) : ∀ c ∈ rest.head?, c.isDigit = false := by
  intro c hc
  by_contra hd
  have := isWordChar_of_isDigit (Bool.not_eq_false _ ▸ hd)
  rw [hr c hc] at this
  cases this

theorem digitsValue_toDigits (n : Nat) : digitsValue (Nat.toDigits 10 n) = n :=
  Nat.ofDigitChars_toDigits (by decide) (by decide)

theorem digits_failed (h : ∀ c ∈ s.head?, c.isDigit = false) : (digits s).Failed := by
  unfold digits
  cases s with
  | nil => trivial
  | cons c s => simp [h c rfl]

/-- An integer is read off its digits, if no fraction follows. -/
theorem number_int {n : Nat} (hn : n ≤ maxInt) (hr : EndsWord rest)
    (hdot : ∀ c r, rest = '.' :: c :: r → c.isDigit = false) :
    number (Nat.toDigits 10 n ++ rest) = .ok (.int n) rest := by
  have hdigits : digits (Nat.toDigits 10 n ++ rest) = .ok (Nat.toDigits 10 n) rest := by
    refine digits_append Nat.toDigits_ne_nil ?_ (not_isDigit_of_endsWord hr)
    rw [List.all_eq_true]
    exact fun c hc => Nat.isDigit_of_mem_toDigits (by decide) (by decide) hc
  have hfraction : ((do let _ ← char '.'; digits : Parser (List Char)) rest).Failed := by
    rw [run_bind]
    cases rest with
    | nil => trivial
    | cons c rest =>
      by_cases hc : c = '.'
      · subst hc
        refine digits_failed (s := rest) fun c hc => ?_
        cases rest with
        | nil => cases hc
        | cons d rest => exact hdot c rest (by cases hc; rfl)
      · simp [char, satisfy, hc]
  have hnumeral : numeral (Nat.toDigits 10 n ++ rest) = .ok (.int n) rest := by
    simp only [numeral, run_bind, hdigits, Outcome.andThen_ok, optional_failed hfraction,
      notNext_wordChar hr, run_pure, digitsValue_toDigits]
  simp [number, verify, hnumeral, isInRange, hn]

theorem number_decimal {whole fraction : List Char} (hw : whole ≠ [])
    (hwd : whole.all Char.isDigit = true) (hf : fraction ≠ [])
    (hfd : fraction.all Char.isDigit = true) (hr : EndsWord rest) :
    number (whole ++ '.' :: fraction ++ rest) =
      .ok (.decimal (String.ofList (whole ++ '.' :: fraction))) rest := by
  have hfraction : (do let _ ← char '.'; digits : Parser (List Char))
      ('.' :: (fraction ++ rest)) = .ok fraction rest := by
    rw [run_bind]
    exact digits_append hf hfd (not_isDigit_of_endsWord hr)
  have hwhole : digits (whole ++ '.' :: (fraction ++ rest)) =
      .ok whole ('.' :: (fraction ++ rest)) := by
    refine digits_append hw hwd fun c hc => ?_
    cases hc
    decide
  rw [List.append_assoc, List.cons_append]
  simp only [number, verify, numeral, run_bind, hwhole, Outcome.andThen_ok,
    optional_ok hfraction, notNext_wordChar hr, run_pure, isInRange, if_true]

theorem readQuoted_escape (c : Char) (s : List Char) :
    Text.readQuoted '"' (Text.escape c ++ s) =
      (Text.readQuoted '"' s).map fun (text, after) => (c :: text, after) := by
  unfold Text.escape
  split
  case h_6 c' h1 h2 h3 h4 h5 =>
    have hesc : ¬ (c = '\\' ∨ c = '\n') := by
      rintro (h | h)
      · exact h2 h
      · exact h3 h
    rw [List.singleton_append, Text.readQuoted, if_neg h1, if_neg hesc]
    exact fun _ _ h => absurd h h2
  all_goals
    simp only [List.cons_append, List.nil_append, Text.readQuoted]
    rfl

theorem readQuoted_escaped (text rest : List Char) :
    Text.readQuoted '"' (text.flatMap Text.escape ++ '"' :: rest) = some (text, rest) := by
  induction text with
  | nil => rfl
  | cons c text ih =>
    rw [List.flatMap_cons, List.append_assoc, readQuoted_escape, ih]
    rfl

theorem stringLiteral_quote (text : String) :
    stringLiteral ((Text.quote text).toList ++ rest) = .ok text rest := by
  have hquote : (Text.quote text).toList ++ rest =
      '"' :: (text.toList.flatMap Text.escape ++ '"' :: rest) := by
    simp [Text.quote]
  rw [hquote]
  simp only [stringLiteral, stringLiteral.finish, readQuoted_escaped, String.ofList_toList]

end Token

end QueryBlocks
