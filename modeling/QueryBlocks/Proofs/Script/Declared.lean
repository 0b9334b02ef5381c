import QueryBlocks.Proofs.Script.Lines

/-! Types in front of a declared name. Their first word may be one that begins another statement,
but then a dot follows it. -/
namespace QueryBlocks

open QueryBlocks.Parser QueryBlocks.Token QueryBlocks.Rules

/-- A type that a written declaration may have. The segment `else` in front would be taken for the
other branch of a statement on the line above. -/
def Declarable (type : String) : Prop := IsType type ∧ firstSegment type ≠ "else"

section

variable {type w : String} {s u : List Char}

/-- What stands behind the first word of a declared type. -/
inductive TypeRest (w : String) (s : List Char) : List Char → Prop
  | plain (hw : isTypeName w = true) : TypeRest w s (' ' :: s)
  | array (hw : isTypeName w = true) : TypeRest w s ('[' :: ']' :: ' ' :: s)
  | dotted {u : List Char} : TypeRest w s ('.' :: u)

theorem TypeRest.endsWord (h : TypeRest w s u) : EndsWord u := by
  cases h <;> exact endsWord_cons.mpr (by decide)

theorem not_isTypeName : ∀ w ∈ reserved ++ modifierWords, isTypeName w = false := by decide

/-- Only a dotted type begins with a word that has another meaning. -/
theorem TypeRest.dotted_of_mem (h : TypeRest w s u) (hw : w ∈ reserved ++ modifierWords) :
    ∃ v, u = '.' :: v := by
  cases h with
  | plain hname =>
    rw [not_isTypeName w hw] at hname
    cases hname
  | array hname =>
    rw [not_isTypeName w hw] at hname
    cases hname
  | dotted => exact ⟨_, rfl⟩

/-- A declared type begins with a word; if it is reserved, it is the first segment. -/
theorem IsType.split (h : IsType type) (s : List Char) :
    ∃ w u, type.toList ++ ' ' :: s = w.toList ++ u ∧ isIdentifier w = true ∧ TypeRest w s u ∧
      w ≠ "def" ∧ (w ∈ reserved → firstSegment type = w) := by
  obtain ⟨base, ⟨first, more, rfl, hfirst, hmore⟩, hname, hdef, hshape⟩ := h
  rw [firstSegment_intercalate hfirst] at hdef
  cases more with
  | nil =>
    have hsingle : ".".intercalate [first] = first := by simp
    rw [hsingle] at hname hshape
    have hres : first ∈ reserved → firstSegment type = first := by
      intro hmem
      rw [not_isTypeName first (List.mem_append_left _ hmem)] at hname
      cases hname
    rcases hshape with rfl | rfl
    · exact ⟨type, ' ' :: s, rfl, hfirst, .plain hname, hdef, hres⟩
    · exact ⟨first, '[' :: ']' :: ' ' :: s, by simp, hfirst, .array hname, hdef, hres⟩
  | cons word more =>
    obtain ⟨rest, htype⟩ : ∃ rest, type.toList = first.toList ++ '.' :: rest := by
      rcases hshape with rfl | rfl
      · rw [toList_intercalate_cons]
        exact ⟨_, rfl⟩
      · rw [String.toList_append, toList_intercalate_cons, List.append_assoc]
        exact ⟨_, rfl⟩
    refine ⟨first, '.' :: (rest ++ ' ' :: s), ?_, hfirst, .dotted, hdef, fun _ => ?_⟩
    · rw [htype, List.append_assoc, List.cons_append]
    · exact firstSegment_of_toList hfirst htype (by simp)

theorem declaredType_run (h : IsType type) :
    declaredType (type.toList ++ ' ' :: s) = .ok (some type) (' ' :: s) := by
  have hdef : (keyword "def" (type.toList ++ ' ' :: s)).Failed := by
    obtain ⟨w, u, hsplit, hid, hrest, hne, -⟩ := IsType.split h s
    rw [hsplit]
    exact keyword_failed (by decide) (all_isWordChar hid) hrest.endsWord hne
  obtain ⟨base, hqual, hname, -, hshape⟩ := h
  rw [declaredType, run_orElse, run_bind, hdef.andThen.or, run_bind]
  rcases hshape with rfl | rfl
  · have hread : typeName (type.toList ++ ' ' :: s) = .ok type (' ' :: s) :=
      verify_ok (qualifiedName_append hqual (endsWord_cons.mpr (by decide)) (by simp)) hname
    have hbrackets : (exactly "[]" (' ' :: s)).Failed := trivial
    rw [hread, Outcome.andThen_ok, run_bind, optional_failed hbrackets]
    rfl
  · have hread : typeName (base.toList ++ '[' :: ']' :: ' ' :: s) =
        .ok base ('[' :: ']' :: ' ' :: s) :=
      verify_ok (qualifiedName_append hqual (endsWord_cons.mpr (by decide)) (by simp)) hname
    have hbrackets : exactly "[]" ('[' :: ']' :: ' ' :: s) = .ok () (' ' :: s) := rfl
    have htext : (base ++ "[]").toList ++ ' ' :: s = base.toList ++ '[' :: ']' :: ' ' :: s := by
      simp
    rw [htext, hread, Outcome.andThen_ok, run_bind, optional_ok hbrackets]
    rfl

end

/-- The text of a declared type, or the word that stands for its absence. -/
def typeText (type : Option String) : List Char := (type.getD "def").toList

section

variable {type : Option String} {s : List Char}

theorem typeAhead_run (h : ∀ t ∈ type, IsType t) (hs : Unspaced s) :
    typeAhead (typeText type ++ ' ' :: s) = .ok type s := by
  have hread : declaredType (typeText type ++ ' ' :: s) = .ok type (' ' :: s) := by
    cases type with
    | some t => exact declaredType_run (h t rfl)
    | none =>
      have hdef : keyword "def" ("def".toList ++ ' ' :: s) = .ok () (' ' :: s) :=
        keyword_append (endsWord_cons.mpr (by decide))
      rw [declaredType, run_orElse, run_bind, typeText, Option.getD_none, hdef]
      rfl
  rw [typeAhead, run_bind, hread, Outcome.andThen_ok, run_bind, run_gap1 hs]
  rfl

/-- The first word of a declaration. -/
theorem typeText_split (h : ∀ t ∈ type, IsType t) (s : List Char) :
    ∃ w u, typeText type ++ ' ' :: s = w.toList ++ u ∧ isIdentifier w = true ∧
      (w = "def" ∧ u = ' ' :: s ∨
        TypeRest w s u ∧ (w ∈ reserved → ∃ t ∈ type, firstSegment t = w)) := by
  cases type with
  | none => exact ⟨"def", ' ' :: s, rfl, by decide, .inl ⟨rfl, rfl⟩⟩
  | some t =>
    obtain ⟨w, u, hsplit, hid, hrest, -, hseg⟩ := IsType.split (h t rfl) s
    exact ⟨w, u, hsplit, hid, .inr ⟨hrest, fun hmem => ⟨t, rfl, hseg hmem⟩⟩⟩

/-- A reserved word is read off a declared type only in front of a dot. -/
theorem keyword_typeText (h : ∀ t ∈ type, IsType t) (s : List Char) {k : String}
    (hk : k ∈ reserved) (hdef : "def" ≠ k) :
    (keyword k (typeText type ++ ' ' :: s)).Failed ∨
      (∃ t ∈ type, firstSegment t = k) ∧
        ∃ v, keyword k (typeText type ++ ' ' :: s) = .ok () ('.' :: v) := by
  have hkid : k.toList.all isWordChar = true := by
    revert k
    decide
  obtain ⟨w, u, hsplit, hid, hrest⟩ := typeText_split h s
  rw [hsplit]
  rcases hrest with ⟨rfl, rfl⟩ | ⟨hrest, hseg⟩
  · exact .inl (keyword_failed hkid (by decide) (endsWord_cons.mpr (by decide)) hdef)
  · by_cases hw : w = k
    · subst hw
      obtain ⟨v, rfl⟩ := hrest.dotted_of_mem (List.mem_append_left _ hk)
      exact .inr ⟨hseg hk, v, keyword_append (endsWord_cons.mpr (by decide))⟩
    · exact .inl (keyword_failed hkid (all_isWordChar hid) hrest.endsWord hw)

theorem modifiers_typeText (h : ∀ t ∈ type, IsType t) (s : List Char) :
    modifiers (typeText type ++ ' ' :: s) = .ok [] (typeText type ++ ' ' :: s) := by
  refine many_failed ?_
  obtain ⟨w, u, hsplit, hid, hrest⟩ := typeText_split h s
  have hends : EndsWord u := by
    rcases hrest with ⟨-, rfl⟩ | ⟨hrest, -⟩
    · exact endsWord_cons.mpr (by decide)
    · exact hrest.endsWord
  have hread : identifier (w.toList ++ u) = .ok w u := identifier_append hid hends
  rw [hsplit, run_bind]
  by_cases hmod : w ∈ modifierWords
  · rcases hrest with ⟨rfl, -⟩ | ⟨hrest, -⟩
    · exact absurd hmod (by decide)
    · obtain ⟨v, rfl⟩ := hrest.dotted_of_mem (List.mem_append_right _ hmod)
      have hword : modifier (w.toList ++ '.' :: v) = .ok w ('.' :: v) :=
        verify_ok hread (by simpa using hmod)
      rw [hword, Outcome.andThen_ok, run_bind]
      exact (gap1_failed (by decide)).andThen
  · exact (verify_refused hread (by simpa using hmod)).andThen

theorem closureParams_typeText {name : String} (h : ∀ t ∈ type, IsType t)
    (hn : isIdentifier name = true) (r : List Char) :
    (closureParams (typeText type ++ ' ' :: (name.toList ++ r))).Failed := by
  obtain ⟨w, u, hsplit, hid, hrest⟩ := typeText_split h (name.toList ++ r)
  have hspaced : (skip isGap (' ' :: (name.toList ++ r))).head? ≠ some ',' ∧
      (exactly "->" (skip isGap (' ' :: (name.toList ++ r)))).Failed := by
    have hbegins : Begins 0 name.toList := .of_identifier hn
    rw [skip_pos (by decide) (by decide),
      skip_unspaced isBreak_of_isGap (hbegins.unspaced.append r)]
    refine ⟨hbegins.head?_ne (by decide) r, ?_⟩
    obtain ⟨c, more, hnl, hc, -⟩ := isIdentifier_iff.mp hn
    rw [hnl]
    refine Lead.arrow_failed (.inl ?_)
    rintro rfl
    cases hc
  rw [hsplit]
  rcases hrest with ⟨rfl, rfl⟩ | ⟨hrest, -⟩
  · exact Lead.closureParams_of_word hid (endsWord_cons.mpr (by decide)) fun _ => hspaced
  · refine Lead.closureParams_of_word hid hrest.endsWord fun _ => ?_
    cases hrest with
    | plain => exact hspaced
    | array =>
      rw [skip_neg (by decide) (by decide)]
      exact ⟨by simp, trivial⟩
    | dotted =>
      rw [skip_neg (by decide) (by decide)]
      exact ⟨by simp, trivial⟩

theorem conditional_typeText (h : ∀ t ∈ type, IsType t) (s : List Char) :
    (bare.conditional (typeText type ++ ' ' :: s)).Failed := by
  rw [conditional, run_bind, here, Outcome.andThen_ok, run_bind]
  rcases keyword_typeText h s (k := "if") (by decide) (by decide) with hfail | ⟨-, v, hif⟩
  · exact hfail.andThen
  · rw [hif, Outcome.andThen_ok, run_bind, run_space, skip_neg (by decide) (by decide),
      Outcome.andThen_ok, run_bind]
    exact (char_failed (by simp)).andThen

theorem begins_typeText (h : ∀ t ∈ type, IsType t) (s : List Char) :
    Begins 0 (typeText type ++ ' ' :: s) := by
  obtain ⟨w, u, hsplit, hid, -⟩ := typeText_split h s
  rw [hsplit]
  exact (Begins.of_identifier hid).append u

end

/-! ### Modifiers -/

section

variable {words : List String} {s r : List Char}

theorem modifiers_text (words : List String) : (Print.modifiers words).toList =
    words.flatMap fun word => word.toList ++ [' '] := by
  rw [Print.modifiers, String.toList_join, List.flatMap_map]
  simp

theorem modifierWord_facts {w : String} (hw : w ∈ modifierWords) :
    isIdentifier w = true ∧ w ≠ "else" ∧ w ≠ "class" := by
  revert w
  decide

theorem modifiers_append (hw : ∀ word ∈ words, word ∈ modifierWords) (hs : Begins 0 s)
    (hstop : modifiers s = .ok [] s) :
    modifiers ((Print.modifiers words).toList ++ s) = .ok words s := by
  rw [modifiers_text]
  induction words with
  | nil => exact hstop
  | cons word words ih =>
    have hmem := hw word List.mem_cons_self
    have hwords : ∀ w ∈ words, w ∈ modifierWords := fun w h => hw w (List.mem_cons_of_mem _ h)
    generalize hrest : (words.flatMap fun word => word.toList ++ [' ']) ++ s = rest at ih
    have hunspaced : Unspaced rest := by
      rw [← hrest]
      cases words with
      | nil => exact hs.unspaced
      | cons w words =>
        rw [List.flatMap_cons, List.append_assoc, List.append_assoc]
        exact (Unspaced.of_identifier
          (modifierWord_facts (hwords w List.mem_cons_self)).1).append _
    have hread : modifier (word.toList ++ ' ' :: rest) = .ok word (' ' :: rest) :=
      verify_ok (identifier_append (modifierWord_facts hmem).1 (endsWord_cons.mpr (by decide)))
        (by simpa using hmem)
    have hstep : (do let word ← modifier; gap1; return word : Parser String)
        (word.toList ++ ' ' :: rest) = .ok word rest := by
      rw [run_bind, hread, Outcome.andThen_ok, run_bind, run_gap1 hunspaced]
      rfl
    have htext : ((word :: words).flatMap fun word => word.toList ++ [' ']) ++ s =
        word.toList ++ ' ' :: rest := by
      rw [← hrest]
      simp
    rw [htext, modifiers, many_ok hstep, ← modifiers, ih hwords]
    · rfl
    · simp only [List.length_append, List.length_cons]
      omega

theorem begins_modifiers (hw : ∀ word ∈ words, word ∈ modifierWords) (hs : Begins 0 s) :
    Begins 0 ((Print.modifiers words).toList ++ s) := by
  rw [modifiers_text]
  cases words with
  | nil => exact hs
  | cons word words =>
    rw [List.flatMap_cons, List.append_assoc, List.append_assoc]
    exact (Begins.of_identifier (modifierWord_facts (hw word List.mem_cons_self)).1).append _

/-- No modifier is a word that a declaration must not begin with. -/
theorem keyword_modifiers (hw : ∀ word ∈ words, word ∈ modifierWords) {k : String}
    (hk : k = "else" ∨ k = "class") (hs : (keyword k s).Failed) :
    (keyword k ((Print.modifiers words).toList ++ s)).Failed := by
  rw [modifiers_text]
  cases words with
  | nil => exact hs
  | cons word words =>
    obtain ⟨hid, helse, hclass⟩ := modifierWord_facts (hw word List.mem_cons_self)
    rw [List.flatMap_cons, List.append_assoc, List.append_assoc]
    refine keyword_failed ?_ (all_isWordChar hid) (endsWord_cons.mpr (by decide)) ?_
    · rcases hk with rfl | rfl <;> decide
    · rcases hk with rfl | rfl
      · exact helse
      · exact hclass

end

section

variable {type : Option String} {words : List String} {s : List Char}

/-- The type behind modifiers, or without any. -/
theorem typeAfter_run (h : ∀ t ∈ type, IsType t) (hs : Unspaced s) (words : List String) :
    typeAfter words (typeText type ++ ' ' :: s) = .ok type s := by
  have hread := typeAhead_run h hs
  rw [typeAfter]
  split
  · exact hread
  · rw [run_bind, optional_ok hread]
    rfl

/-- Only `class` with a gap behind it begins a class. -/
theorem classDecl_declaration (words : List String)
    (hw : ∀ word ∈ words, word ∈ modifierWords) (h : ∀ t ∈ type, IsType t) (s : List Char) :
    (bare.classDecl ((Print.modifiers words).toList ++ (typeText type ++ ' ' :: s))).Failed := by
  rw [classDecl, run_bind, here, Outcome.andThen_ok, run_bind,
    modifiers_append hw (begins_typeText h s) (modifiers_typeText h s), Outcome.andThen_ok,
    run_bind]
  rcases keyword_typeText h s (k := "class") (by decide) (by decide) with hfail | ⟨-, v, hclass⟩
  · exact hfail.andThen
  · rw [hclass, Outcome.andThen_ok, run_bind]
    exact (gap1_failed (by decide)).andThen

end

end QueryBlocks
