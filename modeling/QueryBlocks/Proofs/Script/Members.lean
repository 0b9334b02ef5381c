import QueryBlocks.Proofs.Script.Blocks

/-! Written fields, methods and classes are read back. -/
namespace QueryBlocks

open QueryBlocks.Parser QueryBlocks.Token QueryBlocks.Rules

/-! ### Methods -/

section

variable {params : List String} {r : List Char}

theorem param_run {name : String} {c : Char} (hn : isName name = true)
    (hc : c = ',' ∨ c = ')') : param (name.toList ++ c :: r) = .ok name (c :: r) := by
  have hid := isIdentifier_of_isName hn
  have hends : EndsWord (c :: r) := by
    rcases hc with rfl | rfl <;> exact endsWord_cons.mpr (by decide)
  have hdef : (keyword "def" (name.toList ++ c :: r)).Failed := by
    refine keyword_failed (by decide) (all_isWordChar hid) hends ?_
    rintro rfl
    exact absurd hn (by decide)
  have hread : qualifiedName (name.toList ++ c :: r) = .ok name (c :: r) := by
    refine qualifiedName_append (.of_identifier hid) hends ?_
    rcases hc with rfl | rfl <;> simp
  have hbrackets : (exactly "[]" (c :: r)).Failed := by
    rcases hc with rfl | rfl <;> trivial
  have htype : (typeAhead (name.toList ++ c :: r)).Failed := by
    rcases typeAhead_of_qualified hdef hread hbrackets with htype | htype
    · exact htype
    · rw [htype]
      refine (gap1_failed ?_).andThen
      rcases hc with rfl | rfl <;> decide
  rw [param, run_bind, optional_failed htype, Outcome.andThen_ok, name_append hn hends]

theorem params_run (hp : ∀ p ∈ params, isName p = true) :
    Rules.params ('(' :: ((", ".intercalate params).toList ++ ')' :: r)) = .ok params r := by
  have hsep : ∀ p ∈ params, ∀ r, ∃ b, comma space space (", ".toList ++ (p.toList ++ r)) =
      .ok b (p.toList ++ r) := fun p hmem r =>
    ⟨(), comma_spaces (Unspaced.of_identifier (isIdentifier_of_isName (hp p hmem)))⟩
  have hitem : ∀ p ∈ params, ∀ r, (∃ c s, r = c :: s ∧ (c = ',' ∨ c = ')')) →
      param (p.toList ++ r) = .ok p r := by
    rintro p hmem _ ⟨c, s, rfl, hc⟩
    exact param_run (hp p hmem) hc
  have hclose : space (')' :: r) = .ok () (')' :: r) :=
    space_cons (by decide) (by decide)
  have hopen : space ((", ".intercalate params).toList ++ ')' :: r) =
      .ok () ((", ".intercalate params).toList ++ ')' :: r) := by
    refine space_unspaced ?_
    cases params with
    | nil => exact ⟨')', r, rfl, by decide, by decide⟩
    | cons first more =>
      rw [toList_intercalate_cons, List.append_assoc]
      exact (Unspaced.of_identifier
        (isIdentifier_of_isName (hp first List.mem_cons_self))).append _
  have hempty : (param (')' :: r)).Failed := trivial
  have hrun : sepBy (comma space space) param ((", ".intercalate params).toList ++ ')' :: r) =
      .ok params (')' :: r) := by
    have htext : (", ".intercalate params).toList = joined ", ".toList String.toList params := by
      have h := toList_intercalate ", " id params
      rwa [List.map_id] at h
    have h := sepBy_run hitem hsep (by decide) (fun _ => ⟨',', _, rfl, .inl rfl⟩)
      ⟨')', r, rfl, .inr rfl⟩ (comma_failed (.inl rfl)) hempty
    rw [List.map_id'] at h
    rw [htext, h]
  simp only [Rules.params, run_bind, run_char, Outcome.andThen_ok, hopen, hrun, hclose, run_pure]

variable {d : Nat} {m : Method}

theorem block_bare {b : Block} (hb : b.Valid Declarable) (r : List Char) :
    bare.block ((Print.braced d (Print.stmts (d + 1) b.statements)).toList ++ r) =
      .ok b.bare r := by
  obtain ⟨_, ss⟩ := b
  rw [Block.bare_mk]
  exact block_run (spelled_stmts (d + 1) hb) r

/-- The text of a method without its indentation and its line end. -/
def methodText (d : Nat) (m : Method) : List Char :=
  (Print.modifiers m.modifiers).toList ++ (typeText m.returnType ++ ' ' :: (m.name.toList ++
    '(' :: ((", ".intercalate m.params).toList ++ ')' :: ' ' ::
      (Print.braced d (Print.stmts (d + 1) m.body.statements)).toList)))

theorem method_text (d : Nat) (m : Method) : (Print.method d m).toList =
    (Print.indent d).toList ++ (methodText d m ++ ['\n']) := by
  simp [Print.method, methodText, typeText]

theorem method_run (hm : m.Valid Declarable) (r : List Char) :
    bare.method (methodText d m ++ r) = .ok m.bare r := by
  obtain ⟨hwords, htype, hname, hparams, hbody⟩ := hm
  have htypes : ∀ t ∈ m.returnType, IsType t := fun t ht => (htype t ht).1
  have hid := isIdentifier_of_isName hname
  generalize hblockText : (Print.braced d (Print.stmts (d + 1) m.body.statements)).toList ++ r =
    blockText
  generalize hparamText : '(' :: ((", ".intercalate m.params).toList ++ ')' :: ' ' :: blockText) =
    paramText
  have htext : methodText d m ++ r = (Print.modifiers m.modifiers).toList ++
      (typeText m.returnType ++ ' ' :: (m.name.toList ++ paramText)) := by
    rw [← hparamText, ← hblockText]
    simp only [methodText, List.append_assoc, List.cons_append]
  have hmodifiers := modifiers_append hwords (begins_typeText htypes (m.name.toList ++ paramText))
    (modifiers_typeText htypes _)
  have hread := typeAfter_run htypes ((Unspaced.of_identifier hid).append paramText) m.modifiers
  have hends : EndsWord paramText := hparamText ▸ endsWord_cons.mpr (by decide)
  have hgap : gap paramText = .ok () paramText := by
    rw [← hparamText, run_gap, skip_neg (by decide) (by decide)]
  have hparamsRun : Rules.params paramText = .ok m.params (' ' :: blockText) := by
    rw [← hparamText]
    exact params_run hparams
  have hspace : space (' ' :: blockText) = .ok () blockText := by
    rw [run_space, skip_pos (by decide) (by decide), ← hblockText, braced_text,
      skip_neg (by decide) (by decide)]
  have hblock : bare.block blockText = .ok m.body.bare r := by
    rw [← hblockText]
    exact block_bare hbody r
  rw [htext]
  simp only [method, here, run_bind, Outcome.andThen_ok, hmodifiers, hread,
    name_append hname hends, hgap, hparamsRun, hspace, hblock, run_pure]
  rfl

theorem begins_declaration {words : List String} {type : Option String}
    (hwords : ∀ word ∈ words, word ∈ modifierWords) (htype : ∀ t ∈ type, Declarable t)
    (s : List Char) :
    Begins 0 ((Print.modifiers words).toList ++ (typeText type ++ ' ' :: s)) :=
  begins_modifiers hwords (begins_typeText (fun t ht => (htype t ht).1) s)

theorem else_declaration {words : List String} {type : Option String}
    (hwords : ∀ word ∈ words, word ∈ modifierWords) (htype : ∀ t ∈ type, Declarable t)
    (s : List Char) :
    (keyword "else" ((Print.modifiers words).toList ++ (typeText type ++ ' ' :: s))).Failed := by
  refine keyword_modifiers hwords (.inl rfl) ?_
  rcases keyword_typeText (fun t ht => (htype t ht).1) s (k := "else") (by decide) (by decide)
    with hfail | ⟨⟨t, ht, hseg⟩, -⟩
  · exact hfail
  · exact absurd hseg (htype t ht).2

theorem line_method (hm : m.Valid Declarable) : Line bare.method (methodText d m) m.bare where
  begins := begins_declaration hm.1 hm.2.1 _
  noElse r _ := by
    rw [methodText, List.append_assoc, List.append_assoc, List.cons_append]
    exact else_declaration hm.1 hm.2.1 _
  run r _ := method_run hm r

end

/-! ### Fields -/

section

variable {d : Nat} {f : Field} {r : List Char}

def fieldText (d : Nat) (f : Field) : List Char :=
  (Print.modifiers f.modifiers).toList ++
    (typeText f.type ++ ' ' :: (f.name.toList ++ initText d f.init))

theorem field_text (d : Nat) (f : Field) : (Print.field d f).toList =
    (Print.indent d).toList ++ (fieldText d f ++ ['\n']) := by
  cases hf : f.init <;> simp [Print.field, fieldText, typeText, initText, hf]

theorem line_field (hf : f.Valid Declarable) :
    Line bare.classMember (fieldText d f) (.inl f.bare) where
  begins := begins_declaration hf.1 hf.2.1 _
  noElse r _ := by
    rw [fieldText, List.append_assoc, List.append_assoc, List.cons_append]
    exact else_declaration hf.1 hf.2.1 _
  run r hr := by
    obtain ⟨hwords, htype, hname, hinit⟩ := hf
    have htypes : ∀ t ∈ f.type, IsType t := fun t ht => (htype t ht).1
    have hid := isIdentifier_of_isName hname
    generalize hrest : initText d f.init ++ r = rest
    have htext : fieldText d f ++ r = (Print.modifiers f.modifiers).toList ++
        (typeText f.type ++ ' ' :: (f.name.toList ++ rest)) := by
      rw [← hrest]
      simp only [fieldText, List.append_assoc, List.cons_append]
    have hmodifiers := modifiers_append hwords (begins_typeText htypes (f.name.toList ++ rest))
      (modifiers_typeText htypes _)
    have hunspaced := (Unspaced.of_identifier hid).append rest
    have hends : EndsWord rest := hrest ▸ endsWord_init hr
    have hmethod : (bare.method (fieldText d f ++ r)).Failed := by
      rw [htext, ← hrest]
      exact method_declaration _ hwords htypes hname hr
    have hinitRun : bare.initializer rest = .ok (f.init.map Expr.bare) r := by
      rw [← hrest]
      exact initializer_run (fun e he => spelled_expr d (hinit e he)) hr
    have hfield : bare.field (fieldText d f ++ r) = .ok f.bare r := by
      rw [htext]
      simp only [field, here, run_bind, Outcome.andThen_ok, hmodifiers,
        optional_ok (typeAhead_run htypes hunspaced), name_append hname hends, hinitRun, run_pure]
      rfl
    rw [classMember, run_orElse, run_bind, hmethod.andThen.or, run_bind, hfield]
    rfl

end

/-! ### Classes -/

/-- The members of a class, each with what stands in front of it. -/
def methodLines (first : Bool) : List Method → List (List Char × (Field ⊕ Method))
  | [] => []
  | m :: more =>
    ((if first then [] else ['\n']) ++ (Print.indent 1).toList, .inr m) :: methodLines false more

def memberLines (c : ClassDecl) : List (List Char × (Field ⊕ Method)) :=
  c.fields.map (fun f => ((Print.indent 1).toList, .inl f)) ++
    methodLines c.fields.isEmpty c.methods

def memberText : Field ⊕ Method → List Char := Sum.elim (fieldText 1) (methodText 1)

section

variable {c : ClassDecl} {r : List Char}

theorem methods_text (first : Bool) (ms : List Method) : (Print.methods 1 first ms).toList =
    lines Prod.fst (fun line => memberText line.2) (methodLines first ms) := by
  induction ms generalizing first with
  | nil => rfl
  | cons m ms ih =>
    rw [Print.methods, String.toList_append, String.toList_append, ih, method_text]
    cases first <;> simp [methodLines, lines, memberText]

theorem members_text (c : ClassDecl) :
    (String.join (c.fields.map (Print.field 1)) ++
      Print.methods 1 c.fields.isEmpty c.methods).toList =
        lines Prod.fst (fun line => memberText line.2) (memberLines c) := by
  have hfields : (String.join (c.fields.map (Print.field 1))).toList =
      lines Prod.fst (fun line => memberText line.2)
        (c.fields.map fun f => ((Print.indent 1).toList, .inl f)) := by
    rw [String.toList_join, List.flatMap_map, lines, List.flatMap_map]
    simp only [field_text]
    rfl
  rw [String.toList_append, hfields, methods_text, memberLines, lines, lines, lines,
    List.flatMap_append]

theorem isSpace_methodLines (first : Bool) (ms : List Method) :
    ∀ line ∈ methodLines first ms, ∀ c ∈ line.1, isSpace c = true := by
  induction ms generalizing first with
  | nil => exact fun _ h => (nomatch h)
  | cons m ms ih =>
    rw [methodLines, List.forall_mem_cons]
    refine ⟨fun c hc => ?_, ih false⟩
    rcases List.mem_append.mp hc with hc | hc
    · cases first with
      | true => cases hc
      | false =>
        rw [List.mem_singleton.mp hc]
        decide
    · exact isSpace_indent 1 c hc

theorem mem_methodLines {first : Bool} {ms : List Method} {line : List Char × (Field ⊕ Method)}
    (h : line ∈ methodLines first ms) : ∃ m ∈ ms, line.2 = .inr m := by
  induction ms generalizing first with
  | nil => cases h
  | cons m ms ih =>
    rcases List.mem_cons.mp h with rfl | h
    · exact ⟨m, List.mem_cons_self, rfl⟩
    · obtain ⟨m', hm', heq⟩ := ih h
      exact ⟨m', List.mem_cons_of_mem m hm', heq⟩

theorem map_methodLines (first : Bool) (ms : List Method) :
    (methodLines first ms).map (fun line => Sum.map Field.bare Method.bare line.2) =
      ms.map fun m => .inr m.bare := by
  induction ms generalizing first with
  | nil => rfl
  | cons m ms ih => rw [methodLines, List.map_cons, List.map_cons, ih]; rfl

/-- The members of a class without places, fields first. -/
def bareMembers (c : ClassDecl) : List (Field ⊕ Method) :=
  c.fields.map (fun f => .inl f.bare) ++ c.methods.map fun m => .inr m.bare

theorem map_memberLines (c : ClassDecl) :
    (memberLines c).map (fun line => Sum.map Field.bare Method.bare line.2) = bareMembers c := by
  rw [bareMembers, memberLines, List.map_append, map_methodLines, List.map_map]
  rfl

/-- The members between the braces of a class. -/
theorem members_run (hc : c.Valid Declarable) :
    Rules.sequence bare.classMember ('\n' :: (lines Prod.fst (fun line => memberText line.2)
      (memberLines c) ++ '\x7d' :: r)) = .ok (bareMembers c) ('\x7d' :: r) := by
  obtain ⟨-, -, -, hfields, hmethods⟩ := hc
  have hlead : ∀ line ∈ memberLines c, ∀ c ∈ line.1, isSpace c = true := by
    intro line hline
    rcases List.mem_append.mp hline with hline | hline
    · obtain ⟨f, -, rfl⟩ := List.mem_map.mp hline
      exact isSpace_indent 1
    · exact isSpace_methodLines _ _ line hline
  have hlines : ∀ line ∈ memberLines c, Line bare.classMember (memberText line.2)
      (Sum.map Field.bare Method.bare line.2) := by
    intro line hline
    rcases List.mem_append.mp hline with hline | hline
    · obtain ⟨f, hf, rfl⟩ := List.mem_map.mp hline
      exact line_field (hfields f hf)
    · obtain ⟨m, hm, heq⟩ := mem_methodLines hline
      have h := line_method (d := 1) (hmethods m hm)
      rw [heq]
      refine ⟨h.begins, h.noElse, fun r hr => ?_⟩
      have hrun := h.run r hr
      rw [classMember, run_orElse, run_bind, memberText, Sum.elim_inr, hrun]
      rfl
  have hends : EndsBlock ('\x7d' :: r) ('\x7d' :: r) := by
    refine ⟨?_, ?_, .inr ⟨r, rfl⟩⟩ <;> exact skip_neg (by decide) (by decide)
  have hrun := sequence_lines hlead hlines hends
  rw [map_memberLines] at hrun
  rw [Rules.sequence, run_bind, run_breaks] at hrun ⊢
  rw [skip_pos (by decide) (by decide)]
  exact hrun

/-- The text behind the name of a class, up to the brace. -/
def superText : Option String → List Char
  | none => []
  | some type => (" extends " ++ type).toList

theorem superclass_run {super : Option String} (hs : ∀ type ∈ super, IsQualified type)
    (s : List Char) : optional superclass (superText super ++ ' ' :: '\x7b' :: s) =
      .ok super (' ' :: '\x7b' :: s) := by
  cases super with
  | none =>
    have hgap1 : gap1 (' ' :: '\x7b' :: s) = .ok () ('\x7b' :: s) :=
      run_gap1 ⟨_, _, rfl, by decide, by decide⟩
    have hnone : (superclass (' ' :: '\x7b' :: s)).Failed := by
      rw [superclass, run_bind, hgap1, Outcome.andThen_ok, run_bind]
      exact (keyword_symbol (d := 'e') rfl (by decide)).andThen
    rw [superText, List.nil_append, optional_failed hnone]
  | some type =>
    have ht := hs type rfl
    have htext : superText (some type) ++ ' ' :: '\x7b' :: s =
        ' ' :: ("extends".toList ++ ' ' :: (type.toList ++ ' ' :: '\x7b' :: s)) := by
      simp [superText]
    have hgap1 : gap1 (' ' :: ("extends".toList ++ ' ' :: (type.toList ++ ' ' :: '\x7b' :: s))) =
        .ok () ("extends".toList ++ ' ' :: (type.toList ++ ' ' :: '\x7b' :: s)) :=
      run_gap1 ⟨_, _, rfl, by decide, by decide⟩
    have hword : keyword "extends"
        ("extends".toList ++ ' ' :: (type.toList ++ ' ' :: '\x7b' :: s)) =
        .ok () (' ' :: (type.toList ++ ' ' :: '\x7b' :: s)) :=
      keyword_append (endsWord_cons.mpr (by decide))
    have hgap1' := run_gap1 ((Unspaced.of_qualified ht).append (' ' :: '\x7b' :: s))
    have htype : qualifiedName (type.toList ++ ' ' :: '\x7b' :: s) =
        .ok type (' ' :: '\x7b' :: s) :=
      qualifiedName_append ht (endsWord_cons.mpr (by decide)) (by simp)
    refine optional_ok ?_
    simp only [htext, superclass, run_bind, hgap1, Outcome.andThen_ok, hword, hgap1', htype]

def classText (c : ClassDecl) : List Char :=
  (Print.modifiers c.modifiers).toList ++ ("class".toList ++ ' ' :: (c.name.toList ++
    (superText c.superclass ++ ' ' :: '\x7b' :: '\n' ::
      (lines Prod.fst (fun line => memberText line.2) (memberLines c) ++ ['\x7d']))))

theorem class_text (c : ClassDecl) : (Print.classDecl c).toList = classText c ++ ['\n'] := by
  rw [classText, ← members_text, Print.classDecl]
  generalize String.join (c.fields.map (Print.field 1)) ++
    Print.methods 1 c.fields.isEmpty c.methods = members
  cases c.superclass <;> simp [Print.braced, Print.indent, superText]

theorem modifiers_class (s : List Char) : modifiers ("class".toList ++ ' ' :: s) =
    .ok [] ("class".toList ++ ' ' :: s) := by
  refine many_failed ?_
  have hread : identifier ("class".toList ++ ' ' :: s) = .ok "class" (' ' :: s) :=
    identifier_append (by decide) (endsWord_cons.mpr (by decide))
  rw [run_bind]
  exact (verify_refused hread (by decide)).andThen

theorem fields_bareMembers (c : ClassDecl) :
    (bareMembers c).filterMap Sum.getLeft? = c.fields.map Field.bare := by
  rw [bareMembers, List.filterMap_append, List.filterMap_map, List.filterMap_map]
  simp [Function.comp_def]

theorem methods_bareMembers (c : ClassDecl) :
    (bareMembers c).filterMap Sum.getRight? = c.methods.map Method.bare := by
  rw [bareMembers, List.filterMap_append, List.filterMap_map, List.filterMap_map]
  simp [Function.comp_def]

theorem classDecl_run (hc : c.Valid Declarable) (r : List Char) :
    bare.classDecl (classText c ++ r) = .ok c.bare r := by
  obtain ⟨hwords, hname, hsuper, -⟩ := id hc
  generalize hbody : '\n' :: (lines Prod.fst (fun line => memberText line.2) (memberLines c) ++
    '\x7d' :: r) = body
  have htext : classText c ++ r = (Print.modifiers c.modifiers).toList ++ ("class".toList ++ ' ' ::
      (c.name.toList ++ (superText c.superclass ++ ' ' :: '\x7b' :: body))) := by
    rw [← hbody]
    simp only [classText, List.append_assoc, List.cons_append, List.nil_append]
  have hmodifiers := modifiers_append hwords
    ((Begins.of_identifier (w := "class") (by decide)).append
      (' ' :: (c.name.toList ++ (superText c.superclass ++ ' ' :: '\x7b' :: body))))
    (modifiers_class _)
  have hclass : keyword "class" ("class".toList ++ ' ' :: (c.name.toList ++
      (superText c.superclass ++ ' ' :: '\x7b' :: body))) =
        .ok () (' ' :: (c.name.toList ++ (superText c.superclass ++ ' ' :: '\x7b' :: body))) :=
    keyword_append (endsWord_cons.mpr (by decide))
  have hgap1 := run_gap1 ((Unspaced.of_identifier hname).append
    (superText c.superclass ++ ' ' :: '\x7b' :: body))
  have hends : EndsWord (superText c.superclass ++ ' ' :: '\x7b' :: body) := by
    cases c.superclass with
    | none => exact endsWord_cons.mpr (by decide)
    | some type =>
      rw [superText, String.toList_append]
      exact endsWord_cons.mpr (by decide)
  have hmembers : Rules.sequence bare.classMember body = .ok (bareMembers c) ('\x7d' :: r) := by
    rw [← hbody]
    exact members_run hc
  rw [htext]
  simp only [classDecl, here, run_bind, Outcome.andThen_ok, hmodifiers, hclass, hgap1,
    identifier_append hname hends, superclass_run hsuper, run_space,
    skip_pos (g := isSpace) (c := ' ') (by decide) (by decide),
    skip_neg (g := isSpace) (c := '\x7b') (by decide) (by decide), run_char, hmembers, run_pure,
    fields_bareMembers, methods_bareMembers]
  rfl

theorem line_class (hc : c.Valid Declarable) : Line bare.classDecl (classText c) c.bare where
  begins := begins_modifiers hc.1 ((Begins.of_identifier (by decide)).append _)
  noElse r _ := by
    rw [classText, List.append_assoc]
    refine keyword_modifiers hc.1 (.inl rfl) ?_
    rw [List.append_assoc]
    exact keyword_failed (by decide) (by decide) (endsWord_cons.mpr (by decide)) (by decide)
  run r _ := classDecl_run hc r

end

end QueryBlocks
