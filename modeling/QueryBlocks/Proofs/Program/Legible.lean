import QueryBlocks.Proofs.Program.ReadBack

/-!
Which programs can be read. The values of a query are written into its program as they are. All of
them can stand on the right of an assignment but those that are spread, and all types but those that
begin with a word that no expression begins with. An instruction with such a value gives a line at
which reading fails; every other instruction is read as a statement.
-/
namespace QueryBlocks

open QueryBlocks.Parser QueryBlocks.Token QueryBlocks.Rules

/-- What the clause stores can be assigned. -/
structure Written.Clause.Plain (c : Written.Clause) : Prop where
  values : ∀ e ∈ c.stored, e.isSpread = false
  types : ∀ type ∈ c.typeName?, StartsExpr (firstSegment type)

/-- The instruction is read as some statement. -/
def Reads (settings : Settings) (i : Instruction) : Prop := ∃ s, Spells settings i s

/-- Reading fails at the line of the instruction, whatever comes below it. -/
def Breaks (settings : Settings) (i : Instruction) : Prop :=
  ∃ t, lines (fun _ => []) String.toList (Program.lines settings i) = t ++ ['\n'] ∧ Begins 0 t ∧
    ∀ r, (keyword "else" (t ++ '\n' :: r)).Failed ∧ (bare.statement (t ++ '\n' :: r)).Failed

/-- Every instruction is read if `plain`, and one of them breaks the text otherwise. -/
structure Legible (settings : Settings) (plain : Prop) (is : List Instruction) : Prop where
  each : ∀ i ∈ is, Reads settings i ∨ Breaks settings i ∧ ¬ plain
  broken : ¬ plain → ∃ i ∈ is, Breaks settings i

namespace Legible

variable {settings : Settings} {p q : Prop} {is js : List Instruction}

theorem congr (h : Legible settings p is) (hpq : p ↔ q) : Legible settings q is :=
  propext hpq ▸ h

theorem of_reads (h : ∀ i ∈ is, Reads settings i) : Legible settings True is where
  each i hi := .inl (h i hi)
  broken hp := absurd trivial hp

theorem of_spells {ss : List Stmt} (h : List.Forall₂ (Spells settings) is ss) :
    Legible settings True is := by
  refine of_reads ?_
  induction h with
  | nil => exact List.forall_mem_nil _
  | cons hspells _ ih => exact List.forall_mem_cons.2 ⟨⟨_, hspells⟩, ih⟩

theorem reads (h : Legible settings p is) (hp : p) : ∀ i ∈ is, Reads settings i :=
  fun i hi => (h.each i hi).resolve_right fun hbroken => hbroken.2 hp

theorem of_breaks {i : Instruction} (hi : Breaks settings i) (hp : ¬ p) :
    Legible settings p [i] where
  each := List.forall_mem_singleton.2 (.inr ⟨hi, hp⟩)
  broken _ := ⟨i, List.mem_singleton_self i, hi⟩

theorem append (h : Legible settings p is) (h' : Legible settings q js) :
    Legible settings (p ∧ q) (is ++ js) where
  each i hi := by
    rcases List.mem_append.1 hi with hi | hi
    · exact (h.each i hi).imp_right fun ⟨hb, hp⟩ => ⟨hb, fun hpq => hp hpq.1⟩
    · exact (h'.each i hi).imp_right fun ⟨hb, hq⟩ => ⟨hb, fun hpq => hq hpq.2⟩
  broken hpq := by
    by_cases hp : p
    · obtain ⟨i, hi, hb⟩ := h'.broken fun hq => hpq ⟨hp, hq⟩
      exact ⟨i, List.mem_append_right _ hi, hb⟩
    · obtain ⟨i, hi, hb⟩ := h.broken hp
      exact ⟨i, List.mem_append_left _ hi, hb⟩

theorem cons {i : Instruction} (h : Legible settings p [i]) (h' : Legible settings q is) :
    Legible settings (p ∧ q) (i :: is) := h.append h'

theorem flatMap {α : Type} {f : α → List Instruction} {r : α → Prop} {l : List α}
    (h : ∀ a ∈ l, Legible settings (r a) (f a)) :
    Legible settings (∀ a ∈ l, r a) (l.flatMap f) := by
  induction l with
  | nil => exact (of_reads (List.forall_mem_nil _)).congr (by simp)
  | cons a l ih =>
    rw [List.forall_mem_cons] at h
    exact (h.1.append (ih h.2)).congr List.forall_mem_cons.symm

end Legible

/-! ### Stores -/

section stores

variable {settings : Settings} (hsuffix : settings.suffix.toList.all isWordChar = true)

include hsuffix

/-- A store breaks the text if no expression begins where its value stands. -/
theorem breaks_store (s : Slot) {value : String} (hvalue : Unspaced value.toList)
    (h : ∀ r, (bare.assignment (value.toList ++ '\n' :: r)).Failed) :
    Breaks settings (.store s (.code value)) := by
  have hname := isName_slot hsuffix s
  have hbegins {k : Nat} : Begins k (Program.slot settings s).toList :=
    .of_identifier (isIdentifier_of_isName hname)
  have hslot : Fits 2 (Program.slot settings s).toList (.var ⟨0, 0⟩ (Program.slot settings s)) :=
    (Primary.var hname).fits.lower (Nat.le_refl 11) (fun _ => hbegins.unsigned (Nat.le_refl 10))
      (Nat.le_refl 2) (by decide)
  refine ⟨(Program.slot settings s).toList ++ ' ' :: '=' :: ' ' :: value.toList, ?_,
    hbegins.append _, fun r => ?_⟩
  · simp [lines, Program.lines, SlotValue.written]
  · have hassigns : BinOp.isAssignment .assign = true := rfl
    have hindex : BinOp.assign ≠ .index := by decide
    have hlead : Lead ((Program.slot settings s).toList ++
        ' ' :: '=' :: ' ' :: (value.toList ++ '\n' :: r)) :=
      .of_isName hname (Tail.of_operator hindex).trail
    have hassign : (bare.assignment ((Program.slot settings s).toList ++
        ' ' :: '=' :: ' ' :: (value.toList ++ '\n' :: r))).Failed := by
      have hrun := assignment_of_operator hassigns (hvalue.append ('\n' :: r)) hslot
      rw [bare_expr] at hrun
      exact hrun ▸ (h r).andThen
    rw [List.append_assoc]
    refine ⟨hlead.keyword_failed (by decide), ?_⟩
    have hstatement := hassign.andThen (f := fun e => pure (Stmt.eval ⟨0, 0⟩ e))
    rwa [← hlead.statement_eq] at hstatement

/-- A value can be assigned if it is not spread. -/
theorem legible_value (s : Slot) {e : Expr} (he : e.ValidArg Declarable) :
    Legible settings (e.isSpread = false) [.store s (.code e.text)] := by
  cases e with
  | spread p e =>
    have htext : (Expr.text (.spread p e)).toList =
        '*' :: (Print.operand 9 e (Print.expr 0 e)).toList := by
      simp [Expr.text, Print.expr]
    refine .of_breaks (breaks_store hsuffix s ?_ fun r => ?_) (by simp [Expr.isSpread])
    · exact ⟨'*', _, htext, by decide, by decide⟩
    · rw [htext]
      exact assignment_failed (by decide) (by decide)
  | _ =>
    exact (Legible.of_spells (.cons (Program.Tree.spells_value hsuffix s he) .nil)).congr
      (by simp [Expr.isSpread])

omit hsuffix in
/-- A reserved word is no expression, unless it is a literal or a type follows `new`. -/
theorem primary_reserved {w : String} {r : List Char} (hid : isIdentifier w = true)
    (hw : ¬ StartsExpr w) (hr : EndsWord r) (hgap : (gap1 r).Failed) :
    (bare.primary (w.toList ++ r)).Failed := by
  have hres := isReserved_of_not_isName hid fun hn => hw (.inl hn)
  have hliteral : (wordLiteral (w.toList ++ r)).Failed :=
    wordLiteral_failed hid hr ⟨fun h => hw (.inr (by simp [h])), fun h => hw (.inr (by simp [h])),
      fun h => hw (.inr (by simp [h]))⟩
  have hnew : (bare.construction (w.toList ++ r)).Failed := by
    by_cases hw : w = "new"
    · rw [hw, construction, run_bind, here, Outcome.andThen_ok, run_bind, keyword_append hr,
        Outcome.andThen_ok, run_bind]
      exact hgap.andThen
    · exact construction_failed hid hr hw
  rw [primary_word hid, (literal_failed hliteral).or, hnew.or, nameOrCall, run_bind, here,
    Outcome.andThen_ok, run_bind]
  exact (name_reserved hid hr hres).andThen

omit hsuffix in
theorem literal_of_mem {w : String} (hw : w ∈ ["true", "false", "null"]) :
    ∃ value : Literal, value.text = w ∧ value.Valid ∧
      11 ≤ (Expr.lit Program.Tree.nowhere value).strength := by
  simp only [List.mem_cons, List.not_mem_nil, or_false] at hw
  rcases hw with rfl | rfl | rfl
  · exact ⟨.bool true, rfl, trivial, by decide⟩
  · exact ⟨.bool false, rfl, trivial, by decide⟩
  · exact ⟨.null, rfl, trivial, by decide⟩

/-- A type can be assigned if its first word can begin an expression. -/
theorem legible_type (s : Slot) {type : String} (htype : IsQualified type) :
    Legible settings (StartsExpr (firstSegment type)) [.store s (.code type)] := by
  obtain ⟨first, more, rfl, hid, hmore⟩ := htype
  rw [firstSegment_intercalate hid]
  by_cases hfirst : StartsExpr first
  · have hreads : ∃ e : Expr, e.Valid Declarable ∧
        Print.expr 0 e = ".".intercalate (first :: more) := by
      rcases hfirst with hname | hword
      · exact ⟨_, Program.Tree.valid_dotted hname hmore, Program.Tree.print_dotted first more⟩
      · obtain ⟨value, htext, hvalid, hstrength⟩ := literal_of_mem hword
        have hlit : (Expr.lit Program.Tree.nowhere value).Valid Declarable := hvalid
        refine ⟨_, Program.Tree.valid_members hlit hmore, ?_⟩
        rw [← String.toList_inj, Program.Tree.print_members more hstrength, toList_intercalate_cons,
          Print.expr, htext]
    obtain ⟨e, he, hprint⟩ := hreads
    have hspells : Spells settings (.store s (.code (".".intercalate (first :: more))))
        (Program.Tree.assign settings s e) := Program.Tree.spells_store hsuffix he hprint.symm
    exact (Legible.of_spells (.cons hspells .nil)).congr (by simp [hfirst])
  · have hrest (r : List Char) : ∃ c u, (more.flatMap fun word => ".".toList ++ word.toList) ++
        '\n' :: r = c :: u ∧ (c = '.' ∨ c = '\n') := by
      cases more with
      | nil => exact ⟨'\n', r, rfl, .inr rfl⟩
      | cons word more => exact ⟨'.', _, rfl, .inl rfl⟩
    refine .of_breaks (breaks_store hsuffix s ?_ fun r => ?_) hfirst
    · rw [toList_intercalate_cons]
      exact (Unspaced.of_identifier hid).append _
    · obtain ⟨c, u, hcu, hc⟩ := hrest r
      rw [toList_intercalate_cons, List.append_assoc, hcu]
      refine assignment_of_primary_failed ?_ (primary_reserved hid hfirst ?_ ?_)
      · exact ((Begins.of_identifier hid).append _).unsigned (k := 10) (Nat.le_refl 10)
      · rcases hc with rfl | rfl <;> exact endsWord_cons.mpr (by decide)
      · rcases hc with rfl | rfl <;> exact gap1_failed (by decide)

/-! ### Clauses -/

theorem legible_setting {v : Written.Setting} (hv : v.value.ValidArg Declarable) :
    Legible settings (v.value.isSpread = false) (Instruction.applySetting v.text) := by
  have hstore := legible_value hsuffix (.ofParam v.param) hv
  have htune := Legible.of_spells (.cons (Program.Tree.spells_tune hsuffix v.param) .nil)
  unfold Instruction.applySetting
  split
  · exact (hstore.append htune).congr (by simp)
  · exact hstore

theorem legible_settings {values : List Written.Setting}
    (hvalues : ∀ v ∈ values, v.value.ValidArg Declarable) :
    Legible settings (∀ v ∈ values, v.value.isSpread = false)
      ((values.map Written.Setting.text).flatMap Instruction.applySetting) := by
  rw [List.flatMap_map]
  exact .flatMap fun v hv => legible_setting hsuffix (hvalues v hv)

theorem legible_origin {o : Written.Origin} (htype : ∀ type ∈ o.typeName, IsQualified type)
    (hancestor : ∀ e ∈ o.ancestor, e.ValidArg Declarable) :
    Legible settings ((∀ e ∈ o.ancestor, e.isSpread = false) ∧
      ∀ type ∈ o.typeName, StartsExpr (firstSegment type)) (Instruction.applyOrigin o.text) := by
  obtain ⟨kind, typeName, representation, ancestor⟩ := o
  have htypes : Legible settings (∀ type ∈ typeName, StartsExpr (firstSegment type))
      (typeName.map fun type => .store .pojoClass (.code type)).toList := by
    cases typeName with
    | none => exact (Legible.of_spells .nil).congr (by simp)
    | some type => exact (legible_type hsuffix _ (htype type rfl)).congr (by simp)
  have hmarker : Legible settings True
      (representation.map fun r => .store .pojo (.text r.text)).toList := by
    cases representation with
    | none => exact .of_spells .nil
    | some r => exact .of_spells (.cons (Program.Tree.spells_text hsuffix _ r.text) .nil)
  have hrest : Legible settings True [.construct, .attachAncestor, .restrictToKeys] :=
    .of_spells (.cons (Program.Tree.spells_construct hsuffix) (.cons
      (Program.Tree.spells_attachAncestor hsuffix) (.cons
        (Program.Tree.spells_restrictToKeys hsuffix) .nil)))
  refine (Legible.cons (p := True) ?_ ((htypes.append hmarker).append
    (.cons (p := ∀ e ∈ ancestor, e.isSpread = false) ?_ hrest))).congr (by simp [and_comm])
  · cases kind with
    | none => exact .of_spells (.cons (Program.Tree.spells_null hsuffix _) .nil)
    | some kind => exact .of_spells (.cons (Program.Tree.spells_text hsuffix _ kind) .nil)
  · cases ancestor with
    | none =>
      exact (Legible.of_spells (.cons (Program.Tree.spells_null hsuffix _) .nil)).congr (by simp)
    | some e => exact (legible_value hsuffix _ (hancestor e rfl)).congr (by simp)

omit hsuffix in
theorem plain_iff {c : Written.Clause} : c.Plain ↔
    (∀ v ∈ c.settings, v.value.isSpread = false) ∧ ∀ o ∈ c.origin?,
      (∀ e ∈ o.ancestor, e.isSpread = false) ∧
        ∀ type ∈ o.typeName, StartsExpr (firstSegment type) := by
  constructor
  · rintro ⟨hvalues, htypes⟩
    rw [Written.Clause.stored, List.forall_mem_append, List.forall_mem_map] at hvalues
    refine ⟨hvalues.1, fun o ho => ⟨fun e he => hvalues.2 e ?_, fun type ht => htypes type ?_⟩⟩
    · rw [Option.mem_def.1 ho, Option.bind_some]
      exact Option.mem_toList.2 he
    · rw [Written.Clause.typeName?, Option.mem_def.1 ho]
      exact ht
  · rintro ⟨hsettings, horigin⟩
    refine ⟨?_, fun type ht => ?_⟩
    · rw [Written.Clause.stored, List.forall_mem_append, List.forall_mem_map]
      refine ⟨hsettings, fun e he => ?_⟩
      obtain ⟨o, ho, he⟩ := Option.bind_eq_some_iff.1 (Option.mem_toList.1 he)
      exact (horigin o ho).1 e he
    · obtain ⟨o, ho, ht⟩ := Option.bind_eq_some_iff.1 ht
      exact (horigin o ho).2 type ht

theorem legible_clause {c : Written.Clause} (hc : c.Given Declarable) :
    Legible settings c.Plain (Instruction.ofClause c.text) := by
  have hstored : ∀ v ∈ c.settings, v.value.ValidArg Declarable := fun v hv =>
    hc.stored _ (List.mem_append_left _ (List.mem_map_of_mem hv))
  cases c with
  | select m values =>
    have hmode : Legible settings True ((m.map Instruction.selectMode).getD []) := by
      cases m with
      | none => exact .of_spells .nil
      | some m => exact .of_spells (Program.Tree.spells_mode hsuffix m)
    have hwords := Legible.of_spells (.cons (Program.Tree.spells_text hsuffix .select "select")
      (.cons (Program.Tree.spells_null hsuffix .cursor) .nil))
    exact ((hwords.append hmode).append (legible_settings hsuffix hstored)).congr
      (by simp [plain_iff, Written.Clause.settings, Written.Clause.origin?])
  | cursor m values =>
    have hwords := Legible.of_spells (.cons (Program.Tree.spells_text hsuffix .cursor "cursor")
      (.cons (Program.Tree.spells_null hsuffix .select) .nil))
    exact ((hwords.append (.of_spells (Program.Tree.spells_mode hsuffix m))).append
      (legible_settings hsuffix hstored)).congr
      (by simp [plain_iff, Written.Clause.settings, Written.Clause.origin?])
  | «from» o =>
    have hancestor : ∀ e ∈ o.ancestor, e.ValidArg Declarable := fun e he =>
      hc.stored e (List.mem_append_right _ (Option.mem_toList.2 he))
    exact (legible_origin hsuffix hc.types hancestor).congr
      (by simp [plain_iff, Written.Clause.settings, Written.Clause.origin?])
  | «where» filters =>
    have hfilter (f : Written.Filter) (hf : f ∈ filters) : List.Forall₂ (Spells settings)
        [.note .whereFields f.text.field, .addFilter f.text]
        [Program.Tree.note settings .whereFields f.field, Program.Tree.addFilter settings f] := by
      have hfield := hc.fields _ (List.mem_map_of_mem hf)
      exact .cons (Program.Tree.spells_note hsuffix hfield)
        (.cons (Program.Tree.spells_addFilter hsuffix hfield (hc.filters f hf)) .nil)
    rw [Written.Clause.text, Instruction.ofClause, List.flatMap_map]
    exact (Legible.of_spells (Program.Tree.spells_flatMap hfilter)).congr
      (by simp [plain_iff, Written.Clause.settings, Written.Clause.origin?])
  | orderBy keys =>
    have hsort (key : SortKey) (hkey : key ∈ keys) : List.Forall₂ (Spells settings)
        [.note .orderByFields key.field, .addSort key]
        [Program.Tree.note settings .orderByFields key.field,
          Program.Tree.addSort settings key] := by
      have hfield := hc.fields _ (List.mem_map_of_mem hkey)
      exact .cons (Program.Tree.spells_note hsuffix hfield)
        (.cons (Program.Tree.spells_addSort hsuffix hfield) .nil)
    exact (Legible.of_spells (Program.Tree.spells_flatMap hsort)).congr
      (by simp [plain_iff, Written.Clause.settings, Written.Clause.origin?])
  | fetchOptions values =>
    have htune := Legible.of_spells (.cons (Program.Tree.spells_tuneIfSet hsuffix .chunkSize)
      (.cons (Program.Tree.spells_tuneIfSet hsuffix .prefetchSize) .nil))
    exact ((legible_settings hsuffix hstored).append htune).congr
      (by simp [plain_iff, Written.Clause.settings, Written.Clause.origin?])

theorem legible_program {clauses : List Written.Clause} (h : ∀ c ∈ clauses, c.Given Declarable) :
    Legible settings (∀ c ∈ clauses, c.Plain)
      (Instruction.ofClauses (clauses.map Written.Clause.text)) := by
  have hslots : ∀ s ∈ Slot.everyOne, Reads settings (.declare s) := fun s _ =>
    ⟨_, Program.Tree.spells_declare hsuffix s⟩
  have hclauses : Legible settings (∀ c ∈ clauses, c.Plain)
      ((clauses.map Written.Clause.text).flatMap Instruction.ofClause) := by
    rw [List.flatMap_map]
    exact .flatMap fun c hc => legible_clause hsuffix (h c hc)
  have hfetch := Legible.of_spells (.cons (Program.Tree.spells_prepare hsuffix)
    (.cons (Program.Tree.spells_fetch hsuffix) .nil))
  exact (((Legible.of_reads (List.forall_mem_map.2 hslots)).append hclauses).append hfetch).congr
    (by simp)

end stores

/-! ### Reading -/

section reading

variable {settings : Settings} {is : List Instruction} {clauses : List Clause} {plain : Prop}

theorem exists_spells (h : ∀ i ∈ is, Reads settings i) :
    ∃ ss, List.Forall₂ (Spells settings) is ss := by
  induction is with
  | nil => exact ⟨[], .nil⟩
  | cons i is ih =>
    rw [List.forall_mem_cons] at h
    obtain ⟨s, hs⟩ := h.1
    obtain ⟨ss, hss⟩ := ih h.2
    exact ⟨s :: ss, .cons hs hss⟩

theorem valid_of_spells {ss : List Stmt} (h : List.Forall₂ (Spells settings) is ss) :
    Stmt.ValidAll Declarable ss := by
  induction h with
  | nil => trivial
  | cons hspells _ ih => exact ⟨hspells.1, ih⟩

/-- The first instruction that breaks the text has only readable ones above it. -/
theorem exists_first_break (h : ∀ i ∈ is, Reads settings i ∨ Breaks settings i)
    (hbreak : ∃ i ∈ is, Breaks settings i) : ∃ above i below, is = above ++ i :: below ∧
      (∀ j ∈ above, Reads settings j) ∧ Breaks settings i := by
  induction is with
  | nil =>
    obtain ⟨i, hi, -⟩ := hbreak
    cases hi
  | cons i is ih =>
    rw [List.forall_mem_cons] at h
    by_cases hi : Breaks settings i
    · exact ⟨[], i, is, rfl, List.forall_mem_nil _, hi⟩
    · have hreads : Reads settings i := h.1.resolve_right hi
      obtain ⟨j, hj, hb⟩ := hbreak
      have hlater : ∃ j ∈ is, Breaks settings j := by
        rcases List.mem_cons.1 hj with rfl | hj
        · exact absurd hb hi
        · exact ⟨j, hj, hb⟩
      obtain ⟨above, k, below, rfl, habove, hk⟩ := ih h.2 hlater
      exact ⟨i :: above, k, below, rfl, List.forall_mem_cons.2 ⟨hreads, habove⟩, hk⟩

/-- A program is not read if one of its instructions breaks it. -/
theorem code_failed
    (h : ∀ i ∈ Instruction.ofClauses clauses, Reads settings i ∨ Breaks settings i)
    (hbreak : ∃ i ∈ Instruction.ofClauses clauses, Breaks settings i) :
    (bare.statements (Program.code settings clauses).toList).Failed := by
  obtain ⟨above, i, below, hsplit, habove, t, htext, hbegins, hfailed⟩ :=
    exists_first_break h hbreak
  obtain ⟨ss, hss⟩ := exists_spells habove
  obtain ⟨items, hitems, -, hlines⟩ := lines_of_spells hss
  let rest := lines (fun _ => []) String.toList (below.flatMap (Program.lines settings))
  have hcode : (Program.code settings clauses).toList =
      lines (fun _ => []) Prod.fst items ++ (t ++ '\n' :: rest) := by
    rw [code_toList, hsplit, List.flatMap_append, List.flatMap_cons, lines_append, lines_append,
      hitems, htext]
    simp [rest]
  have hlead : ∀ item ∈ items, ∀ c ∈ ([] : List Char), isSpace c = true :=
    fun _ _ => List.forall_mem_nil _
  rw [hcode]
  exact sequence_lines_failed hlead hlines (hbegins.append _) (hfailed rest).1 (hfailed rest).2

/-- A program is read exactly if what is stored in it is plain. -/
theorem Legible.read_iff (h : Legible settings plain (Instruction.ofClauses clauses)) :
    (∃ again, Block.read (Program.code settings clauses) = .ok again) ↔ plain := by
  constructor
  · rintro ⟨again, hread⟩
    by_contra hplain
    have heach := fun i hi => (h.each i hi).imp_right And.left
    obtain ⟨e, herror⟩ := Block.read_of_failed (code_failed heach (h.broken hplain))
    rw [hread] at herror
    cases herror
  · intro hplain
    obtain ⟨ss, hss⟩ := exists_spells (h.reads hplain)
    obtain ⟨again, hread, -⟩ := Block.read_of_run (code_run hss)
    exact ⟨again, hread⟩

/-- What comes out of reading a program are its instructions, one by one. -/
theorem Legible.spells_of_read {again : Block}
    (h : Legible settings plain (Instruction.ofClauses clauses))
    (hread : Block.read (Program.code settings clauses) = .ok again) :
    ∃ ss, List.Forall₂ (Spells settings) (Instruction.ofClauses clauses) ss ∧
      again.statements.map Stmt.bare = ss.map Stmt.bare := by
  obtain ⟨ss, hss⟩ := exists_spells (h.reads (h.read_iff.1 ⟨again, hread⟩))
  obtain ⟨other, hother, hbare⟩ := Block.read_of_run (code_run hss)
  obtain rfl : again = other := Except.ok.inj (hread.symm.trans hother)
  exact ⟨ss, hss, hbare⟩

end reading

end QueryBlocks
