import QueryBlocks.Proofs.Program.Spelling
import QueryBlocks.Proofs.Program.Values
import QueryBlocks.Proofs.Query.Valid
import Mathlib.Data.List.Forall2

/-!
Generated programs are read back. What comes out is the program for the clauses of the query, and
the values in it are those that are written in the query block.
-/
namespace QueryBlocks

open QueryBlocks.Token QueryBlocks.Rules

namespace Program.Tree

variable {settings : Settings} {e : Expr}

/-! ### Clauses -/

section clauses

variable (hsuffix : settings.suffix.toList.all isWordChar = true)

include hsuffix

theorem spells_null (s : Slot) : Spells settings (.store s .null) (assign settings s null) :=
  spells_store hsuffix trivial rfl

theorem spells_text (s : Slot) (t : String) :
    Spells settings (.store s (.text t)) (assign settings s (text t)) :=
  spells_store hsuffix trivial rfl

theorem spells_value (s : Slot) (he : e.Valid Declarable) :
    Spells settings (.store s (.code e.text)) (assign settings s e) :=
  spells_store hsuffix he rfl

theorem spells_type (s : Slot) {type : String} (htype : IsQualified type)
    (hfirst : isReserved (firstSegment type) = false) :
    Spells settings (.store s (.code type)) (assign settings s (ofType type)) := by
  obtain ⟨first, more, rfl, hid, hmore⟩ := htype
  rw [firstSegment_intercalate hid] at hfirst
  have hname : isName first = true := by rw [isName, hid, hfirst]; rfl
  rw [ofType_intercalate hid hmore]
  exact spells_store hsuffix (valid_dotted hname hmore) (print_dotted first more).symm

theorem spells_mode (m : Mode) :
    List.Forall₂ (Spells settings) (Instruction.selectMode m) (mode settings m) := by
  have hchoice (s : Slot) (choice : Mode) : Spells settings
      (.store s (if choice = m then .text choice.text else .null))
      (assign settings s (if choice = m then text choice.text else null)) := by
    split
    · exact spells_text hsuffix s _
    · exact spells_null hsuffix s
  exact .cons (hchoice _ _) (.cons (hchoice _ _) (.cons (hchoice _ _) (.cons (hchoice _ _) .nil)))

theorem spells_setting {v : Written.Setting} (hv : v.value.Valid Declarable) :
    List.Forall₂ (Spells settings) (Instruction.applySetting v.text) (setting settings v) := by
  refine .cons (spells_value hsuffix _ hv) ?_
  by_cases hparam : v.param = .limit ∨ v.param = .offset
  · rw [if_pos hparam, Written.Setting.text, if_pos hparam]
    exact .cons (spells_tune hsuffix v.param) .nil
  · rw [if_neg hparam, Written.Setting.text, if_neg hparam]
    exact .nil

theorem spells_origin {o : Written.Origin}
    (htype : ∀ type ∈ o.typeName, IsQualified type ∧ isReserved (firstSegment type) = false)
    (hancestor : ∀ value ∈ o.ancestor, value.Valid Declarable) :
    List.Forall₂ (Spells settings) (Instruction.applyOrigin o.text) (origin settings o) := by
  obtain ⟨kind, typeName, representation, ancestor⟩ := o
  refine .cons ?_ (List.rel_append (List.rel_append ?_ ?_) (.cons ?_ (.cons
    (spells_construct hsuffix) (.cons (spells_attachAncestor hsuffix) (.cons
      (spells_restrictToKeys hsuffix) .nil)))))
  · cases kind with
    | none => exact spells_null hsuffix _
    | some kind => exact spells_text hsuffix _ kind
  · cases typeName with
    | none => exact .nil
    | some type => exact .cons (spells_type hsuffix _ (htype type rfl).1 (htype type rfl).2) .nil
  · cases representation with
    | none => exact .nil
    | some r => exact .cons (spells_text hsuffix _ r.text) .nil
  · cases ancestor with
    | none => exact spells_null hsuffix _
    | some value => exact spells_value hsuffix _ (hancestor value rfl)

omit hsuffix in
theorem spells_flatMap {α : Type} {f : α → List Instruction} {g : α → List Stmt} {l : List α}
    (h : ∀ a ∈ l, List.Forall₂ (Spells settings) (f a) (g a)) :
    List.Forall₂ (Spells settings) (l.flatMap f) (l.flatMap g) := by
  induction l with
  | nil => exact .nil
  | cons a l ih =>
    rw [List.forall_mem_cons] at h
    exact List.rel_append h.1 (ih h.2)

theorem spells_settings {values : List Written.Setting}
    (hvalues : ∀ v ∈ values, v.value.Valid Declarable) : List.Forall₂ (Spells settings)
      ((values.map Written.Setting.text).flatMap Instruction.applySetting)
      (values.flatMap (setting settings)) := by
  rw [List.flatMap_map]
  exact spells_flatMap fun v hv => spells_setting hsuffix (hvalues v hv)

/-- Each instruction of a clause is read as one statement. -/
theorem spells_clause {c : Written.Clause} (hc : c.Valid) :
    List.Forall₂ (Spells settings) (Instruction.ofClause c.text) (clause settings c) := by
  have hstored : ∀ v ∈ c.settings, v.value.Valid Declarable := fun v hv =>
    hc.values _ (List.mem_append_left _ (List.mem_append_left _ (List.mem_map_of_mem hv)))
  cases c with
  | select m values =>
    refine List.rel_append (List.rel_append (.cons (spells_text hsuffix _ _)
      (.cons (spells_null hsuffix _) .nil)) ?_) (spells_settings hsuffix hstored)
    cases m with
    | none => exact .nil
    | some m => exact spells_mode hsuffix m
  | cursor m values =>
    exact List.rel_append (List.rel_append (.cons (spells_text hsuffix _ _)
      (.cons (spells_null hsuffix _) .nil)) (spells_mode hsuffix m))
      (spells_settings hsuffix hstored)
  | «from» o =>
    refine spells_origin hsuffix hc.types fun e he => hc.values e ?_
    exact List.mem_append_left _ (List.mem_append_right _ (Option.mem_toList.mpr he))
  | «where» filters =>
    rw [Written.Clause.text, Instruction.ofClause, List.flatMap_map]
    refine spells_flatMap fun f hf => ?_
    have hfield := hc.fields _ (List.mem_map_of_mem hf)
    have hvalue := hc.values _ (List.mem_append_right _ (List.mem_map_of_mem hf))
    exact .cons (spells_note hsuffix hfield) (.cons (spells_addFilter hsuffix hfield hvalue) .nil)
  | orderBy keys =>
    refine spells_flatMap fun key hkey => ?_
    have hfield := hc.fields _ (List.mem_map_of_mem hkey)
    exact .cons (spells_note hsuffix hfield) (.cons (spells_addSort hsuffix hfield) .nil)
  | fetchOptions values =>
    exact List.rel_append (spells_settings hsuffix hstored) (.cons (spells_tuneIfSet hsuffix _)
      (.cons (spells_tuneIfSet hsuffix _) .nil))

theorem spells_program {clauses : List Written.Clause} (h : ∀ c ∈ clauses, c.Valid) :
    List.Forall₂ (Spells settings) (Instruction.ofClauses (clauses.map Written.Clause.text))
      (tree settings clauses) := by
  refine List.rel_append (List.rel_append ?_ ?_)
    (.cons (spells_prepare hsuffix) (.cons (spells_fetch hsuffix) .nil))
  · rw [List.forall₂_map_left_iff, List.forall₂_map_right_iff, List.forall₂_same]
    exact fun s _ => spells_declare hsuffix s
  · rw [List.flatMap_map]
    exact spells_flatMap fun c hc => spells_clause hsuffix (h c hc)

end clauses

end Program.Tree

/-! ### Reading -/

/-- The text of a program is a line, or a branch that is laid out as one, for each statement. -/
theorem lines_of_spells {settings : Settings} {is : List Instruction} {ss : List Stmt}
    (h : List.Forall₂ (Spells settings) is ss) : ∃ items : List (List Char × Stmt),
      lines (fun _ => []) String.toList (is.flatMap (Program.lines settings)) =
        lines (fun _ => []) Prod.fst items ∧
      items.map Prod.snd = ss ∧ ∀ item ∈ items, Line bare.statement item.1 item.2.bare := by
  induction h with
  | nil => exact ⟨[], rfl, rfl, fun _ h => (nomatch h)⟩
  | @cons i s is ss hspells _ ih =>
    obtain ⟨-, t, htext, hline⟩ := hspells
    obtain ⟨items, hitems, hmap, hlines⟩ := ih
    refine ⟨(t, s) :: items, ?_, by rw [List.map_cons, hmap],
      List.forall_mem_cons.mpr ⟨hline, hlines⟩⟩
    rw [List.flatMap_cons, lines_append, htext, hitems]
    simp [lines]

theorem code_toList (settings : Settings) (clauses : List Clause) :
    (Program.code settings clauses).toList = lines (fun _ => []) String.toList
      ((Instruction.ofClauses clauses).flatMap (Program.lines settings)) := by
  rw [Program.code, String.toList_join, List.flatMap_map]
  simp [lines]

theorem code_run {settings : Settings} {clauses : List Clause} {ss : List Stmt}
    (h : List.Forall₂ (Spells settings) (Instruction.ofClauses clauses) ss) :
    bare.statements (Program.code settings clauses).toList = .ok (ss.map Stmt.bare) [] := by
  obtain ⟨items, hitems, rfl, hlines⟩ := lines_of_spells h
  have hlead : ∀ item ∈ items, ∀ c ∈ ([] : List Char), isSpace c = true :=
    fun _ _ => List.forall_mem_nil _
  have hrun := sequence_lines hlead hlines EndsBlock.nil
  rw [List.append_nil, ← hitems, ← code_toList] at hrun
  rw [List.map_map]
  exact hrun

/-- The program for a query is read as what it is meant to be, with the values as they are written
in the query. -/
theorem Program.code_reads_back {given settings : Settings} {block : Block} (lookup : TypeLookup)
    (hsettings : given.validate = .ok settings) (hblock : block.Parsed)
    (hspread : ∀ c ∈ Written.clauses block, ∀ e ∈ c.stored, e.isSpread = false)
    (htype : ∀ c ∈ Written.clauses block, ∀ type ∈ c.typeName?,
      isReserved (firstSegment type) = false)
    (helse : ∀ c ∈ Written.clauses block, ∀ e ∈ c.values, ∀ type ∈ e.declaredTypes,
      firstSegment type ≠ "else") :
    (compile settings lookup block.statements).1.clauses =
      (Written.clauses block).map Written.Clause.text ∧
    Slot.everyOne.length = 25 ∧ (Slot.everyOne.map fun s => s.name ++ settings.suffix).Nodup ∧
    ∃ again, Block.read (Program.code settings
        (compile settings lookup block.statements).1.clauses) = .ok again ∧
      Program.Realizes settings (Written.clauses block) again.statements := by
  have hclauses : (compile settings lookup block.statements).1.clauses =
      (Written.clauses block).map Written.Clause.text := compile_clauses settings lookup _
  have hvalid : ∀ c ∈ Written.clauses block, c.Valid := fun c hc =>
    (Written.given_of_parsed hblock c hc).valid (hspread c hc) (htype c hc) (helse c hc)
  have hspells := Tree.spells_program (Settings.suffix_of_validate hsettings) hvalid
  obtain ⟨again, hread, hbare⟩ := Block.read_of_run (code_run hspells)
  refine ⟨hclauses, rfl, nodup_slots settings, again, ?_, .of_bare hbare⟩
  rw [hclauses, hread]

theorem Program.code_reads_back_typed : ∃ block,
    Block.read "select all, limit(-5), offset = \x7b x -> int y = x; y \x7d
      from pojo as com.acme.Person, childOf(owner.key)
      where(name == 'a\"b', age > \x7b z -> z \x7d, KEY_RESERVED_PROPERTY in [1, *more])
      orderBy age as DESC
      fetchOptions chunkSize = (a = 2)" = .ok block ∧
    (∀ c ∈ Written.clauses block, ∀ e ∈ c.stored, e.isSpread = false) ∧
    (∀ c ∈ Written.clauses block, ∀ type ∈ c.typeName?,
      isReserved (firstSegment type) = false) ∧
    (∀ c ∈ Written.clauses block, ∀ e ∈ c.values, ∀ type ∈ e.declaredTypes,
      firstSegment type ≠ "else") ∧
    ∃ again, Block.read (Program.code .standard
        (compile .standard .permissive block.statements).1.clauses) = .ok again ∧
      Program.Realizes .standard (Written.clauses block) again.statements := by
  have hgood : (match Block.read "select all, limit(-5), offset = \x7b x -> int y = x; y \x7d
      from pojo as com.acme.Person, childOf(owner.key)
      where(name == 'a\"b', age > \x7b z -> z \x7d, KEY_RESERVED_PROPERTY in [1, *more])
      orderBy age as DESC
      fetchOptions chunkSize = (a = 2)" with
      | .ok block => (Written.clauses block).all fun c =>
          (c.stored.all fun e => !e.isSpread) &&
          (c.typeName?.all fun type => !isReserved (firstSegment type)) &&
          c.values.all fun e => e.declaredTypes.all fun type => firstSegment type != "else"
      | .error _ => false) = true := by decide +kernel
  split at hgood
  · rename_i block hread
    simp only [List.all_eq_true, Bool.and_eq_true, Bool.not_eq_true', bne_iff_ne] at hgood
    have hspread : ∀ c ∈ Written.clauses block, ∀ e ∈ c.stored, e.isSpread = false :=
      fun c hc => (hgood c hc).1.1
    have htype : ∀ c ∈ Written.clauses block, ∀ type ∈ c.typeName?,
        isReserved (firstSegment type) = false := by
      intro c hc type ht
      have h := (hgood c hc).1.2
      rw [Option.mem_def.mp ht] at h
      simpa using h
    have helse : ∀ c ∈ Written.clauses block, ∀ e ∈ c.values, ∀ type ∈ e.declaredTypes,
        firstSegment type ≠ "else" := fun c hc => (hgood c hc).2
    exact ⟨block, hread, hspread, htype, helse, (Program.code_reads_back .permissive
      Settings.validate_standard
      (.block hread Part.find_nil) hspread htype helse).2.2.2⟩
  · cases hgood

end QueryBlocks
