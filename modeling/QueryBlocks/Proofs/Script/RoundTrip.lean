import QueryBlocks.Proofs.Script.Members
import QueryBlocks.Proofs.Script.Sound

/-!
Writing and reading scripts. Whatever was read is read again from its written form, and gives the
same tree up to places. The only exception are declarations whose type begins with the segment
`else`: behind a statement with a branch they would be read as its other branch.
-/
namespace QueryBlocks

open QueryBlocks.Parser QueryBlocks.Token QueryBlocks.Rules

/-! ### Items -/

/-- The text of an item without its line end. -/
def itemText : Item → List Char
  | .classDecl c => classText c
  | .method m => methodText 0 m
  | .statement s => (Print.stmt 0 s).toList

theorem item_text (i : Item) : (Print.item i).toList = itemText i ++ ['\n'] := by
  cases i with
  | classDecl c => exact class_text c
  | method m =>
    rw [Print.item, method_text]
    rfl
  | statement s => simp [Print.item, itemText]

theorem line_item {i : Item} (hi : i.Valid Declarable) : Line bare.item (itemText i) i.bare := by
  cases i with
  | classDecl c =>
    have h := line_class hi
    refine ⟨h.begins, h.noElse, fun r hr => ?_⟩
    rw [item, run_orElse, run_bind, itemText, h.run r hr]
    rfl
  | method m =>
    have h := line_method (d := 0) hi
    refine ⟨h.begins, h.noElse, fun r hr => ?_⟩
    have hclass : (bare.classDecl (methodText 0 m ++ r)).Failed := by
      rw [methodText, List.append_assoc, List.append_assoc, List.cons_append]
      exact classDecl_declaration _ hi.1 (fun t ht => (hi.2.1 t ht).1) _
    rw [item, run_orElse, run_orElse, run_bind, run_bind, itemText, hclass.andThen.or, h.run r hr]
    rfl
  | statement s =>
    have h := spelled_stmt 0 hi
    refine ⟨h.line.begins, h.line.noElse, fun r hr => ?_⟩
    rw [item, run_orElse, run_orElse, run_bind, run_bind, run_bind, itemText,
      (h.noClass r hr).andThen.or, (h.noMethod r hr).andThen.or, h.line.run r hr]
    rfl

/-- The items of a script, each with the empty line in front of it, if there is one. -/
def itemLines (before : Option Item) : List Item → List (List Char × Item)
  | [] => []
  | i :: more =>
    let isApart := before.any fun b => Print.isDeclaration b || Print.isDeclaration i
    (if isApart then ['\n'] else [], i) :: itemLines (some i) more

theorem items_text : ∀ (i : Item) (more : List Item),
    (Print.items (i :: more)).toList =
      itemText i ++ '\n' :: lines Prod.fst (fun line => itemText line.2) (itemLines (some i) more)
  | i, [] => by
    rw [Print.items, item_text]
    rfl
  | i, next :: more => by
    rw [Print.items, String.toList_append, String.toList_append, item_text, items_text next more]
    simp only [itemLines, Option.any_some]
    split <;> simp [lines]

theorem script_lines (s : Script) : s.text.toList =
    lines Prod.fst (fun line => itemText line.2) (itemLines none s.items) := by
  rw [Script.text]
  cases s.items with
  | nil => rfl
  | cons i more =>
    rw [items_text]
    simp [itemLines, lines]

theorem isSpace_itemLines (before : Option Item) (is : List Item) :
    ∀ line ∈ itemLines before is, ∀ c ∈ line.1, isSpace c = true := by
  induction is generalizing before with
  | nil => exact fun _ h => (nomatch h)
  | cons i is ih =>
    rw [itemLines, List.forall_mem_cons]
    refine ⟨fun c hc => ?_, ih (some i)⟩
    split at hc
    · rw [List.mem_singleton.mp hc]
      decide
    · cases hc

theorem map_itemLines (before : Option Item) (is : List Item) :
    (itemLines before is).map Prod.snd = is := by
  induction is generalizing before with
  | nil => rfl
  | cons i is ih => rw [itemLines, List.map_cons, ih]

/-! ### Whole texts -/

theorem script_run {s : Script} (hs : s.Valid Declarable) :
    bare.script s.text.toList = .ok s.bare [] := by
  have hlines : ∀ line ∈ itemLines none s.items,
      Line bare.item (itemText line.2) (Item.bare line.2) := by
    intro line hline
    refine line_item (hs line.2 ?_)
    rw [← map_itemLines none s.items]
    exact List.mem_map_of_mem hline
  have hrun := sequence_lines (isSpace_itemLines none s.items) hlines EndsBlock.nil
  have hmap : (itemLines none s.items).map (fun line => Item.bare line.2) =
      s.items.map Item.bare := by
    have h := congrArg (List.map Item.bare) (map_itemLines none s.items)
    rwa [List.map_map] at h
  rw [List.append_nil, hmap, ← script_lines] at hrun
  rw [script, run_bind, hrun]
  rfl

theorem block_text_run {b : Block} (hb : b.Valid Declarable) :
    bare.statements b.text.toList = .ok (b.statements.map Stmt.bare) [] := by
  obtain ⟨_, ss⟩ := b
  have hrun := statements_run (spelled_stmts 0 hb) EndsBlock.nil
  rwa [List.append_nil] at hrun

variable {α : Type} {φ : α → α}

/-- What the rules without places read from a whole text is read with places, too. -/
theorem finish_of_bare {source : Source} {p q : Parser α} {k : Nat} {a : α}
    (hpq : Parser.Agree φ k (source.text.length + 1) p q) (hq : q source.text = .ok a []) :
    ∃ b, source.finish (p source.text) = .ok b ∧ φ b = a := by
  have hrun := (hpq source.text (Nat.lt_succ_self _)).1
  rw [hq] at hrun
  obtain ⟨b, hp, hb⟩ := Outcome.map_eq_ok.mp hrun.symm
  refine ⟨b, ?_, hb⟩
  rw [hp, Source.finish, skip_nil]

theorem finish_of_failed {source : Source} {p q : Parser α} {k : Nat}
    (hpq : Parser.Agree φ k (source.text.length + 1) p q) (hq : (q source.text).Failed) :
    ∃ e, source.finish (p source.text) = .error e := by
  have hrun := (hpq source.text (Nat.lt_succ_self _)).1
  cases hp : p source.text with
  | ok a rest =>
    rw [hrun, hp] at hq
    cases hq
  | fail place => exact ⟨_, rfl⟩
  | stop place => exact ⟨_, rfl⟩

theorem Script.read_text {s : Script} (hs : s.Valid Declarable) :
    ∃ again, Script.read s.text = .ok again ∧ again.bare = s.bare :=
  finish_of_bare (agree_bare _ _).script (script_run hs)

theorem Block.read_of_run {text : String} {ss : List Stmt}
    (h : Rules.bare.statements text.toList = .ok ss []) :
    ∃ again, Block.read text = .ok again ∧ again.statements.map Stmt.bare = ss := by
  obtain ⟨statements, hread, hbare⟩ : ∃ statements, (Source.ofString text).finish
      ((Source.ofString text).rules.statements (Source.ofString text).text) = .ok statements ∧
        statements.map Stmt.bare = ss := finish_of_bare (agree_bare _ _).statements h
  refine ⟨⟨⟨1, 1⟩, statements⟩, ?_, hbare⟩
  simp only [Block.read, hread, Except.map]

theorem Block.read_of_failed {text : String} (h : (Rules.bare.statements text.toList).Failed) :
    ∃ e, Block.read text = .error e := by
  obtain ⟨e, hread⟩ : ∃ e, (Source.ofString text).finish
      ((Source.ofString text).rules.statements (Source.ofString text).text) = .error e :=
    finish_of_failed (agree_bare _ _).statements h
  refine ⟨e, ?_⟩
  simp only [Block.read, hread, Except.map]

theorem Block.read_text {b : Block} (hb : b.Valid Declarable) :
    ∃ again, Block.read b.text = .ok again ∧ again.bare = b.bare := by
  obtain ⟨again, hread, hbare⟩ := Block.read_of_run (block_text_run hb)
  obtain ⟨_, statements⟩ := b
  obtain ⟨_, others⟩ := again
  exact ⟨_, hread, by rw [Block.bare_mk, Block.bare_mk, hbare]⟩

/-- A script that was read is read again from its text, and only places differ. -/
theorem Script.reads_back {source : String} {script : Script}
    (hread : Script.read source = .ok script)
    (htypes : ∀ type ∈ script.declaredTypes, firstSegment type ≠ "else") :
    ∃ again, Script.read script.text = .ok again ∧ again.same script = true := by
  have hvalid : script.Valid Declarable := (Script.valid_of_read hread).and htypes
  obtain ⟨again, hagain, hbare⟩ := Script.read_text hvalid
  exact ⟨again, hagain, Script.same_of_bare_eq hbare⟩

theorem Script.reads_back_class : ∃ script,
    Script.read "class A extends b.C \x7b static int n = -1; def f(x) \x7b if (x > 2)
      return [x, *y].go(1) \x7b z -> -z \x7d else b.D[] s = \"a\" \x7d \x7d" = .ok script ∧
      (∀ type ∈ script.declaredTypes, firstSegment type ≠ "else") ∧
      ∃ again, Script.read script.text = .ok again ∧ again.same script = true := by
  have hgood : (match Script.read
      "class A extends b.C \x7b static int n = -1; def f(x) \x7b if (x > 2)
      return [x, *y].go(1) \x7b z -> -z \x7d else b.D[] s = \"a\" \x7d \x7d" with
      | .ok script => script.declaredTypes.all fun type => firstSegment type != "else"
      | .error _ => false) = true := by decide +kernel
  split at hgood
  · rename_i script hread
    have htypes : ∀ type ∈ script.declaredTypes, firstSegment type ≠ "else" := by
      simpa using hgood
    exact ⟨script, hread, htypes, Script.reads_back hread htypes⟩
  · cases hgood

end QueryBlocks
