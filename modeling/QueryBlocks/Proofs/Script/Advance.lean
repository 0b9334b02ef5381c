import QueryBlocks.Script.Grammar.Declarations
import QueryBlocks.Proofs.Parser.Agree

/-! The lexical rules only go forward, and all but the gaps read something. -/
namespace QueryBlocks

open QueryBlocks.Parser QueryBlocks.Token

namespace Text

theorem readQuoted_suffix {mark : Char} {s text after : List Char}
    (h : readQuoted mark s = some (text, after)) : after <:+ s := by
  fun_induction readQuoted mark s generalizing text with
  | case1 => simp at h
  | case2 c rest ih =>
    obtain ⟨⟨t, a⟩, ht, he⟩ := Option.map_eq_some_iff.mp h
    obtain ⟨-, rfl⟩ := Prod.mk.inj he
    exact ((ih ht).trans (List.suffix_cons _ _)).trans (List.suffix_cons _ _)
  | case3 c rest =>
    cases h
    exact List.suffix_cons _ _
  | case4 => simp at h
  | case5 c rest _ _ _ ih =>
    obtain ⟨⟨t, a⟩, ht, he⟩ := Option.map_eq_some_iff.mp h
    obtain ⟨-, rfl⟩ := Prod.mk.inj he
    exact (ih ht).trans (List.suffix_cons _ _)

end Text

namespace Token

theorem afterComment_suffix {s rest : List Char} (h : afterComment s = some rest) :
    rest <:+ s := by
  fun_induction afterComment s with
  | case1 r =>
    cases h
    exact (List.suffix_cons _ _).trans (List.suffix_cons _ _)
  | case2 _ r _ ih => exact (ih h).trans (List.suffix_cons _ _)
  | case3 => simp at h

theorem skip_suffix (isGap : Char → Bool) (s : List Char) : skip isGap s <:+ s := by
  fun_induction skip isGap s with
  | case1 rest ih =>
    have hd := List.dropWhile_suffix (l := rest) (· != '\n')
    exact ((ih.trans hd).trans (List.suffix_cons _ _)).trans (List.suffix_cons _ _)
  | case2 rest after h ih =>
    exact ((ih.trans (afterComment_suffix h)).trans (List.suffix_cons _ _)).trans
      (List.suffix_cons _ _)
  | case3 => exact List.suffix_refl _
  | case4 c rest _ _ _ ih => exact ih.trans (List.suffix_cons _ _)
  | case5 => exact List.suffix_refl _
  | case6 => exact List.suffix_refl _

theorem advances_gap : Advances 0 gap := Advances.skipping (skip_suffix isGap)

theorem advances_space : Advances 0 space := Advances.skipping (skip_suffix isSpace)

theorem advances_breaks : Advances 0 breaks := Advances.skipping (skip_suffix isBreak)

theorem advances_char (c : Char) : Advances 1 (char c) := Advances.satisfy _

theorem advances_gap1 : Advances 1 gap1 := (Advances.satisfy _).bind_read fun _ => advances_gap

theorem advances_remaining : Advances 0 remaining :=
  fun s => ⟨List.suffix_refl s, Nat.le_refl _⟩

theorem isPrefixOf?_suffix {w s rest : List Char} (h : w.isPrefixOf? s = some rest) :
    rest <:+ s ∧ rest.length + w.length = s.length := by
  induction w generalizing s with
  | nil =>
    cases h
    exact ⟨List.suffix_refl _, rfl⟩
  | cons c w ih =>
    cases s with
    | nil => simp [List.isPrefixOf?] at h
    | cons d s =>
      by_cases hc : c == d
      · simp only [List.isPrefixOf?, hc, if_true] at h
        obtain ⟨hr, hl⟩ := ih h
        exact ⟨hr.trans (List.suffix_cons _ _), by simp only [List.length_cons]; omega⟩
      · simp [List.isPrefixOf?, hc] at h

theorem advances_exactly {word : String} (hw : 1 ≤ word.toList.length) :
    Advances 1 (exactly word) := by
  intro s
  unfold exactly
  cases h : word.toList.isPrefixOf? s with
  | none => exact List.suffix_refl s
  | some rest =>
    obtain ⟨hr, hl⟩ := isPrefixOf?_suffix h
    exact ⟨hr, by omega⟩

theorem advances_keyword {word : String} (hw : 1 ≤ word.toList.length) :
    Advances 1 (keyword word) :=
  (advances_exactly hw).bind_read fun _ => (Advances.satisfy _).notNext

theorem advances_wordRest : Advances 0 wordRest := fun _ =>
  ⟨List.dropWhile_suffix _, (List.dropWhile_suffix _).length_le⟩

theorem advances_identifier : Advances 1 identifier :=
  (Advances.satisfy _).bind_read fun _ => advances_wordRest.bind fun _ => .pure _

theorem advances_name : Advances 1 name := advances_identifier.verify

theorem advances_qualifiedName : Advances 1 qualifiedName :=
  advances_identifier.bind_read fun _ =>
    (((advances_char '.').bind_read fun _ =>
      advances_identifier.weaken (Nat.zero_le _)).many).bind fun _ => .pure _

theorem advances_typeName : Advances 1 typeName := advances_qualifiedName.verify

theorem advances_modifier : Advances 1 modifier := advances_identifier.verify

theorem advances_stringLiteral : Advances 1 stringLiteral := by
  have hfinish (mark : Char) (rest : List Char) :
      (stringLiteral.finish mark rest).Within 1 (mark :: rest) := by
    unfold stringLiteral.finish
    cases h : Text.readQuoted mark rest with
    | none => exact List.suffix_refl _
    | some found =>
      obtain ⟨text, after⟩ := found
      have hs := Text.readQuoted_suffix h
      exact ⟨hs.trans (List.suffix_cons _ _), Nat.succ_le_succ hs.length_le⟩
  intro s
  unfold stringLiteral
  split
  · exact hfinish _ _
  · exact hfinish _ _
  · exact List.suffix_refl s

theorem advances_digits : Advances 1 digits := by
  intro s
  unfold digits
  have hl : (s.takeWhile Char.isDigit).length + (s.dropWhile Char.isDigit).length = s.length := by
    rw [← List.length_append, List.takeWhile_append_dropWhile]
  split
  · exact List.suffix_refl s
  · rename_i h
    refine ⟨List.dropWhile_suffix _, ?_⟩
    have : 1 ≤ (s.takeWhile Char.isDigit).length := List.length_pos_iff.mpr h
    omega

theorem advances_numeral : Advances 1 numeral := by
  refine advances_digits.bind_read fun whole => ?_
  refine (((advances_char '.').bind_read fun _ =>
    advances_digits.weaken (Nat.zero_le _)).optional).bind fun fraction => ?_
  refine ((Advances.satisfy _).notNext).bind fun _ => ?_
  cases fraction with
  | none => exact .pure _
  | some fraction => exact .pure _

theorem advances_number : Advances 1 number := advances_numeral.verify

theorem advances_wordLiteral : Advances 1 wordLiteral :=
  ((advances_keyword (by decide)).bind_read fun _ => .pure _).orElse
    (((advances_keyword (by decide)).bind_read fun _ => .pure _).orElse
      ((advances_keyword (by decide)).bind_read fun _ => .pure _))

theorem advances_assignOp : Advances 1 assignOp :=
  ((advances_exactly (by decide)).bind_read fun _ => .pure _).orElse
    (((advances_exactly (by decide)).bind_read fun _ => .pure _).orElse
      ((advances_char _).bind_read fun _ => (advances_char _).notNext.bind fun _ => .pure _))

theorem advances_equalityOp : Advances 1 equalityOp :=
  ((advances_exactly (by decide)).bind_read fun _ => .pure _).orElse
    ((advances_exactly (by decide)).bind_read fun _ => .pure _)

theorem advances_relationOp : Advances 1 relationOp :=
  ((advances_exactly (by decide)).bind_read fun _ => .pure _).orElse
    (((advances_exactly (by decide)).bind_read fun _ => .pure _).orElse
      (((advances_char _).bind_read fun _ => (advances_char _).notNext.bind fun _ => .pure _).orElse
        (((advances_char _).bind_read fun _ => .pure _).orElse
          (((advances_keyword (by decide)).bind_read fun _ => .pure _).orElse
            ((advances_keyword (by decide)).bind_read fun _ => .pure _)))))

theorem advances_shiftOp : Advances 1 shiftOp :=
  (advances_exactly (by decide)).bind_read fun _ => (advances_char _).notNext.bind fun _ => .pure _

theorem advances_signOp (c : Char) (op : BinOp) {α : Type} {stop : Parser α}
    (hs : Advances 1 stop) :
    Advances 1 (do let _ ← char c; notNext stop; return op) :=
  (advances_char c).bind_read fun _ => hs.notNext.bind fun _ => .pure _

theorem advances_sumOp : Advances 1 sumOp :=
  (advances_signOp _ _ (Advances.satisfy _)).orElse (advances_signOp _ _ (Advances.satisfy _))

theorem advances_productOp : Advances 1 productOp :=
  (advances_signOp _ _ (advances_char _)).orElse
    ((advances_signOp _ _ (Advances.satisfy _)).orElse (advances_signOp _ _ (advances_char _)))

theorem advances_ladder {op : Parser BinOp} (h : op ∈ ladder) : Advances 1 op := by
  simp only [ladder, List.mem_cons, List.not_mem_nil, or_false] at h
  rcases h with rfl | rfl | rfl | rfl | rfl | rfl | rfl
  · exact (advances_exactly (by decide)).bind_read fun _ => .pure _
  · exact (advances_exactly (by decide)).bind_read fun _ => .pure _
  · exact advances_equalityOp
  · exact advances_relationOp
  · exact advances_shiftOp
  · exact advances_sumOp
  · exact advances_productOp

theorem advances_startsArgument : Advances 0 startsArgument :=
  (((advances_keyword (by decide)).orElse ((advances_keyword (by decide)).orElse
    (advances_keyword (by decide)))).notNext).bind fun _ => (Advances.satisfy _).notNext.notNext

end Token

namespace Rules

theorem advances_comma {before after : Parser Unit} (hb : Advances 0 before)
    (ha : Advances 0 after) : Advances 1 (comma before after) :=
  hb.bind fun _ => (advances_char _).bind_read fun _ => ha

theorem advances_closureParams : Advances 0 closureParams :=
  (Advances.sepBy (advances_comma advances_gap advances_gap) advances_name).bind fun _ =>
    advances_gap.bind fun _ => (advances_exactly (by decide)).bind fun _ =>
      advances_space.bind fun _ => .pure _

theorem advances_dot : Advances 1 dot :=
  advances_space.bind fun _ => (advances_char _).bind_read fun _ =>
    (advances_char _).notNext.bind fun _ => advances_gap

theorem advances_castWord : Advances 1 castWord :=
  advances_gap.bind fun _ => (advances_keyword (by decide)).bind_read fun _ => advances_gap

theorem advances_statementEnd : Advances 0 statementEnd := by
  refine advances_gap.bind fun _ => advances_remaining.bind fun rest => ?_
  split
  · exact .pure _
  · exact fun s => List.suffix_refl s

theorem advances_declaredType : Advances 1 declaredType := by
  refine ((advances_keyword (by decide)).bind_read fun _ => .pure _).orElse ?_
  refine advances_typeName.bind_read fun type => (advances_exactly (by decide)).optional.bind
    fun array => ?_
  cases array <;> exact .pure _

theorem advances_typeAhead : Advances 1 typeAhead :=
  advances_declaredType.bind_read fun _ => advances_gap1.bind fun _ => .pure _

theorem advances_initMark : Advances 1 initMark :=
  advances_gap.bind fun _ => (advances_char _).bind_read fun _ =>
    (advances_char _).notNext.bind fun _ => advances_space

theorem advances_value :
    Advances 1 (do gap1; if ended (← remaining) then fail else return : Parser Unit) := by
  refine advances_gap1.bind_read fun _ => advances_remaining.bind fun rest => ?_
  split
  · exact fun s => List.suffix_refl s
  · exact .pure _

theorem advances_elseWord : Advances 1 elseWord :=
  advances_space.bind fun _ => (advances_keyword (by decide)).bind_read fun _ => advances_space

theorem advances_modifiers : Advances 0 modifiers :=
  (advances_modifier.bind_read fun _ => advances_gap1.bind fun _ => .pure _).many

theorem advances_params : Advances 1 params :=
  (advances_char _).bind_read fun _ => advances_space.bind fun _ =>
    (Advances.sepBy (advances_comma advances_space advances_space)
      (advances_typeAhead.optional.bind fun _ => advances_name)).bind fun _ =>
      advances_space.bind fun _ => (advances_char _).bind fun _ => .pure _

theorem advances_typeAfter (words : List String) : Advances 0 (typeAfter words) := by
  unfold typeAfter
  split
  · exact advances_typeAhead.weaken (Nat.zero_le _)
  · exact advances_typeAhead.optional.bind fun _ => .pure _

theorem advances_superclass : Advances 1 superclass :=
  advances_gap1.bind_read fun _ => (advances_keyword (by decide)).bind fun _ =>
    advances_gap1.bind fun _ => advances_qualifiedName.weaken (Nat.zero_le _)

end Rules

end QueryBlocks
