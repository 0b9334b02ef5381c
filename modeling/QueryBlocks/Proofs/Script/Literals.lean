import QueryBlocks.Proofs.Script.ClosureFree
import QueryBlocks.Proofs.Script.Newline
import QueryBlocks.Script.Walk

/-!
Literals among other code. A number has no sign of its own: a minus in front is folded into it, again
and again if there are several, and through parentheses. So the numbers of a tree lie as far below
zero as above, and the least number of 64 bits is the one that cannot be written. A quoted text is
read back as it was and ends where its closing mark stands: neither what is in it nor what follows
it can move its end.
-/
namespace QueryBlocks

open QueryBlocks.Parser QueryBlocks.Token QueryBlocks.Rules

/-! ### What a walk over a valid tree comes to -/

/-- A node of a valid tree. Arguments are visited as well, so an expression may be spread. -/
def Visit.Valid (typeOk : String → Prop) : Visit → Prop
  | .stmt s => s.Valid typeOk
  | .expr e => e.ValidArg typeOk
  | _ => True

section

variable {typeOk : String → Prop}

mutual

theorem Expr.Valid.walk : ∀ {e : Expr}, e.Valid typeOk → ∀ v ∈ e.walk, v.Valid typeOk
  | .var .., h => List.forall_mem_singleton.mpr h
  | .lit .., h => List.forall_mem_singleton.mpr h
  | .member .., h => List.forall_mem_cons.mpr ⟨h, h.1.walk⟩
  | .call _ none .., h => List.forall_mem_cons.mpr ⟨h, Expr.ValidAll.walk h.2⟩
  | .call _ (some _) .., h =>
    List.forall_mem_cons.mpr
      ⟨h, List.forall_mem_append.mpr ⟨h.1.walk, Expr.ValidAll.walk h.2.2⟩⟩
  | .construct .., h => List.forall_mem_cons.mpr ⟨h, Expr.ValidAll.walk h.2⟩
  | .cast .., h => List.forall_mem_cons.mpr ⟨h, h.1.walk⟩
  | .binary .., h =>
    List.forall_mem_cons.mpr ⟨h, List.forall_mem_append.mpr ⟨h.1.walk, h.2.walk⟩⟩
  | .not _ e, h => List.forall_mem_cons.mpr ⟨h, Expr.Valid.walk (e := e) h⟩
  | .negate .., h => List.forall_mem_cons.mpr ⟨h, h.1.walk⟩
  | .list _ items, h => List.forall_mem_cons.mpr ⟨h, @Expr.ValidAll.walk items h⟩
  | .closure .., h => List.forall_mem_cons.mpr ⟨h, Block.Valid.walk h.2⟩

theorem Expr.ValidAll.walk : ∀ {es : List Expr}, Expr.ValidAll typeOk es →
    ∀ v ∈ Expr.walkAll es, v.Valid typeOk
  | [], _ => List.forall_mem_nil _
  | e :: es, h => by
    cases e with
    | spread _ e =>
      exact List.forall_mem_append.mpr
        ⟨List.forall_mem_cons.mpr ⟨h.1, Expr.Valid.walk h.1⟩, Expr.ValidAll.walk h.2⟩
    | _ => exact List.forall_mem_append.mpr ⟨Expr.Valid.walk h.1, Expr.ValidAll.walk h.2⟩

theorem Block.Valid.walk : ∀ {b : Block}, b.Valid typeOk → ∀ v ∈ b.walk, v.Valid typeOk
  | ⟨_, statements⟩, h => List.forall_mem_cons.mpr ⟨trivial, @Stmt.ValidAll.walk statements h⟩

theorem Stmt.ValidAll.walk : ∀ {ss : List Stmt}, Stmt.ValidAll typeOk ss →
    ∀ v ∈ Stmt.walkAll ss, v.Valid typeOk
  | [], _ => List.forall_mem_nil _
  | _ :: _, h => List.forall_mem_append.mpr ⟨h.1.walk, Stmt.ValidAll.walk h.2⟩

theorem Stmt.Valid.walk : ∀ {s : Stmt}, s.Valid typeOk → ∀ v ∈ s.walk, v.Valid typeOk
  | .eval _ e, h => List.forall_mem_cons.mpr ⟨h, Expr.Valid.walk (e := e) h⟩
  | .declare _ _ _ none, h => List.forall_mem_singleton.mpr h
  | .declare _ _ _ (some _), h => List.forall_mem_cons.mpr ⟨h, h.2.2.walk⟩
  | .branch _ _ _ none, h =>
    List.forall_mem_cons.mpr ⟨h, List.forall_mem_append.mpr ⟨h.1.walk, h.2.walk⟩⟩
  | .branch _ _ _ (some _), h =>
    List.forall_mem_cons.mpr ⟨h, List.forall_mem_append.mpr
      ⟨List.forall_mem_append.mpr ⟨h.1.walk, h.2.1.walk⟩, h.2.2.walk⟩⟩
  | .ret _ none, h => List.forall_mem_singleton.mpr h
  | .ret _ (some e), h => List.forall_mem_cons.mpr ⟨h, Expr.Valid.walk (e := e) h⟩

end

theorem Field.Valid.walk {f : Field} (h : f.Valid typeOk) : ∀ v ∈ f.walk, v.Valid typeOk := by
  obtain ⟨-, -, -, hinit⟩ := h
  refine List.forall_mem_cons.mpr ⟨trivial, ?_⟩
  cases he : f.init with
  | none => exact List.forall_mem_nil _
  | some e => exact (hinit e he).walk

theorem Method.Valid.walk {m : Method} (h : m.Valid typeOk) : ∀ v ∈ m.walk, v.Valid typeOk :=
  List.forall_mem_cons.mpr ⟨trivial, h.2.2.2.2.walk⟩

theorem ClassDecl.Valid.walk {c : ClassDecl} (h : c.Valid typeOk) :
    ∀ v ∈ c.walk, v.Valid typeOk := by
  obtain ⟨-, -, -, hfields, hmethods⟩ := h
  refine List.forall_mem_cons.mpr ⟨trivial, List.forall_mem_append.mpr ⟨?_, ?_⟩⟩
  · exact List.forall_mem_flatMap.mpr fun f hf => (hfields f hf).walk
  · exact List.forall_mem_flatMap.mpr fun m hm => (hmethods m hm).walk

theorem Item.Valid.walk {i : Item} (h : i.Valid typeOk) : ∀ v ∈ i.walk, v.Valid typeOk := by
  cases i with
  | classDecl c => exact ClassDecl.Valid.walk h
  | method m => exact Method.Valid.walk h
  | statement s => exact Stmt.Valid.walk h

theorem Script.Valid.walk {s : Script} (h : s.Valid typeOk) : ∀ v ∈ s.walk, v.Valid typeOk :=
  List.forall_mem_cons.mpr ⟨trivial, List.forall_mem_flatMap.mpr fun i hi => (h i hi).walk⟩

/-! ### Numbers with their signs -/

/-- An integer could stand with the other sign as well, and a number that is negated has taken the
minus into itself. -/
def Expr.SignFolded : Expr → Prop
  | .lit _ (.int n) => -(2 ^ 63 - 1) ≤ n ∧ n ≤ 2 ^ 63 - 1
  | .negate _ operand => operand.isNumber = false
  | _ => True

theorem natAbs_le_maxInt {n : Int} : n.natAbs ≤ maxInt ↔ -(2 ^ 63 - 1) ≤ n ∧ n ≤ 2 ^ 63 - 1 := by
  unfold maxInt
  omega

theorem Expr.ValidArg.signFolded {e : Expr} (h : e.ValidArg typeOk) : e.SignFolded := by
  cases e with
  | lit _ value =>
    cases value with
    | int n => exact natAbs_le_maxInt.mp h
    | _ => trivial
  | negate _ operand => exact h.2
  | _ => trivial

end

/-- Folding signs cannot overflow. Whatever a text is read as, its integers lie between
`-(2 ^ 63 - 1)` and `2 ^ 63 - 1` and no number is left with a minus in front of it; and wherever a
minus is read, at any depth of any text, the number behind it is not `-2 ^ 63`. -/
theorem Rules.folded_signs_in_range (text : String) :
    (∀ script, Script.read text = .ok script → ∀ e, .expr e ∈ script.walk → e.SignFolded) ∧
      (∀ block, Block.read text = .ok block → ∀ e, .expr e ∈ block.walk → e.SignFolded) ∧
      (∀ expr, Expr.read text = .ok expr → ∀ e, .expr e ∈ expr.walk → e.SignFolded) ∧
      ∀ (place : List Char → Position) (depth : Nat) (s : List Char),
        (nested place depth).signed ('-' :: s) =
            ((nested place depth).unary s).map (negated ((nested place depth).place ('-' :: s))) ∧
          ∀ operand rest, (nested place depth).unary s = .ok operand rest →
            ∀ p, operand ≠ .lit p (.int (-2 ^ 63)) := by
  refine ⟨fun script h e he => ?_, fun block h e he => ?_, fun expr h e he => ?_,
    fun place depth s => ⟨signed_minus _ s, fun operand rest h p hp => ?_⟩⟩
  · exact ((Script.valid_of_read h).walk _ he).signFolded
  · exact ((Block.valid_of_read h).walk _ he).signFolded
  · exact ((Expr.valid_of_read h).walk _ he).signFolded
  · have hvalid := (sound_nested place depth).unary s operand rest h
    have hrange := (Expr.ValidArg.of_valid hvalid).signFolded
    rw [hp] at hrange
    exact absurd hrange.1 (by decide)

def repeatedSigns : String := "x = -(-(-9223372036854775807)) - -y"

theorem Rules.folded_signs_in_range_nested :
    (∃ script, Script.read repeatedSigns = .ok script ∧
        ∀ e, .expr e ∈ script.walk → e.SignFolded) ∧
      (∃ block, Block.read repeatedSigns = .ok block ∧
        ∀ e, .expr e ∈ block.walk → e.SignFolded) ∧
      (∃ expr, Expr.read repeatedSigns = .ok expr ∧
        ∀ e, .expr e ∈ expr.walk → e.SignFolded) ∧
      ∃ operand rest,
        (nested (fun _ => ⟨1, 1⟩) 3).unary "(-9223372036854775807)".toList = .ok operand rest ∧
          ∀ p, operand ≠ .lit p (.int (-2 ^ 63)) := by
  obtain ⟨hscript, hblock, hexpr, hminus⟩ := folded_signs_in_range repeatedSigns
  obtain ⟨script, hs, -⟩ : ∃ script, Script.read repeatedSigns = .ok script ∧
      script.items.length = 1 := exists_ok (by decide +kernel)
  obtain ⟨block, hb, -⟩ : ∃ block, Block.read repeatedSigns = .ok block ∧
      block.statements.length = 1 := exists_ok (by decide +kernel)
  obtain ⟨expr, he, -⟩ : ∃ expr, Expr.read repeatedSigns = .ok expr ∧ expr.isNumber = false :=
    exists_ok (by decide +kernel)
  have hsigned : ((nested (fun _ => ⟨1, 1⟩) 3).unary "(-9223372036854775807)".toList).map
      Expr.isNumber = .ok true [] := by decide +kernel
  obtain ⟨operand, hoperand, -⟩ := Outcome.map_eq_ok.mp hsigned
  exact ⟨⟨script, hs, hscript script hs⟩, ⟨block, hb, hblock block hb⟩,
    ⟨expr, he, hexpr expr he⟩, operand, [], hoperand, (hminus _ _ _).2 operand [] hoperand⟩

/-! ### Integers of 64 bits -/

theorem Expr.eq_lit_of_same {e : Expr} {pos : Position} {value : Literal}
    (h : e.same (.lit pos value) = true) : ∃ p, e = .lit p value := by
  cases e with
  | lit p other =>
    rw [Expr.same, beq_iff_eq] at h
    exact ⟨p, by rw [h]⟩
  | _ => simp [Expr.same] at h

/-- An integer is read back from its text if and only if its digits make a literal. -/
theorem Expr.read_int_iff (pos : Position) (n : Int) :
    (∃ again, Expr.read (Expr.lit pos (.int n)).text = .ok again ∧
      again.same (.lit pos (.int n)) = true) ↔ n.natAbs ≤ maxInt := by
  constructor
  · rintro ⟨again, hread, hsame⟩
    obtain ⟨p, rfl⟩ := Expr.eq_lit_of_same hsame
    exact Expr.valid_of_read hread
  · intro hn
    have hvalid : (Expr.lit pos (.int n)).Valid Declarable := hn
    obtain ⟨again, hread, hbare⟩ := Expr.read_text hvalid
    exact ⟨again, hread, Expr.same_of_bare_eq hbare⟩

/-- Of the integers of 64 bits all but the least are read back from their texts. -/
theorem Expr.int64_reads_back_iff (pos : Position) (n : Int64) :
    (∃ again, Expr.read (Expr.lit pos (.int n.toInt)).text = .ok again ∧
      again.same (.lit pos (.int n.toInt)) = true) ↔ n ≠ Int64.minValue := by
  have hlow := Int64.le_toInt n
  have hhigh := Int64.toInt_lt n
  rw [Expr.read_int_iff, natAbs_le_maxInt, Ne, ← Int64.toInt_inj, Int64.toInt_minValue]
  omega

/-- The digits of the least integer are one too many for a literal, and its sign is no help. -/
theorem Expr.least_int64_not_read_back :
    Expr.read (Expr.lit ⟨1, 1⟩ (.int Int64.minValue.toInt)).text =
      .error (.unexpected ⟨1, 2⟩ "9223372036854775808") := by
  have hrefused : (Expr.read (Expr.lit ⟨1, 1⟩ (.int Int64.minValue.toInt)).text).map
      Expr.isNumber = .error (.unexpected ⟨1, 2⟩ "9223372036854775808") := by decide +kernel
  cases hread : Expr.read (Expr.lit ⟨1, 1⟩ (.int Int64.minValue.toInt)).text with
  | ok e =>
    rw [hread] at hrefused
    cases hrefused
  | error e =>
    rw [hread] at hrefused
    exact congrArg _ (Except.error.inj hrefused)

/-! ### Quoted texts -/

theorem stringLiteral_append {s rest : List Char} {text : String}
    (h : stringLiteral s = .ok text rest) (more : List Char) :
    stringLiteral (s ++ more) = .ok text (rest ++ more) :=
  carries_stringLiteral (C := fun _ => True) more (Nat.lt_succ_self _) h trivial

/-- A part of a quoted text that lacks its end is no literal: the marks inside are escaped. -/
theorem stringLiteral_early {text : String} {early more : List Char}
    (hsplit : early ++ more = (Text.quote text).toList) (hmore : more ≠ []) (value : String)
    (after : List Char) : stringLiteral early ≠ .ok value after := by
  intro hearly
  have hwhole : stringLiteral ((Text.quote text).toList ++ []) = .ok text [] :=
    stringLiteral_quote text
  rw [List.append_nil, ← hsplit, stringLiteral_append hearly] at hwhole
  obtain ⟨-, hrest⟩ := Outcome.ok.inj hwhole
  exact hmore (List.append_eq_nil_iff.mp hrest).2

/-- Reading undoes quoting, whatever the text and whatever code follows it: the literal gives the
text, leaves exactly the code, does not end early, and is an operand of its own wherever an
expression may begin with one. -/
theorem Text.quote_reads_back (text code : String) :
    stringLiteral (Text.quote text ++ code).toList = .ok text code.toList ∧
      (∀ early more, early ++ more = (Text.quote text).toList → more ≠ [] →
        ∀ value after, stringLiteral early ≠ .ok value after) ∧
      ∀ g : Rules, g.primary (Text.quote text ++ code).toList =
        .ok (.lit (g.place (Text.quote text ++ code).toList) (.string text)) code.toList := by
  rw [String.toList_append]
  refine ⟨stringLiteral_quote text, fun early more hsplit hmore => ?_, fun g => ?_⟩
  · exact stringLiteral_early hsplit hmore
  · exact primary_quote g text code.toList

theorem Text.quote_reads_back_marked :
    ['"', 'a', '\\', '"'] ++ ['\\', '\\', '"'] = (Text.quote "a\"\\").toList ∧
      stringLiteral (Text.quote "a\"\\" ++ "\") + b").toList = .ok "a\"\\" "\") + b".toList ∧
      ∀ value after, stringLiteral ['"', 'a', '\\', '"'] ≠ .ok value after := by
  have hsplit : ['"', 'a', '\\', '"'] ++ ['\\', '\\', '"'] = (Text.quote "a\"\\").toList := by
    decide
  obtain ⟨hread, hearly, -⟩ := Text.quote_reads_back "a\"\\" "\") + b"
  exact ⟨hsplit, hread, hearly _ _ hsplit (by decide)⟩

end QueryBlocks
