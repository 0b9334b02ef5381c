import QueryBlocks.Position
import QueryBlocks.Proofs.Text.Bytes
import Mathlib.Data.List.DropRight
import Mathlib.Data.List.Infix

/-!
Places by walking. A place moves with every character that is passed, and the place that the line
index finds for the rest of a text is where the walk over what stands before it ends. Walking never
goes back, and where it ends can be counted.
-/
namespace QueryBlocks

namespace Position

/-- A newline leads to the start of the next line, any other character one column on. -/
def step (p : Position) (c : Char) : Position :=
  if c = '\n' then ⟨p.line + 1, 1⟩ else ⟨p.line, p.column + 1⟩

/-- The place after walking over a text from its start. -/
def walk (before : List Char) : Position := before.foldl step ⟨1, 1⟩

theorem walk_concat (before : List Char) (c : Char) :
    walk (before ++ [c]) = (walk before).step c := by
  simp [walk]

/-- Places are ordered by line, then by column. -/
instance : LE Position where
  le p q := p.line < q.line ∨ p.line = q.line ∧ p.column ≤ q.column

theorem le_def {p q : Position} :
    p ≤ q ↔ p.line < q.line ∨ p.line = q.line ∧ p.column ≤ q.column := Iff.rfl

instance (p q : Position) : Decidable (p ≤ q) :=
  inferInstanceAs (Decidable (_ ∨ _))

theorem le_refl (p : Position) : p ≤ p := .inr ⟨rfl, Nat.le_refl _⟩

theorem le_trans {p q r : Position} (hpq : p ≤ q) (hqr : q ≤ r) : p ≤ r := by
  rw [le_def] at *
  omega

/-- An earlier line, or an earlier column of the same line. -/
instance : LT Position where
  lt p q := p.line < q.line ∨ p.line = q.line ∧ p.column < q.column

theorem lt_def {p q : Position} :
    p < q ↔ p.line < q.line ∨ p.line = q.line ∧ p.column < q.column := Iff.rfl

instance (p q : Position) : Decidable (p < q) :=
  inferInstanceAs (Decidable (_ ∨ _))

theorem lt_of_lt_of_le {p q r : Position} (hpq : p < q) (hqr : q ≤ r) : p < r := by
  rw [lt_def] at *
  rw [le_def] at hqr
  omega

theorem not_lt_of_le {p q : Position} (h : p ≤ q) : ¬ q < p := by
  rw [lt_def]
  rw [le_def] at h
  omega

theorem le_of_lt {p q : Position} (h : p < q) : p ≤ q := by
  rw [lt_def] at h
  rw [le_def]
  omega

theorem lt_step (p : Position) (c : Char) : p < p.step c := by
  unfold step
  split
  · exact .inl (Nat.lt_succ_self _)
  · exact .inr ⟨rfl, Nat.lt_succ_self _⟩

theorem le_foldl_step (p : Position) (s : List Char) : p ≤ s.foldl step p := by
  induction s generalizing p with
  | nil => exact le_refl p
  | cons c s ih => exact le_trans (le_of_lt (lt_step p c)) (ih (p.step c))

theorem walk_le_append (before between : List Char) : walk before ≤ walk (before ++ between) := by
  rw [walk, walk, List.foldl_append]
  exact le_foldl_step _ between

/-- Every character that is passed leads to a later place. -/
theorem walk_lt_append_iff {before between : List Char} :
    walk before < walk (before ++ between) ↔ between ≠ [] := by
  cases between with
  | nil =>
    rw [List.append_nil]
    exact ⟨fun h => absurd h (not_lt_of_le (le_refl _)), fun h => absurd rfl h⟩
  | cons c between =>
    rw [walk, walk, List.foldl_append, List.foldl_cons]
    exact ⟨fun _ => List.cons_ne_nil c between,
      fun _ => lt_of_lt_of_le (lt_step _ c) (le_foldl_step _ between)⟩

/-- Where a walk ends can be counted: the newlines that were passed give the line, and the
characters behind the last of them the column. -/
theorem walk_count (before : List Char) : walk before =
    ⟨1 + before.count '\n', 1 + (before.rtakeWhile (· != '\n')).length⟩ := by
  induction before using List.reverseRecOn with
  | nil => rfl
  | append_singleton before c ih =>
    rw [walk_concat, ih, step, List.count_append]
    by_cases hc : c = '\n'
    · rw [if_pos hc, List.rtakeWhile_concat_neg _ _ _ (by simp [hc]), hc]
      rfl
    · have hcount : [c].count '\n' = 0 := List.count_eq_zero.mpr (by simpa using Ne.symm hc)
      rw [if_neg hc, List.rtakeWhile_concat_pos _ _ _ (by simpa using hc), hcount,
        List.length_append]
      rfl

end Position

/-- The search ends where the entries with the property do, wherever it starts around that. -/
theorem splitPoint_eq {α : Type} {p : α → Bool} {table : Array α} {lo hi k : Nat}
    {hhi : hi ≤ table.size} (hlo : lo ≤ k) (hk : k ≤ hi)
    (hfront : ∀ i (_ : i < table.size), i < k → p table[i] = true)
    (hback : ∀ i (_ : i < table.size), k ≤ i → p table[i] = false) :
    splitPoint p table lo hi hhi = k := by
  fun_induction splitPoint p table lo hi hhi with
  | case1 lo hi hhi hlt mid hmid hp ih =>
    -- the entry in the middle has the property, so the end is behind it
    refine ih (Nat.lt_of_not_le fun hle => ?_) hk
    rw [hback mid hmid hle] at hp
    cases hp
  | case2 lo hi hhi hlt mid hmid hp ih =>
    refine ih hlo (Nat.le_of_not_lt fun hle => ?_)
    exact hp (hfront mid hmid hle)
  | case3 lo hi hhi hlt => omega

theorem splitPoint_append {α : Type} {p : α → Bool} {front back : List α}
    (hfront : ∀ a ∈ front, p a = true) (hback : ∀ a ∈ back, p a = false) :
    splitPoint p (front ++ back).toArray 0 (front ++ back).toArray.size (Nat.le_refl _) =
      front.length := by
  refine splitPoint_eq (Nat.zero_le _) (by simp) (fun i hi hlt => ?_) (fun i hi hle => ?_)
  · rw [List.getElem_toArray, List.getElem_append_left hlt]
    exact hfront _ (List.getElem_mem _)
  · rw [List.getElem_toArray, List.getElem_append_right hle]
    exact hback _ (List.getElem_mem _)

namespace LineIndex

open Text

theorem startsFrom_append (k : Nat) (s t : List Char) :
    startsFrom k (s ++ t) = startsFrom k s ++ startsFrom (k + byteSize s) t := by
  induction s generalizing k with
  | nil => rfl
  | cons c s ih =>
    rw [List.cons_append, startsFrom, startsFrom, ih, byteSize, Nat.add_assoc]
    split <;> rfl

/-- A line begins behind the newline that ends the one before, so inside the text or at its end. -/
theorem mem_startsFrom {k n : Nat} {s : List Char} (h : n ∈ startsFrom k s) :
    k < n ∧ n ≤ k + byteSize s := by
  induction s generalizing k with
  | nil => cases h
  | cons c s ih =>
    have hc := c.utf8Size_pos
    rw [byteSize]
    rw [startsFrom] at h
    split at h
    · rcases List.mem_cons.mp h with rfl | h
      · omega
      · have := ih h
        omega
    · have := ih h
      omega

theorem le_byteSize_of_mem {before : List Char} {n : Nat} (h : n ∈ 0 :: startsFrom 0 before) :
    n ≤ byteSize before := by
  rcases List.mem_cons.mp h with rfl | h
  · exact Nat.zero_le _
  · have := mem_startsFrom h
    omega

theorem starts_append (before rest : List Char) : (ofText (before ++ rest)).starts =
    ((0 :: startsFrom 0 before) ++ startsFrom (byteSize before) rest).toArray := by
  rw [ofText, startsFrom_append, Nat.zero_add, List.cons_append]

/-- The lines begun at the end of `before` are those that it holds the start of. -/
theorem lineAt_append (before rest : List Char) :
    (ofText (before ++ rest)).lineAt (byteSize before) = (startsFrom 0 before).length + 1 := by
  have hbefore : ∀ n ∈ 0 :: startsFrom 0 before, decide (n ≤ byteSize before) = true :=
    fun n hn => decide_eq_true (le_byteSize_of_mem hn)
  have hrest : ∀ n ∈ startsFrom (byteSize before) rest, decide (n ≤ byteSize before) = false :=
    fun n hn => decide_eq_false (Nat.not_le_of_lt (mem_startsFrom hn).1)
  rw [lineAt]
  simp only [starts_append]
  exact splitPoint_append hbefore hrest

theorem startsFrom_concat (before : List Char) (c : Char) : startsFrom 0 (before ++ [c]) =
    if c = '\n' then startsFrom 0 before ++ [byteSize before + 1] else startsFrom 0 before := by
  rw [startsFrom_append, Nat.zero_add, startsFrom]
  split
  · rfl
  · exact List.append_nil _

/-- One line begins behind each newline. -/
theorem length_startsFrom (k : Nat) (s : List Char) :
    (startsFrom k s).length = s.count '\n' := by
  induction s generalizing k with
  | nil => rfl
  | cons c s ih => by_cases hc : c = '\n' <;> simp [startsFrom, hc, ih]

/-- The last line begins behind what ends with the last newline. -/
theorem getLastD_startsFrom (before : List Char) :
    (startsFrom 0 before).getLastD 0 = byteSize (before.rdropWhile (· != '\n')) := by
  induction before using List.reverseRecOn with
  | nil => rfl
  | append_singleton before c ih =>
    rw [startsFrom_concat]
    by_cases hc : c = '\n'
    · rw [if_pos hc, List.getLastD_concat, List.rdropWhile_concat_neg _ _ _ (by simp [hc]),
        byteSize_append, hc]
      rfl
    · rw [if_neg hc, ih, List.rdropWhile_concat_pos _ _ _ (by simpa using hc)]

/-- The start of the line stands in the table in front of the lines that are still to come. -/
theorem start?_append (before rest : List Char) :
    (ofText (before ++ rest)).start? ((startsFrom 0 before).length + 1) =
      some (byteSize (before.rdropWhile (· != '\n'))) := by
  have hlast : (0 :: startsFrom 0 before).getLast? = some ((startsFrom 0 before).getLastD 0) := by
    rw [List.getLast?_cons, List.getLastD_eq_getLast?]
  rw [List.getLast?_eq_getElem?, List.length_cons, Nat.add_sub_cancel] at hlast
  rw [start?, starts_append, List.getElem?_toArray,
    List.getElem?_append_left (Nat.lt_succ_self _), hlast, getLastD_startsFrom]

/-- From the start of the last line on, `before` holds the characters behind the last newline. -/
theorem slice?_line (before rest : List Char) :
    slice? (byteSize (before.rdropWhile (· != '\n'))) (byteSize before) (before ++ rest) =
      some (before.rtakeWhile (· != '\n')) := by
  have hslice := slice?_append (before.rdropWhile (· != '\n')) (before.rtakeWhile (· != '\n')) rest
  rwa [List.rdropWhile_append_rtakeWhile] at hslice

/-- The index finds the place that walking leads to. -/
theorem locate?_append (before rest : List Char) :
    (ofText (before ++ rest)).locate? rest = some (Position.walk before) := by
  have hoffset : (ofText (before ++ rest)).size - byteSize rest = byteSize before := by
    rw [ofText, byteSize_append, Nat.add_sub_cancel]
  rw [locate?, position?, hoffset, lineAt_append, start?_append]
  simp only [Option.bind_eq_bind, Option.bind_some]
  rw [ofText, slice?_line, Position.walk_count, length_startsFrom]
  simp [Nat.add_comm]

theorem locate_append (before rest : List Char) :
    (ofText (before ++ rest)).locate rest = Position.walk before := by
  rw [locate, locate?_append]
  rfl

/-- What is left later lies no earlier in the text. -/
theorem locate_le {text s rest : List Char} (hs : s <:+ text) (hrest : rest <:+ s) :
    (ofText text).locate s ≤ (ofText text).locate rest := by
  obtain ⟨before, rfl⟩ := hs
  obtain ⟨between, rfl⟩ := hrest
  have hlater := locate_append (before ++ between) rest
  rw [List.append_assoc] at hlater
  rw [locate_append, hlater]
  exact Position.walk_le_append before between

/-! ### Counting -/

/-- What a search in the table of line starts is to find for a byte offset. Lines count from one;
those up to the line have begun at the offset, those behind it have not, and the column counts the
characters from the start of the line. -/
structure Finds (index : LineIndex) (offset : Nat) (place : Position) : Prop where
  pos : 0 < place.line
  le_size : place.line ≤ index.starts.size
  begun : ∀ start ∈ index.starts.toList.take place.line, start ≤ offset
  later : ∀ start ∈ index.starts.toList.drop place.line, offset < start
  column : ∃ start line, index.starts[place.line - 1]? = some start ∧
    slice? start offset index.text = some line ∧ place.column = line.length + 1

theorem finds_walk (before rest : List Char) :
    (ofText (before ++ rest)).Finds (byteSize before) (Position.walk before) := by
  have hline : (Position.walk before).line = (0 :: startsFrom 0 before).length := by
    rw [Position.walk_count, List.length_cons, length_startsFrom, Nat.add_comm]
  refine ⟨?_, ?_, fun start h => ?_, fun start h => ?_, _, _, ?_, slice?_line before rest, ?_⟩
  · rw [hline]
    exact Nat.succ_pos _
  · rw [hline, starts_append, List.size_toArray, List.length_append]
    exact Nat.le_add_right _ _
  · rw [hline, starts_append, List.take_left] at h
    exact le_byteSize_of_mem h
  · rw [hline, starts_append, List.drop_left] at h
    exact (mem_startsFrom h).1
  · rw [hline]
    exact start?_append before rest
  · rw [Position.walk_count]
    exact Nat.add_comm _ _

section

variable {text before after before' after' : String}

theorem locate_eq_walk (h : before ++ after = text) :
    (ofText text.toList).locate after.toList = Position.walk before.toList := by
  rw [← h, String.toList_append]
  exact locate_append _ _

/-- The places of two ends of a text are in the order of their offsets. -/
theorem locate_lt_iff (h : before ++ after = text) (h' : before' ++ after' = text) :
    (ofText text.toList).locate after.toList < (ofText text.toList).locate after'.toList ↔
      before.utf8ByteSize < before'.utf8ByteSize := by
  have hlist : before.toList ++ after.toList = before'.toList ++ after'.toList := by
    rw [← String.toList_append, ← String.toList_append, h, h']
  rw [locate_eq_walk h, locate_eq_walk h']
  -- one of the two leading parts goes on where the other ends
  rcases List.append_eq_append_iff.mp hlist with ⟨between, hmore, -⟩ | ⟨between, hmore, -⟩
  · have hbefore : before' = before ++ String.ofList between := by
      rw [← String.toList_inj, hmore, String.toList_append, String.toList_ofList]
    rw [hmore, Position.walk_lt_append_iff, hbefore, String.utf8ByteSize_append,
      Nat.lt_add_right_iff_pos, Nat.pos_iff_ne_zero, Ne, Ne, String.utf8ByteSize_eq_zero_iff,
      ← String.toList_eq_nil_iff, String.toList_ofList]
  · have hbefore : before = before' ++ String.ofList between := by
      rw [← String.toList_inj, hmore, String.toList_append, String.toList_ofList]
    rw [hmore, hbefore, String.utf8ByteSize_append]
    refine ⟨fun hlt => ?_, fun hlt => by omega⟩
    exact absurd hlt (Position.not_lt_of_le (Position.walk_le_append _ between))

/-- The place of what is left of a text is found, and it is the one that counting gives: one line
for each newline before it, and one column for each character behind the last of these. It is found
inside the table, which is searched by bytes, and what is left later, by the bytes before it, has a
later place. -/
theorem locate_counts (h : before ++ after = text) :
    (ofText text.toList).locate? after.toList =
        some ((ofText text.toList).locate after.toList) ∧
      (ofText text.toList).locate after.toList =
        ⟨1 + before.toList.count '\n', 1 + (before.toList.rtakeWhile (· != '\n')).length⟩ ∧
      (ofText text.toList).Finds before.utf8ByteSize
        ((ofText text.toList).locate after.toList) ∧
      ∀ before' after' : String, before' ++ after' = text →
        ((ofText text.toList).locate after.toList < (ofText text.toList).locate after'.toList ↔
          before.utf8ByteSize < before'.utf8ByteSize) := by
  refine ⟨?_, ?_, ?_, fun before' after' h' => locate_lt_iff h h'⟩
  · rw [locate_eq_walk h, ← h, String.toList_append]
    exact locate?_append _ _
  · rw [locate_eq_walk h]
    exact Position.walk_count before.toList
  · rw [locate_eq_walk h, ← h, String.toList_append, ← byteSize_toList]
    exact finds_walk before.toList after.toList

end

theorem locate_counts_multibyte :
    "é\nx€" ++ "y\n" = "é\nx€y\n" ∧ "é\nx€y" ++ "\n" = "é\nx€y\n" ∧
      (ofText "é\nx€y\n".toList).locate? "y\n".toList = some ⟨2, 3⟩ ∧
      (ofText "é\nx€y\n".toList).Finds 7 ⟨2, 3⟩ ∧
      (ofText "é\nx€y\n".toList).locate "y\n".toList <
        (ofText "é\nx€y\n".toList).locate "\n".toList := by
  have hsplit : "é\nx€" ++ "y\n" = "é\nx€y\n" := by decide
  have hsplit' : "é\nx€y" ++ "\n" = "é\nx€y\n" := by decide
  obtain ⟨hfound, hcount, hfinds, horder⟩ := locate_counts hsplit
  have hplace : (ofText "é\nx€y\n".toList).locate "y\n".toList = ⟨2, 3⟩ :=
    hcount.trans (by decide)
  rw [hplace] at hfound hfinds
  exact ⟨hsplit, hsplit', hfound, hfinds, (horder _ _ hsplit').mpr (by decide)⟩

end LineIndex

end QueryBlocks
