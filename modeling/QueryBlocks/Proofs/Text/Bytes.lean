import QueryBlocks.Text.Bytes

/-! Sizes in bytes add up, and a text is cut where a part of it ends. -/
namespace QueryBlocks.Text

theorem byteSize_append (s t : List Char) : byteSize (s ++ t) = byteSize s + byteSize t := by
  induction s with
  | nil => exact (Nat.zero_add _).symm
  | cons c s ih => rw [List.cons_append, byteSize, byteSize, ih, Nat.add_assoc]

theorem byteSize_toList (s : String) : byteSize s.toList = s.utf8ByteSize := by
  have hlist (cs : List Char) : byteSize cs = (String.ofList cs).utf8ByteSize := by
    induction cs with
    | nil => rfl
    | cons c cs ih =>
      rw [byteSize, ih, ← List.singleton_append, String.ofList_append, String.utf8ByteSize_append,
        ← String.singleton_eq_ofList, String.utf8ByteSize_singleton]
  rw [hlist, String.ofList_toList]

/-- A part of a text can be cut off by its size. -/
theorem cut?_append (s t : List Char) : cut? (byteSize s) (s ++ t) = some (s, t) := by
  induction s with
  | nil => cases t <;> rfl
  | cons c s ih =>
    have hsize : byteSize (c :: s) = c.utf8Size + byteSize s - 1 + 1 := by
      have := c.utf8Size_pos
      rw [byteSize]
      omega
    have hrest : c.utf8Size + byteSize s - 1 + 1 - c.utf8Size = byteSize s := by
      have := c.utf8Size_pos
      omega
    rw [hsize, List.cons_append, cut?, if_pos (by omega), hrest, ih]
    rfl

theorem slice?_append (a b c : List Char) :
    slice? (byteSize a) (byteSize (a ++ b)) (a ++ b ++ c) = some b := by
  have hle : byteSize a ≤ byteSize (a ++ b) := by
    rw [byteSize_append]
    exact Nat.le_add_right _ _
  have hpart : byteSize (a ++ b) - byteSize a = byteSize b := by
    rw [byteSize_append, Nat.add_sub_cancel_left]
  rw [slice?, if_pos hle, hpart, List.append_assoc, cut?_append a]
  simp [cut?_append]

end QueryBlocks.Text
