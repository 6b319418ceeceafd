import RowStore.Bytes.Lemmas
import RowStore.FileContent

/-!
# Extents and bytes

Every operation on extents does to the bytes what the operation of the same name in `Bytes` does
(`slice_eq`, `toList_writeAt`, `toList_resize`).  With these, what is true of lists of bytes is true
of files.
-/

namespace RowStore

/-! ## 1. Extents -/

namespace Extent

@[simp] theorem length_toList (x : Extent) : x.toList.length = x.length := by
  cases x with
  | hole size => exact Bytes.length_zeros size
  | data bytes => rfl

theorem length_flatMap : ∀ xs : List Extent, (xs.flatMap toList).length = lengthAll xs
  | [] => rfl
  | x :: xs => by
    rw [List.flatMap_cons, List.length_append, length_toList, length_flatMap xs, lengthAll]

theorem toList_take (n : Nat) (x : Extent) : (x.take n).toList = x.toList.take n := by
  cases x with
  | hole size => simp [take, toList, Bytes.zeros, List.take_replicate]
  | data bytes => simp [take, toList]

theorem toList_drop (n : Nat) (x : Extent) : (x.drop n).toList = x.toList.drop n := by
  cases x with
  | hole size => simp [drop, toList, Bytes.zeros, List.drop_replicate]
  | data bytes =>
    simp only [drop, toList, Array.toList_extract, List.extract_eq_take_drop]
    exact List.take_of_length_le (by simp)

/-- **Taking extents takes bytes.** -/
theorem flatMap_takeAll : ∀ (n : Nat) (xs : List Extent),
    (takeAll n xs).flatMap toList = (xs.flatMap toList).take n
  | _, [] => by simp [takeAll]
  | n, x :: xs => by
    rw [takeAll, List.flatMap_cons, List.take_append, length_toList]
    split
    · rename_i h
      simp [h]
    · split
      · rename_i h
        have ht : x.toList.take n = x.toList := List.take_of_length_le (x.length_toList ▸ h)
        rw [List.flatMap_cons, flatMap_takeAll (n - x.length) xs, ht]
      · have hz : n - x.length = 0 := by omega
        simp [hz, toList_take]

/-- **Dropping extents drops bytes.** -/
theorem flatMap_dropAll : ∀ (n : Nat) (xs : List Extent),
    (dropAll n xs).flatMap toList = (xs.flatMap toList).drop n
  | _, [] => by simp [dropAll]
  | n, x :: xs => by
    rw [dropAll, List.flatMap_cons, List.drop_append, length_toList]
    split
    · rename_i h
      have hd : x.toList.drop n = [] := List.drop_of_length_le (x.length_toList ▸ h)
      rw [flatMap_dropAll (n - x.length) xs, hd, List.nil_append]
    · have hz : n - x.length = 0 := by omega
      simp [hz, toList_drop]

@[simp] theorem flatMap_filler (size : Nat) : (filler size).flatMap toList = Bytes.zeros size := by
  unfold filler
  split
  · rename_i h
    simp [h, Bytes.zeros]
  · simp [toList]

end Extent

/-! ## 2. Content -/

namespace FileContent

@[simp] theorem length_toList (c : FileContent) : c.toList.length = c.length :=
  Extent.length_flatMap c.extents

@[simp] theorem toList_empty : toList {} = [] := rfl

@[simp] theorem toList_ofList (bytes : List UInt8) : (ofList bytes).toList = bytes := by
  simp [ofList, toList, Extent.toList]

/-- What is read from a file is what stands there in its bytes. -/
theorem slice_eq (c : FileContent) (offset size : Nat) :
    c.slice offset size = Bytes.slice c.toList offset size := by
  rw [slice, Extent.flatMap_takeAll, Extent.flatMap_dropAll]
  rfl

/-- The bytes after a write. -/
@[simp] theorem toList_writeAt (c : FileContent) (offset : Nat) (bytes : List UInt8) :
    (c.writeAt offset bytes).toList = Bytes.writeAt c.toList offset bytes := by
  have hl := c.length_toList
  simp only [writeAt, toList, List.flatMap_append, List.flatMap_cons, Extent.flatMap_takeAll,
    Extent.flatMap_dropAll, Extent.flatMap_filler, Extent.toList, Bytes.writeAt] at hl ⊢
  rw [List.take_append, hl, ← List.append_assoc]
  congr 3
  exact (List.take_of_length_le (Nat.le_of_eq (Bytes.length_zeros _))).symm

/-- The bytes after the length was set. -/
@[simp] theorem toList_resize (c : FileContent) (len : Nat) :
    (c.resize len).toList = Bytes.resize c.toList len := by
  have hl := c.length_toList
  simp only [resize, toList, List.flatMap_append, Extent.flatMap_takeAll, Extent.flatMap_filler,
    Bytes.resize] at hl ⊢
  rw [hl]

end FileContent

end RowStore
