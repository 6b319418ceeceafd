import RowStore.PageLayout

/-!
# The layout of a page is tight

A page has room for `n` slots exactly if `n` is at most its slot count
(`usedSize_le_iff`): the division in bits and the rounding of the bitmap to whole bytes agree.  The
checked forms give the same numbers, as far as sizes reach.
-/

namespace RowStore.PageLayout

/-- **Bitmap and slots fit exactly up to the slot count.** -/
theorem usedSize_le_iff (schema : Schema) (size n : Nat) :
    usedSize schema n ≤ size ↔ n ≤ slotCount schema size := by
  have hm : n * (schema.rowSize * 8 + 1) = n * schema.rowSize * 8 + n := by
    rw [Nat.mul_add, Nat.mul_assoc, Nat.mul_one]
  rw [slotCount, Nat.le_div_iff_mul_le (by omega), hm, usedSize, bitmapSize, ceilDiv]
  omega

theorem usedSize_slotCount_le (schema : Schema) (size : Nat) :
    usedSize schema (slotCount schema size) ≤ size :=
  (usedSize_le_iff schema size _).mpr (Nat.le_refl _)

/-- The bitmap has a bit for every slot, and less than a byte more. -/
theorem bitmapSize_bounds (slots : Nat) :
    slots ≤ 8 * bitmapSize slots ∧ 8 * bitmapSize slots < slots + 8 := by
  rw [bitmapSize, ceilDiv]
  omega

/-- The slots of a page are counted as long as its bits are. -/
theorem slotCount?_eq_some_iff {schema : Schema} {size slots : Nat} :
    slotCount? schema size = some slots ↔ isSize (size * 8) ∧ slots = slotCount schema size := by
  unfold slotCount?
  split
  · rename_i h
    simp [h, eq_comm]
  · rename_i h
    simp [h]

/-- The bytes of a bitmap are counted as long as its bits can be rounded up. -/
theorem bitmapSize?_eq_some_iff {slots head : Nat} :
    bitmapSize? slots = some head ↔ isSize (slots + 8) ∧ head = bitmapSize slots := by
  unfold bitmapSize? ceilDiv? bitmapSize
  split
  · rename_i h
    simp [h.2, eq_comm]
  · rename_i h
    have hover : ¬isSize (slots + 8) := fun hsize => h ⟨by decide, hsize⟩
    simp [hover]

end RowStore.PageLayout
