import RowStore.Disk
import RowStore.FileContent.Lemmas

/-!
# What a disk holds

Each operation on a disk, seen through the bytes of its files (`Disk.content`): what it does to the
file it names, and that every other file keeps its bytes.
-/

namespace RowStore.Disk

theorem length_content (d : Disk) (path : Path) : (d.content path).length = d.length path :=
  (d.file path).length_toList

/-- What is read is what stands there in the bytes. -/
theorem read_eq_slice (d : Disk) (path : Path) (offset size : Nat) :
    d.read path offset size = Bytes.slice (d.content path) offset size :=
  (d.file path).slice_eq offset size

@[simp] theorem file_putFile_self (d : Disk) (path : Path) (c : FileContent) :
    (d.putFile path c).file path = c := by
  simp [file, putFile]

@[simp] theorem file_putFile_of_ne (d : Disk) {path other : Path} (c : FileContent)
    (h : other ≠ path) : (d.putFile path c).file other = d.file other := by
  simp only [file, putFile]
  rw [Assoc.find?_set_of_ne _ h]

@[simp] theorem content_put_self (d : Disk) (path : Path) (bytes : List UInt8) :
    (d.put path bytes).content path = bytes := by
  simp [content, put]

theorem content_put_of_ne (d : Disk) {path other : Path} (bytes : List UInt8)
    (h : other ≠ path) : (d.put path bytes).content other = d.content other := by
  simp [content, put, h]

/-- A write changes the file it names as it would change its bytes. -/
@[simp] theorem content_writeAt_self (d : Disk) (path : Path) (offset : Nat)
    (bytes : List UInt8) :
    (d.writeAt path offset bytes).content path = Bytes.writeAt (d.content path) offset bytes := by
  simp [content, writeAt]

/-- A write changes no other file. -/
theorem content_writeAt_of_ne (d : Disk) {path other : Path} (offset : Nat) (bytes : List UInt8)
    (h : other ≠ path) : (d.writeAt path offset bytes).content other = d.content other := by
  simp [content, writeAt, h]

/-- A write that ends at a position is carried out as a whole. -/
theorem write_of_lt (d : Disk) (path : Path) {offset : Nat} {bytes : List UInt8}
    (h : offset + bytes.length < positions) :
    d.write path offset bytes = .ok (d.writeAt path offset bytes) :=
  if_pos h

/-- Any other write is refused. -/
theorem write_of_le (d : Disk) (path : Path) {offset : Nat} {bytes : List UInt8}
    (h : positions ≤ offset + bytes.length) :
    d.write path offset bytes = .error .badPosition :=
  if_neg (Nat.not_lt.mpr h)

/-- **A length is set where there is a file** and the length is a position; the file is cut or
filled up with zeros, and no other one changes. -/
theorem setLength_eq_some_iff {d d' : Disk} {path : Path} {len : Nat} :
    d.setLength path len = some d' ↔ (d.isFile path ∧ len < positions)
      ∧ d' = d.putFile path ((d.file path).resize len) := by
  unfold setLength
  split
  · rename_i h
    simp only [h, Option.some.injEq, and_self, true_and, eq_comm]
  · rename_i h
    simp only [reduceCtorEq, h, false_and]

theorem content_of_setLength {d d' : Disk} {path : Path} {len : Nat}
    (h : d.setLength path len = some d') :
    d'.content path = Bytes.resize (d.content path) len
      ∧ ∀ other, other ≠ path → d'.content other = d.content other := by
  obtain ⟨-, rfl⟩ := setLength_eq_some_iff.mp h
  exact ⟨by simp [content], fun other hne => by simp [content, hne]⟩

end RowStore.Disk
