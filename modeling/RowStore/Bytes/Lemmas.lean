import RowStore.Bytes

/-!
# Laws of bytes

Integers and bitmaps read back as they were written (`toInt64_ofInt64`, `toBits_ofBits`,
`ofBits_toBits`), and a write into content changes the bytes it covers and no others
(`slice_writeAt_self`, `slice_writeAt_of_le`, `slice_writeAt_of_ge`).
-/

namespace RowStore.Bytes

/-! ## 1. Zeros -/

@[simp] theorem length_zeros (n : Nat) : (zeros n).length = n := by simp [zeros]

@[simp] theorem zeros_append (m n : Nat) : zeros m ++ zeros n = zeros (m + n) := by
  simp [zeros]

/-! ## 2. Integers -/

@[simp] theorem length_ofNat : ∀ width n : Nat, (ofNat width n).length = width
  | 0, _ => rfl
  | width + 1, n => by simp [ofNat, length_ofNat width]

theorem toNat_concat (bytes : List UInt8) (b : UInt8) :
    toNat (bytes ++ [b]) = toNat bytes * 256 + b.toNat := by
  simp [toNat]

/-- Reading the digits back gives the number, as far as the width holds it. -/
theorem toNat_ofNat : ∀ width n : Nat, toNat (ofNat width n) = n % Nat.pow 256 width
  | 0, n => by simp [ofNat, toNat, Nat.mod_one]
  | width + 1, n => by
    have hb : (UInt8.ofNat n).toNat = n % 256 := by simp
    have hp : Nat.pow 256 (width + 1) = 256 * Nat.pow 256 width := Nat.mul_comm _ _
    rw [ofNat, toNat_concat, toNat_ofNat width, hb, hp, Nat.mod_mul, Nat.add_comm,
      Nat.mul_comm (n / 256 % Nat.pow 256 width)]

@[simp] theorem length_ofInt64 (v : Int64) : (ofInt64 v).length = 8 := length_ofNat 8 _

/-- **An integer reads back** from its eight bytes. -/
@[simp] theorem toInt64_ofInt64 (v : Int64) : toInt64 (ofInt64 v) = v := by
  have h : v.toUInt64.toNat < Nat.pow 256 8 := v.toUInt64.toNat_lt
  rw [toInt64, ofInt64, toNat_ofNat, Nat.mod_eq_of_lt h, UInt64.ofNat_toNat]
  simp

/-! ## 3. Bitmaps -/

@[simp] theorem length_bitsOfByte (b : UInt8) : (bitsOfByte b).length = 8 := rfl

@[simp] theorem length_toBits : ∀ bytes : List UInt8, (toBits bytes).length = 8 * bytes.length
  | [] => rfl
  | b :: bytes => by
    have ih := length_toBits bytes
    simp only [toBits, List.flatMap_cons, List.length_append, length_bitsOfByte,
      List.length_cons] at ih ⊢
    omega

/-- Eight bits read back from their byte. -/
theorem bitsOfByte_byteOfBits (a b c d e f g h : Bool) :
    bitsOfByte (byteOfBits [a, b, c, d, e, f, g, h]) = [a, b, c, d, e, f, g, h] := by
  revert a b c d e f g h
  decide

/-- A byte reads back from its eight bits. -/
theorem byteOfBits_bitsOfByte (b : UInt8) : byteOfBits (bitsOfByte b) = b := by
  have all : ∀ n : Fin 256, byteOfBits (bitsOfByte (UInt8.ofNat n.val)) = UInt8.ofNat n.val := by
    decide +kernel
  have h := all ⟨b.toNat, b.toNat_lt⟩
  simpa using h

/-- **Bytes read back from their bits.** -/
theorem ofBits_toBits : ∀ bytes : List UInt8, ofBits (toBits bytes) = bytes
  | [] => rfl
  | b :: bytes => by
    have ih := ofBits_toBits bytes
    have hb := byteOfBits_bitsOfByte b
    simp only [toBits, List.flatMap_cons, bitsOfByte, List.cons_append, List.nil_append, ofBits,
      List.cons.injEq] at ih hb ⊢
    exact ⟨hb, ih⟩

/-- **Bits read back from their bytes**, followed by the clear bits that fill the last byte. -/
theorem toBits_ofBits : ∀ bits : List Bool,
    toBits (ofBits bits) = bits ++ List.replicate ((8 - bits.length % 8) % 8) false
  | a :: b :: c :: d :: e :: f :: g :: h :: rest => by
    have ih := toBits_ofBits rest
    have hb := bitsOfByte_byteOfBits a b c d e f g h
    simp only [ofBits, toBits, List.flatMap_cons] at ih ⊢
    rw [ih, hb]
    simp only [List.length_cons, List.cons_append, List.nil_append]
    congr 11
    omega
  | [] => rfl
  | [a] => by revert a; decide
  | [a, b] => by revert a b; decide
  | [a, b, c] => by revert a b c; decide
  | [a, b, c, d] => by revert a b c d; decide
  | [a, b, c, d, e] => by revert a b c d e; decide
  | [a, b, c, d, e, f] => by revert a b c d e f; decide
  | [a, b, c, d, e, f, g] => by revert a b c d e f g; decide

/-- As many bytes as it takes. -/
theorem length_ofBits (bits : List Bool) : (ofBits bits).length = (bits.length + 7) / 8 := by
  have h := congrArg List.length (toBits_ofBits bits)
  rw [length_toBits, List.length_append, List.length_replicate] at h
  omega

/-- The bits alone read back from their bytes. -/
theorem take_toBits_ofBits (bits : List Bool) :
    (toBits (ofBits bits)).take bits.length = bits := by
  rw [toBits_ofBits, List.take_left]

/-! ## 4. Content -/

@[simp] theorem length_resize (content : List UInt8) (len : Nat) :
    (resize content len).length = len := by
  simp only [resize, List.length_append, List.length_take, length_zeros]
  omega

theorem length_slice (content : List UInt8) (offset size : Nat) :
    (slice content offset size).length = min size (content.length - offset) := by
  simp [slice]

/-- A write makes the content long enough and never shorter. -/
theorem length_writeAt (content : List UInt8) (offset : Nat) (data : List UInt8) :
    (writeAt content offset data).length = max content.length (offset + data.length) := by
  simp only [writeAt, List.length_append, List.length_take, List.length_drop, length_zeros]
  omega

/-- What stands before the written part, gap included. -/
theorem take_writeAt (content : List UInt8) (offset : Nat) (data : List UInt8) :
    (writeAt content offset data).take offset
      = (content ++ zeros (offset - content.length)).take offset := by
  rw [writeAt, List.append_assoc, List.take_append_of_le_length]
  · rw [List.take_take, Nat.min_self]
  · simp only [List.length_take, List.length_append, length_zeros]
    omega

/-- What stands from the written part on. -/
theorem drop_writeAt (content : List UInt8) (offset : Nat) (data : List UInt8) :
    (writeAt content offset data).drop offset = data ++ content.drop (offset + data.length) := by
  have h : ((content ++ zeros (offset - content.length)).take offset).length = offset := by
    simp only [List.length_take, List.length_append, length_zeros]
    omega
  rw [writeAt, List.append_assoc, List.drop_append, h, Nat.sub_self, List.drop_zero,
    List.drop_of_length_le (Nat.le_of_eq h), List.nil_append]

/-- **What was written is read back.** -/
theorem slice_writeAt_self (content : List UInt8) (offset : Nat) (data : List UInt8) :
    slice (writeAt content offset data) offset data.length = data := by
  rw [slice, drop_writeAt, List.take_left]

/-- A slice that ends before the written part reads as before, zeros behind the old end. -/
theorem slice_writeAt_of_le {content : List UInt8} {offset from_ size : Nat} (data : List UInt8)
    (h : from_ + size ≤ offset) :
    slice (writeAt content offset data) from_ size
      = slice (content ++ zeros (offset - content.length)) from_ size := by
  have ht := congrArg (fun l => (l.drop from_).take size) (take_writeAt content offset data)
  have hs : size ≤ offset - from_ := by omega
  simpa [slice, List.drop_take, List.take_take, Nat.min_eq_left hs] using ht

/-- A slice that begins behind the written part reads as before. -/
theorem slice_writeAt_of_ge {content : List UInt8} {offset from_ : Nat} (size : Nat)
    {data : List UInt8} (h : offset + data.length ≤ from_) :
    slice (writeAt content offset data) from_ size = slice content from_ size := by
  have e : from_ = offset + (data.length + (from_ - (offset + data.length))) := by omega
  rw [slice, e, ← List.drop_drop, drop_writeAt, ← List.drop_drop, List.drop_left,
    List.drop_drop, slice]
  congr 2
  omega

end RowStore.Bytes
