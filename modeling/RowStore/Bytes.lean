import RowStore.Room

/-!
# Bytes

Lists of bytes as the store uses them: fixed-width integers with the most significant byte first,
bitmaps with the most significant bit first, runs of zeros, hexadecimal text, and writing into the
middle of a file's content.
-/

namespace RowStore.Bytes

/-! ## 1. Zeros and padding -/

/-- `n` zero bytes. -/
def zeros (n : Nat) : List UInt8 := List.replicate n 0

/-- `n` zero bytes, if there can be room for them. -/
def zeros? (n : Nat) : Option (List UInt8) := if hasRoom n 1 then some (zeros n) else none

/-! ## 2. Integers, most significant byte first -/

/-- The last `width` base-256 digits of `n`, the most significant one first. -/
def ofNat : Nat → Nat → List UInt8
  | 0, _ => []
  | width + 1, n => ofNat width (n / 256) ++ [UInt8.ofNat n]

/-- The number that the bytes are the base-256 digits of. -/
def toNat (bytes : List UInt8) : Nat := bytes.foldl (fun n b => n * 256 + b.toNat) 0

/-- A signed 64-bit integer as eight bytes in two's complement. -/
def ofInt64 (v : Int64) : List UInt8 := ofNat 8 v.toUInt64.toNat

/-- The signed 64-bit integer that eight bytes hold. -/
def toInt64 (bytes : List UInt8) : Int64 := (UInt64.ofNat (toNat bytes)).toInt64

/-! ## 3. Bitmaps, most significant bit first -/

/-- The eight bits of a byte. -/
def bitsOfByte (b : UInt8) : List Bool :=
  [b.toNat / 128 % 2 == 1, b.toNat / 64 % 2 == 1, b.toNat / 32 % 2 == 1, b.toNat / 16 % 2 == 1,
    b.toNat / 8 % 2 == 1, b.toNat / 4 % 2 == 1, b.toNat / 2 % 2 == 1, b.toNat % 2 == 1]

/-- The bits of a list of bytes. -/
def toBits (bytes : List UInt8) : List Bool := bytes.flatMap bitsOfByte

/-- The byte made of up to eight bits; bits that are missing at the end count as clear. -/
def byteOfBits (bits : List Bool) : UInt8 :=
  UInt8.ofNat (((bits ++ List.replicate (8 - bits.length) false).take 8).foldl
    (fun n bit => n * 2 + bit.toNat) 0)

/-- The bytes that hold a list of bits, the last byte filled up with clear bits. -/
def ofBits : List Bool → List UInt8
  | a :: b :: c :: d :: e :: f :: g :: h :: rest =>
    byteOfBits [a, b, c, d, e, f, g, h] :: ofBits rest
  | [] => []
  | bits => [byteOfBits bits]

/-! ## 4. Content of a file -/

/-- Content after `data` is written at `offset`.  A gap between the old end and `offset` is filled
with zeros, and what lies behind the written part stays. -/
def writeAt (content : List UInt8) (offset : Nat) (data : List UInt8) : List UInt8 :=
  (content ++ zeros (offset - content.length)).take offset ++ data
    ++ content.drop (offset + data.length)

/-- The `size` bytes from `offset` on. -/
def slice (content : List UInt8) (offset size : Nat) : List UInt8 :=
  (content.drop offset).take size

/-- Content cut or filled up with zeros to a length. -/
def resize (content : List UInt8) (len : Nat) : List UInt8 :=
  content.take len ++ zeros (len - content.length)

/-! ## 5. Text -/

/-- Bytes as pairs of lower-case hexadecimal digits. -/
def hex (bytes : List UInt8) : String :=
  String.ofList (bytes.flatMap fun b =>
    [Nat.digitChar (b.toNat / 16), Nat.digitChar (b.toNat % 16)])

/-- The value of one hexadecimal digit. -/
def digit? (c : Char) : Option Nat :=
  if '0' ≤ c ∧ c ≤ '9' then some (c.toNat - 48)
  else if 'a' ≤ c ∧ c ≤ 'f' then some (c.toNat - 87)
  else if 'A' ≤ c ∧ c ≤ 'F' then some (c.toNat - 55)
  else none

/-- Pairs of hexadecimal digits read as bytes. -/
def ofHexDigits? : List Char → Option (List UInt8)
  | [] => some []
  | high :: low :: rest => do
    let h ← digit? high
    let l ← digit? low
    let bytes ← ofHexDigits? rest
    return UInt8.ofNat (h * 16 + l) :: bytes
  | _ => none

/-- The bytes a hexadecimal text stands for. -/
def ofHex? (s : String) : Option (List UInt8) := ofHexDigits? s.toList

end RowStore.Bytes
