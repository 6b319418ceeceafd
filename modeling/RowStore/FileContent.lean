import RowStore.Bytes

/-!
# The content of a file

A file's bytes, kept as extents: data as an array of bytes, a hole of zeros by its size alone.  So
a file may be far longer than what was ever written to it, a page behind its end may be written
without the bytes up to there, and a file's length is found without counting its bytes.

What the content is, is `FileContent.toList`; the operations work on the extents and mean what
their namesakes in `Bytes` do to that list.
-/

namespace RowStore

/-! ## 1. Extents -/

/-- A stretch of a file. -/
inductive Extent where
  /-- Zeros that were never written. -/
  | hole (size : Nat)
  /-- Bytes that were written. -/
  | data (bytes : Array UInt8)
  deriving DecidableEq, Repr

namespace Extent

/-- The bytes of the stretch. -/
def toList : Extent → List UInt8
  | hole size => Bytes.zeros size
  | data bytes => bytes.toList

/-- Their number. -/
def length : Extent → Nat
  | hole size => size
  | data bytes => bytes.size

/-- The first `n` bytes. -/
def take (n : Nat) : Extent → Extent
  | hole size => hole (min n size)
  | data bytes => data (bytes.extract 0 n)

/-- All but the first `n` bytes. -/
def drop (n : Nat) : Extent → Extent
  | hole size => hole (size - n)
  | data bytes => data (bytes.extract n bytes.size)

/-- The first `n` bytes of a list of extents. -/
def takeAll : Nat → List Extent → List Extent
  | _, [] => []
  | n, x :: xs =>
    if n = 0 then []
    else if x.length ≤ n then x :: takeAll (n - x.length) xs
    else [x.take n]

/-- All but the first `n` bytes of a list of extents. -/
def dropAll : Nat → List Extent → List Extent
  | _, [] => []
  | n, x :: xs => if x.length ≤ n then dropAll (n - x.length) xs else x.drop n :: xs

/-- The number of bytes of a list of extents. -/
def lengthAll : List Extent → Nat
  | [] => 0
  | x :: xs => x.length + lengthAll xs

/-- A hole of a size, left out if it is empty. -/
def filler (size : Nat) : List Extent := if size = 0 then [] else [hole size]

end Extent

/-! ## 2. Content -/

/-- The content of a file. -/
structure FileContent where
  extents : List Extent := []
  deriving DecidableEq, Repr

namespace FileContent

/-- The bytes of the file. -/
def toList (c : FileContent) : List UInt8 := c.extents.flatMap Extent.toList

/-- The length of the file. -/
def length (c : FileContent) : Nat := Extent.lengthAll c.extents

/-- A file that holds these bytes. -/
def ofList (bytes : List UInt8) : FileContent := ⟨[.data bytes.toArray]⟩

/-- The `size` bytes from `offset` on. -/
def slice (c : FileContent) (offset size : Nat) : List UInt8 :=
  (Extent.takeAll size (Extent.dropAll offset c.extents)).flatMap Extent.toList

/-- **Write bytes at an offset.**  Writing behind the end leaves a hole before the bytes. -/
def writeAt (c : FileContent) (offset : Nat) (bytes : List UInt8) : FileContent :=
  ⟨Extent.takeAll offset c.extents ++ Extent.filler (offset - c.length)
    ++ .data bytes.toArray :: Extent.dropAll (offset + bytes.length) c.extents⟩

/-- Cut the file, or let it end in a hole, to a length. -/
def resize (c : FileContent) (len : Nat) : FileContent :=
  ⟨Extent.takeAll len c.extents ++ Extent.filler (len - c.length)⟩

end FileContent

end RowStore
