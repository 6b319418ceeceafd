import RowStore.Schema

/-!
# How a page is divided

A page begins with a bitmap of one bit for each slot, filled up to whole bytes; the slots follow,
each with the room of one row; what is left over is padding.  A row takes eight bits for each of
its bytes and one bit in the bitmap, and a page has as many slots as its bits pay for.

The bits of a page are counted in 64-bit numbers, so pages past some size have no layout; the
checked forms tell.
-/

namespace RowStore.PageLayout

/-- The quotient rounded up. -/
def ceilDiv (a b : Nat) : Nat := (a + b - 1) / b

/-- The quotient rounded up, undefined for a divisor of zero and where the two numbers together
are no size any more. -/
def ceilDiv? (a b : Nat) : Option Nat :=
  if b ≠ 0 ∧ isSize (a + b) then some (ceilDiv a b) else none

/-- The number of slots of a page. -/
def slotCount (schema : Schema) (pageSize : Nat) : Nat :=
  pageSize * 8 / (schema.rowSize * 8 + 1)

/-- The number of slots of a page whose bits can be counted. -/
def slotCount? (schema : Schema) (pageSize : Nat) : Option Nat :=
  if isSize (pageSize * 8) then some (slotCount schema pageSize) else none

/-- The number of bytes that the bitmap of so many slots takes. -/
def bitmapSize (slots : Nat) : Nat := ceilDiv slots 8

/-- The same, if it can be computed in sizes. -/
def bitmapSize? (slots : Nat) : Option Nat := ceilDiv? slots 8

/-- The number of bytes that bitmap and slots take together. -/
def usedSize (schema : Schema) (slots : Nat) : Nat := bitmapSize slots + slots * schema.rowSize

end RowStore.PageLayout
