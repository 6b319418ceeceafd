import RowStore.Codec
import RowStore.PageLayout

/-!
# Pages

A page holds rows of one schema in numbered slots.  Which slots are used is kept twice, as the
bitmap that is written to disk and by the slots themselves; every operation changes both together.
A new row goes into the first free slot, and a row is deleted by the record id it carries.

A page that was changed is marked with the transaction that changed it.
-/

namespace RowStore

/-- A page in memory. -/
structure Page where
  pid : PageId
  schema : Schema
  size : Nat
  /-- For every slot whether it is used. -/
  bitmap : List Bool
  /-- For every slot the row in it. -/
  slots : List (Option Row)
  /-- The transaction that changed the page since it was last read or written. -/
  dirty : Option Tx
  deriving DecidableEq

namespace Page

/-! ## 1. Slots -/

/-- The number of slots. -/
def slotCount (p : Page) : Nat := PageLayout.slotCount p.schema p.size

/-- Whether the slot exists and is used. -/
def isUsed (p : Page) (slot : Nat) : Bool := p.bitmap[slot]?.getD false

/-- The number of slots that are free. -/
def freeCount (p : Page) : Nat := p.bitmap.countP fun used => !used

/-- The number of slots that are used. -/
def usedCount (p : Page) : Nat := p.slotCount - p.freeCount

/-- The lowest free slot. -/
def firstFree? (p : Page) : Option Nat := p.bitmap.findIdx? fun used => !used

/-- The row in a slot. -/
def row? (p : Page) (slot : Nat) : Option Row := (p.slots[slot]?).join

/-- The rows in slot order. -/
def rows (p : Page) : List Row := p.slots.filterMap id

/-! ## 2. Reading a page from bytes -/

/-- The slots from number `slot` on, one for each bit: a used slot is read as a row that stands
there, a free one is stepped over. -/
def readSlots (pid : PageId) (schema : Schema) :
    Nat → List Bool → Reader → Except Failure (List (Option Row))
  | _, [], _ => .ok []
  | slot, true :: bits, r =>
    match Row.decode r schema with
    | (_, .error f) => .error f
    | (r, .ok row) =>
      match readSlots pid schema (slot + 1) bits r with
      | .error f => .error f
      | .ok slots => .ok (some { row with rid := some ⟨pid, slot⟩ } :: slots)
  | slot, false :: bits, r =>
    match r.skip schema.rowSize with
    | (_, .error f) => .error f
    | (r, .ok _) =>
      match readSlots pid schema (slot + 1) bits r with
      | .error f => .error f
      | .ok slots => .ok (none :: slots)

/-- **A page is as large as its bytes.**  It has to have room for one row at least; bits of the
bitmap behind the last slot, the bytes of free slots and the padding do not matter. -/
def ofBytes (pid : PageId) (bytes : List UInt8) (schema : Schema) : Except Failure Page :=
  let size := bytes.length
  let count := PageLayout.slotCount schema size
  let head := PageLayout.bitmapSize count
  if count = 0 ∨ size < PageLayout.usedSize schema count then .error (.pageTooSmall pid size)
  else
    let bitmap := (Bytes.toBits (bytes.take head)).take count
    match readSlots pid schema 0 bitmap (.ofBytes (bytes.drop head)) with
    | .error f => .error f
    | .ok slots => .ok ⟨pid, schema, size, bitmap, slots, none⟩

/-! ## 3. Writing a page as bytes -/

/-- The bytes of a slot: its row, or zeros. -/
def slotBytes (schema : Schema) : Option Row → List UInt8
  | some row => row.encode schema
  | none => Bytes.zeros schema.rowSize

/-- **The page as exactly one page of bytes.** -/
def image (p : Page) : List UInt8 :=
  let writer : Writer := ⟨Bytes.ofBits p.bitmap ++ p.slots.flatMap (slotBytes p.schema)⟩
  match writer.pad p.size with
  | (_, .ok bytes) => bytes
  | (_, .error _) => Bytes.zeros p.size

/-! ## 4. Changing a page -/

/-- Put a row into the first free slot; the answer says where that is. -/
def insert (p : Page) (row : Row) : Except Failure (Page × RecordId) :=
  if row.fits p.schema then
    match p.firstFree? with
    | none => .error (.pageFull p.pid)
    | some slot =>
      let rid : RecordId := ⟨p.pid, slot⟩
      .ok ({ p with
        bitmap := p.bitmap.set slot true
        slots := p.slots.set slot (some { row with rid := some rid }) }, rid)
  else .error (.misfit row p.schema)

/-- Free the slot that the row's record id names. -/
def delete (p : Page) (row : Row) : Except Failure Page :=
  match row.rid with
  | none => .error (.noRecordId row)
  | some rid =>
    if rid.page = p.pid then
      if p.isUsed rid.slot then
        .ok { p with
          bitmap := p.bitmap.set rid.slot false
          slots := p.slots.set rid.slot none }
      else .error (.slotFree rid)
    else .error (.otherPage row p.pid)

/-- The page marked as changed by a transaction. -/
def markDirty (p : Page) (tx : Tx) : Page := { p with dirty := some tx }

/-- The page without a mark. -/
def clean (p : Page) : Page := { p with dirty := none }

/-! ## 5. Text -/

/-- A page in one line: its id, how many slots are used, the bitmap and the mark. -/
def describe (p : Page) : String :=
  let mark := match p.dirty with
    | some tx => "Some(" ++ tx.text ++ ")"
    | none => "None"
  "HeapPage \x7b pid: " ++ p.pid.text ++ ", slots: " ++ toString p.usedCount ++ "/"
    ++ toString p.slotCount ++ ", header: " ++ Bytes.hex (Bytes.ofBits p.bitmap) ++ ", dirty: "
    ++ mark ++ " \x7d"

end Page

end RowStore
