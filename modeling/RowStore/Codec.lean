import RowStore.Bytes
import RowStore.Failure
import RowStore.Text.Utf8

/-!
# Rows as bytes

A row is written as its values one after the other, each in exactly the room its column's type
takes.  Reading goes through a reader that stands somewhere in a list of bytes; a read that does
not fit leaves it where it stands, but what an unfinished row did read stays read.
-/

namespace RowStore

/-! ## 1. Readers -/

/-- What is left of a list of bytes, and how many bytes were read before. -/
structure Reader where
  pos : Nat
  rest : List UInt8
  deriving DecidableEq, Repr

namespace Reader

/-- A reader at the beginning of some bytes. -/
def ofBytes (bytes : List UInt8) : Reader := ⟨0, bytes⟩

/-- Exactly `n` bytes, or a failure that does not move the reader. -/
def read (r : Reader) (n : Nat) : Reader × Except Failure (List UInt8) :=
  let bytes := r.rest.take n
  if bytes.length = n then (⟨r.pos + n, r.rest.drop n⟩, .ok bytes)
  else (r, .error (.readPastEnd r.pos (r.pos + n) (r.pos + r.rest.length)))

/-- Step over `n` bytes, or fail and stay. -/
def skip (r : Reader) (n : Nat) : Reader × Except Failure Unit :=
  match r.read n with
  | (r, .ok _) => (r, .ok ())
  | (r, .error f) => (r, .error f)

/-- The same as `read`, if the place behind the bytes is a position. -/
def read? (r : Reader) (n : Nat) : Option (Reader × Except Failure (List UInt8)) :=
  if isSize (r.pos + n) then some (r.read n) else none

/-- The same as `skip`, if the place behind the bytes is a position. -/
def skip? (r : Reader) (n : Nat) : Option (Reader × Except Failure Unit) :=
  if isSize (r.pos + n) then some (r.skip n) else none

end Reader

/-! ## 2. Writers -/

/-- The bytes written so far. -/
structure Writer where
  bytes : List UInt8 := []
  deriving DecidableEq, Repr

namespace Writer

/-- An empty writer that has room for so many bytes, if there can be that much.  It takes more
than that as well: the room only spares it from growing. -/
def reserve? (capacity : Nat) : Option Writer := if hasRoom capacity 1 then some {} else none

/-- The bytes with more behind them. -/
def write (w : Writer) (bytes : List UInt8) : Writer := ⟨w.bytes ++ bytes⟩

/-- **All the bytes, filled up with zeros to a size.**  The writer is empty afterwards, but keeps
what it has if that is more than the size. -/
def pad (w : Writer) (size : Nat) : Writer × Except Failure (List UInt8) :=
  if w.bytes.length ≤ size then (⟨[]⟩, .ok (Bytes.resize w.bytes size))
  else (w, .error (.overfull w.bytes.length size))

/-- The same, if there can be room for that size. -/
def pad? (w : Writer) (size : Nat) : Option (Writer × Except Failure (List UInt8)) :=
  if hasRoom size 1 then some (w.pad size) else none

end Writer

/-! ## 3. Values -/

namespace Value

/-- What is left of a value when it is stored in a column: a text is cut to the column's width
between characters, any other value is kept whole. -/
def cut : Value → ColumnType → Value
  | text s, .bytes width => text (String.ofList (Utf8.fit width.toNat s.toList))
  | v, _ => v

/-- **A value in the room of a column.**  A text is cut to the column's width between characters
and stands behind its length in bytes.  A value of another kind leaves its room at zero. -/
def encode : Value → ColumnType → List UInt8
  | bool b, .bool => [if b then 1 else 0]
  | int v, .int64 => Bytes.ofInt64 v
  | text s, .bytes width =>
    let body := Utf8.encode (Utf8.fit width.toNat s.toList)
    UInt8.ofNat body.length :: body ++ Bytes.zeros (width.toNat - body.length)
  | _, type => Bytes.zeros type.size

/-- The value at the reader's place.  A length byte beyond the width counts as the width. -/
def decode (r : Reader) : ColumnType → Reader × Except Failure Value
  | .bool =>
    match r.read 1 with
    | (r, .error f) => (r, .error f)
    | (r, .ok bytes) => (r, .ok (.bool (bytes.any fun b => b != 0)))
  | .int64 =>
    match r.read 8 with
    | (r, .error f) => (r, .error f)
    | (r, .ok bytes) => (r, .ok (.int (Bytes.toInt64 bytes)))
  | .bytes width =>
    match r.read 1 with
    | (r, .error f) => (r, .error f)
    | (r, .ok bytes) =>
      let len := min (Bytes.toNat bytes) width.toNat
      match r.read width.toNat with
      | (r, .error f) => (r, .error f)
      | (r, .ok payload) => (r, .ok (.text (String.ofList (Utf8.decode (payload.take len)))))

/-- The integer a value is. -/
def int? : Value → Except Failure Int64
  | int v => .ok v
  | v => .error (.notInt v)

/-- The text a value is. -/
def text? : Value → Except Failure String
  | text s => .ok s
  | v => .error (.notText v)

end Value

/-! ## 4. Rows -/

namespace Row

/-- What is left of values when they are stored in columns. -/
def cutValues (values : List Value) (columns : List Column) : List Value :=
  (values.zip columns).map fun (v, c) => v.cut c.type

/-- The values in their columns' rooms, one after the other.  Values without a column and columns
without a value are left out. -/
def encode (row : Row) (schema : Schema) : List UInt8 :=
  (row.values.zip schema.columns).flatMap fun (v, c) => v.encode c.type

/-- One value for each column, in order. -/
def decodeValues (r : Reader) : List Column → Reader × Except Failure (List Value)
  | [] => (r, .ok [])
  | c :: cs =>
    match Value.decode r c.type with
    | (r, .error f) => (r, .error f)
    | (r, .ok v) =>
      match decodeValues r cs with
      | (r, .error f) => (r, .error f)
      | (r, .ok vs) => (r, .ok (v :: vs))

/-- The row at the reader's place, stored nowhere. -/
def decode (r : Reader) (schema : Schema) : Reader × Except Failure Row :=
  match decodeValues r schema.columns with
  | (r, .error f) => (r, .error f)
  | (r, .ok vs) => (r, .ok ⟨vs, none⟩)

end Row

end RowStore
