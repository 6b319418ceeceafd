import RowStore.Address
import RowStore.Room
import RowStore.Value

/-!
# Rows

A row is a list of values together with the place it is stored at, if it is stored.  The place is
not part of the row's value: two rows with equal values are the same row wherever they stand.
-/

namespace RowStore

/-- Values, and the record they were read from or written to. -/
structure Row where
  values : List Value
  rid : Option RecordId := none
  deriving DecidableEq

namespace Row

/-- A row of `width` equal integers that is stored nowhere. -/
def ofInt (v : Int64) (width : Nat) : Row := ⟨List.replicate width (.int v), none⟩

/-- A row of equal integers, if there can be room for it.  A value in memory takes 24 bytes. -/
def ofInt? (v : Int64) (width : Nat) : Option Row :=
  if hasRoom width 24 then some (ofInt v width) else none

/-- The values alone, stored nowhere. -/
def unplaced (row : Row) : Row := ⟨row.values, none⟩

/-- The row with one value replaced, if it has that position. -/
def set? (row : Row) (i : Nat) (v : Value) : Option Row :=
  if i < row.values.length then some { row with values := row.values.set i v } else none

/-- Equality of values, whatever the places. -/
def same (a b : Row) : Bool := a.values == b.values

/-- **A row matches a schema** when it has as many values as the schema has columns and every value
can be held by its column. -/
def fits (row : Row) (schema : Schema) : Bool :=
  row.values.length == schema.width &&
    (row.values.zip schema.columns).all fun (v, c) => v.fits c.type

/-- The values between braces. -/
def text (row : Row) : String :=
  "\x7b" ++ ", ".intercalate (row.values.map Value.toText) ++ "\x7d"

/-- The values between braces, and the place if there is one. -/
def describe (row : Row) : String :=
  match row.rid with
  | none => row.text
  | some rid => row.text ++ "@" ++ rid.text

end Row

end RowStore
