import RowStore.Room

/-!
# Column types and schemas

A schema is the ordered list of a table's columns.  Every column type has a fixed size in bytes, so
every row of one schema takes the same room: the sum of its columns' sizes.
-/

namespace RowStore

/-! ## 1. Column types -/

/-- What a column holds: a truth value, a signed 64-bit integer, or a text of at most `width`
bytes. -/
inductive ColumnType where
  | bool
  | int64
  | bytes (width : UInt8)
  deriving DecidableEq, Repr

namespace ColumnType

/-- The room a value takes: one byte, eight bytes, or a length byte and the text filled up to its
width. -/
def size : ColumnType → Nat
  | bool => 1
  | int64 => 8
  | bytes width => 1 + width.toNat

/-- The type as it is written. -/
def text : ColumnType → String
  | bool => "bool"
  | int64 => "int64"
  | bytes width => "bytes(" ++ toString width.toNat ++ ")"

end ColumnType

/-! ## 2. Columns and schemas -/

/-- A named column.  Names need not be distinct within a schema. -/
structure Column where
  name : String
  type : ColumnType
  deriving DecidableEq, Repr

/-- The number of bytes the values of some columns take together. -/
def Column.totalSize : List Column → Nat
  | [] => 0
  | c :: cs => c.type.size + totalSize cs

/-- The columns of a table, in order. -/
structure Schema where
  columns : List Column
  deriving DecidableEq, Repr

namespace Schema

/-- The number of bytes a row takes. -/
def rowSize (s : Schema) : Nat := Column.totalSize s.columns

/-- The number of columns. -/
def width (s : Schema) : Nat := s.columns.length

/-- The columns' types, in order. -/
def types (s : Schema) : List ColumnType := s.columns.map Column.type

/-- The column at a position. -/
def column? (s : Schema) (i : Nat) : Option Column := s.columns[i]?

/-- The position of the first column with this name. -/
def position? (s : Schema) (name : String) : Option Nat :=
  s.columns.findIdx? fun c => c.name == name

/-- The columns of `a`, then those of `b`. -/
def append (a b : Schema) : Schema := ⟨a.columns ++ b.columns⟩

/-- The schema with every name qualified by a label. -/
def qualified (s : Schema) (label : String) : Schema :=
  ⟨s.columns.map fun c => { c with name := label ++ "." ++ c.name }⟩

/-- `width` integer columns, named by a stem and their position. -/
def ofInts (width : Nat) (stem : String) : Schema :=
  ⟨(List.range width).map fun i => ⟨stem ++ "-" ++ toString i, .int64⟩⟩

/-- Integer columns, if there can be room for them.  A column in memory takes 32 bytes. -/
def ofInts? (width : Nat) (stem : String) : Option Schema :=
  if hasRoom width 32 then some (ofInts width stem) else none

/-- The schema as it is written: every column's name with its type in parentheses. -/
def text (s : Schema) : String :=
  ", ".intercalate (s.columns.map fun c => c.name ++ "(" ++ c.type.text ++ ")")

end Schema

end RowStore
