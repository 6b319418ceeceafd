import RowStore.Schema
import RowStore.Text.Quoted

/-!
# Values

The single values a row is made of.  Values of one kind are compared as truth values, as integers
or as texts by their characters; values of different kinds are ordered by kind, truth values before
integers before texts, so that the order of all values is total.
-/

namespace RowStore

/-- A truth value, a signed 64-bit integer, or a text. -/
inductive Value where
  | bool (b : Bool)
  | int (v : Int64)
  | text (s : String)
  deriving DecidableEq

namespace Value

/-! ## 1. Kinds -/

/-- The place of a value's kind in the order of kinds. -/
def rank : Value → Nat
  | bool _ => 0
  | int _ => 1
  | text _ => 2

/-- Whether a column of this type can hold the value. -/
def fits : Value → ColumnType → Bool
  | bool _, .bool => true
  | int _, .int64 => true
  | text _, .bytes _ => true
  | _, _ => false

/-! ## 2. The order of values -/

/-- **The order of values is total.**  Within a kind it is the usual order, false before true;
between kinds the rank decides. -/
def order : Value → Value → Ordering
  | bool a, bool b => compare a.toNat b.toNat
  | int a, int b => compare a.toInt b.toInt
  | text a, text b => compareOfLessAndEq a b
  | a, b => compare a.rank b.rank

/-! ## 3. Text -/

/-- The bare value as it is written inside a row. -/
def toText : Value → String
  | bool b => if b then "true" else "false"
  | int v => toString v.toInt
  | text s => s

/-- The value with its kind, a text between quotes. -/
def describe : Value → String
  | bool b => "Bool(" ++ (if b then "true" else "false") ++ ")"
  | int v => "Int64(" ++ toString v.toInt ++ ")"
  | text s => "String(" ++ Text.quoted s ++ ")"

end Value

end RowStore
