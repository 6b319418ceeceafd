import RowStore.Row

/-!
# Conditions on rows

Comparisons of two values, a condition that compares one column of a row with a constant, and a
condition that compares a column of one row with a column of another.
-/

namespace RowStore

/-! ## 1. Comparisons -/

/-- The six comparisons. -/
inductive Comparison where
  | eq
  | gt
  | ge
  | lt
  | le
  | ne
  deriving DecidableEq, Repr

namespace Comparison

/-- The sign of a comparison. -/
def text : Comparison → String
  | eq => "="
  | gt => ">"
  | ge => ">="
  | lt => "<"
  | le => "<="
  | ne => "<>"

/-- Whether the comparison holds of two values that stand in this order. -/
def admits : Comparison → Ordering → Bool
  | eq, o => o == .eq
  | gt, o => o == .gt
  | ge, o => o != .lt
  | lt, o => o == .lt
  | le, o => o != .gt
  | ne, o => o != .eq

/-- **Values of different kinds are unrelated**: of the six comparisons only "differs" holds of
them.  Values of one kind are compared by their order. -/
def holds (c : Comparison) (a b : Value) : Bool :=
  if a.rank = b.rank then c.admits (a.order b) else c == ne

end Comparison

/-! ## 2. A column against a constant -/

/-- A comparison of the value at a position with a constant. -/
structure Condition where
  column : Nat
  comparison : Comparison
  constant : Value

namespace Condition

/-- A row without that position satisfies nothing. -/
def holds (c : Condition) (row : Row) : Bool :=
  match row.values[c.column]? with
  | some v => c.comparison.holds v c.constant
  | none => false

/-- The condition as it is written. -/
def text (c : Condition) : String :=
  "field_" ++ toString c.column ++ " " ++ c.comparison.text ++ " " ++ c.constant.toText

end Condition

/-! ## 3. A column against a column -/

/-- A comparison of a value of one row with a value of another. -/
structure JoinCondition where
  left : Nat
  comparison : Comparison
  right : Nat

namespace JoinCondition

/-- A pair of rows of which one lacks its position satisfies nothing. -/
def holds (c : JoinCondition) (a b : Row) : Bool :=
  match a.values[c.left]?, b.values[c.right]? with
  | some v, some w => c.comparison.holds v w
  | _, _ => false

/-- The condition as it is written. -/
def text (c : JoinCondition) : String :=
  "left.field_" ++ toString c.left ++ " " ++ c.comparison.text ++ " right.field_"
    ++ toString c.right

end JoinCondition

end RowStore
