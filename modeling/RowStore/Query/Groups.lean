import RowStore.Codec
import RowStore.Query.Operator

/-!
# Groups and aggregate functions

An aggregate sorts the values of one column into groups, by the value of another column or into one
group without a key.  The groups are kept in the order of their keys.  A group collects its values
with the latest one first, so that a value joins it in one step; its function takes them in the
order they came and gives one row of the result.

Sums are checked value by value: a sum that leaves the range of 64-bit integers on the way fails,
also if later values would bring it back.
-/

namespace RowStore

/-! ## 1. Functions -/

namespace AggregateFn

/-- The sum of two integers, if it has 64 bits. -/
def add? (a b : Int64) : Except Failure Int64 :=
  let sum := a.toInt + b.toInt
  if Int64.minValue.toInt ≤ sum ∧ sum ≤ Int64.maxValue.toInt then .ok (Int64.ofInt sum)
  else .error .sumOverflow

/-- The sum from the left, starting at `acc`. -/
def sumFrom (acc : Int64) : List Int64 → Except Failure Int64
  | [] => .ok acc
  | v :: vs =>
    match add? acc v with
    | .error f => .error f
    | .ok acc => sumFrom acc vs

/-- The integers that the values are, or a failure for the first value that is none. -/
def ints (values : List Value) : Except Failure (List Int64) := values.mapM Value.int?

/-- The least integer. -/
def least? : List Int64 → Option Int64
  | [] => none
  | v :: vs => some (vs.foldl (fun a b => if b.toInt < a.toInt then b else a) v)

/-- The greatest integer. -/
def greatest? : List Int64 → Option Int64
  | [] => none
  | v :: vs => some (vs.foldl (fun a b => if a.toInt < b.toInt then b else a) v)

/-- The function of a list of integers; nothing if it is undefined for the empty list. -/
def ofInts : AggregateFn → List Int64 → Except Failure (Option Int64)
  | count, vs => .ok (some (Int64.ofNat vs.length))
  | sum, vs =>
    match sumFrom 0 vs with
    | .error f => .error f
    | .ok total => .ok (some total)
  | avg, [] => .ok none
  | avg, v :: vs =>
    match sumFrom 0 (v :: vs) with
    | .error f => .error f
    | .ok total => .ok (some (Int64.ofInt (total.toInt.tdiv (vs.length + 1))))
  | min, vs => .ok (least? vs)
  | max, vs => .ok (greatest? vs)

/-- **The function of a group's values.**  A count takes values of every kind; the others need
integers. -/
def compute (fn : AggregateFn) (values : List Value) : Except Failure (Option Int64) :=
  if fn = count then .ok (some (Int64.ofNat values.length))
  else
    match ints values with
    | .error f => .error f
    | .ok vs => fn.ofInts vs

end AggregateFn

/-! ## 2. Groups -/

/-- What is aggregated: a function of a column, by groups of another column or of all rows. -/
structure Aggregation where
  fn : AggregateFn
  column : Nat
  group : Option Nat
  deriving DecidableEq, Repr

/-- Keys with their values, in the order of the keys; of the values of one key the latest comes
first.  The one group of an ungrouped aggregate has no key. -/
abbrev Groups := List (Option Value × List Value)

namespace Groups

/-- The order of keys. -/
def keyOrder : Option Value → Option Value → Ordering
  | none, none => .eq
  | none, some _ => .lt
  | some _, none => .gt
  | some a, some b => a.order b

/-- One value more in the group of a key. -/
def add (key : Option Value) (v : Value) : Groups → Groups
  | [] => [(key, [v])]
  | (k, vs) :: rest =>
    match keyOrder key k with
    | .lt => (key, [v]) :: (k, vs) :: rest
    | .eq => (k, v :: vs) :: rest
    | .gt => (k, vs) :: add key v rest

/-- **The rows of the result**, one for each group whose function is defined: the key, if there is
one, and the value of the function. -/
def rows (fn : AggregateFn) : Groups → Except Failure (List Row)
  | [] => .ok []
  | (key, values) :: rest =>
    match fn.compute values.reverse with
    | .error f => .error f
    | .ok v =>
      match rows fn rest with
      | .error f => .error f
      | .ok more => .ok ((v.map fun v => (⟨key.toList ++ [.int v], none⟩ : Row)).toList ++ more)

end Groups

namespace Aggregation

/-- The groups before any row: the one group of all rows, or none yet. -/
def empty (a : Aggregation) : Groups :=
  match a.group with
  | none => [(none, [])]
  | some _ => []

/-- The value of a row at a position. -/
def valueAt (row : Row) (i : Nat) : Except Failure Value :=
  match row.values[i]? with
  | some v => .ok v
  | none => .error (.missingValue row i)

/-- A key of the type that the grouping column has. -/
def checkKey (type : ColumnType) (v : Value) : Except Failure Value :=
  match type with
  | .int64 => v.int?.map Value.int
  | .bytes _ => v.text?.map Value.text
  | .bool => .error (.groupType .bool)

/-- The key of a row's group. -/
def keyOf (a : Aggregation) (input : Schema) (row : Row) : Except Failure (Option Value) :=
  match a.group.bind fun i => (input.column? i).map fun c => (i, c.type) with
  | none => .ok none
  | some (i, type) =>
    match valueAt row i with
    | .error f => .error f
    | .ok v => (checkKey type v).map some

/-- One row more. -/
def addRow (a : Aggregation) (input : Schema) (groups : Groups) (row : Row) :
    Except Failure Groups :=
  match valueAt row a.column with
  | .error f => .error f
  | .ok v =>
    match a.keyOf input row with
    | .error f => .error f
    | .ok key => .ok (groups.add key v)

end Aggregation

end RowStore
