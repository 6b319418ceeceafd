import RowStore.Proofs.Query.Grouping
import RowStore.Query.Plan

/-!
# What a plan means

What a plan yields is a matter of the rows that the tables have, and not of how the operators go
through them.  A `View` says which rows these are, page by page; `Plan.meaning` says what a plan
yields of them, in terms of whole lists: a filter a sublist, a join the pairs of a left and a right
row, an aggregate the results of its groups.  An aggregate that cannot be computed has no meaning,
and neither has a plan that it is part of.
-/

namespace RowStore

/-- **What a database shows to queries**: how many pages each table has, and the rows of each
page. -/
structure View where
  count : TableFile → Nat
  rows : TableFile → Nat → List Row

/-- The rows of a table, in the order of pages and slots. -/
def View.table (v : View) (table : TableFile) : List Row :=
  (List.range (v.count table)).flatMap (v.rows table)

namespace Plan

/-- A plan that changes nothing. -/
def ReadOnly : Plan → Prop
  | rows .. | scan .. => True
  | filter _ input | aggregate _ input => input.ReadOnly
  | join _ left right => left.ReadOnly ∧ right.ReadOnly
  | insert .. | delete .. => False

/-- The pairs of two lists of rows that satisfy a condition, for each left row in order and each
right row in order. -/
def pairs (condition : JoinCondition) (left right : List Row) : List Row :=
  left.flatMap fun a => (right.filter (condition.holds a)).map a.joined

/-- **The meaning of a plan**: its rows, or why an aggregate in it cannot be computed.  A plan that
changes rows means their number. -/
def meaning (v : View) : Plan → Except Failure (List Row)
  | rows _ list => .ok list
  | scan _ table _ => .ok (v.table table)
  | filter condition input => (input.meaning v).map fun rows => rows.filter condition.holds
  | join condition left right =>
    (left.meaning v).bind fun ls => (right.meaning v).map fun rs => pairs condition ls rs
  | aggregate a input => (input.meaning v).bind (a.result input.schema)
  | insert _ _ input => (input.meaning v).map fun rows => [Source.countRow rows.length]
  | delete _ input => (input.meaning v).map fun rows => [Source.countRow rows.length]

end Plan

end RowStore
