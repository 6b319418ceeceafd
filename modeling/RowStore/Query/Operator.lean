/-!
# The vocabulary of queries

The kinds of operators a query is built from, and the functions an aggregate computes.
-/

namespace RowStore

/-- The kinds of operators. -/
inductive OperatorKind where
  | rows
  | scan
  | filter
  | join
  | aggregate
  | insert
  | delete
  deriving DecidableEq, Repr

/-- The name under which a failure mentions an operator. -/
def OperatorKind.text : OperatorKind → String
  | rows => "TupleIterator"
  | scan => "SeqScan"
  | filter => "Filter"
  | join => "Join"
  | aggregate => "Aggregate"
  | insert => "Insert"
  | delete => "Delete"

/-- What an aggregate computes of the values of one group. -/
inductive AggregateFn where
  | count
  | sum
  | avg
  | min
  | max
  deriving DecidableEq, Repr

/-- The name of the function. -/
def AggregateFn.text : AggregateFn → String
  | count => "count"
  | sum => "sum"
  | avg => "avg"
  | min => "min"
  | max => "max"

end RowStore
