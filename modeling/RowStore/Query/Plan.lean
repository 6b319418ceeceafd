import RowStore.Query.Aggregate
import RowStore.Query.Change
import RowStore.Query.Leaf
import RowStore.Query.Relational

/-!
# Plans

A plan is a tree of operators.  It says what its rows look like (`schema`), what the places in it
are (`Place`) and how it runs (`source`).  Plans are put together by functions that check the
columns they speak of (`Plan.filtered`, `Plan.joined`, …); a plan together with a place in it is a
query.
-/

namespace RowStore

/-! ## 1. The tree -/

/-- A tree of operators. -/
inductive Plan where
  | rows (schema : Schema) (rows : List Row)
  | scan (tx : Tx) (table : TableFile) (label : String)
  | filter (condition : Condition) (input : Plan)
  | join (condition : JoinCondition) (left right : Plan)
  | aggregate (aggregation : Aggregation) (input : Plan)
  | insert (tx : Tx) (table : TableId) (input : Plan)
  | delete (tx : Tx) (input : Plan)

namespace Plan

/-- The column of an aggregate's function, named by the function and the column it is of. -/
def resultColumn (fn : AggregateFn) (of : Column) : Column :=
  ⟨fn.text ++ "(" ++ of.name ++ ")", .int64⟩

/-- The columns of an aggregate: the group's if it has groups, then the function's. -/
def aggregateSchema (a : Aggregation) (input : Schema) : Schema :=
  ⟨(a.group.bind input.column?).toList
    ++ ((input.column? a.column).map (resultColumn a.fn)).toList⟩

/-- The one column of a plan that changes rows: how many. -/
def countSchema : Schema := ⟨[⟨"count", .int64⟩]⟩

/-- **The schema of a plan's rows.** -/
def schema : Plan → Schema
  | rows schema _ => schema
  | scan _ table label => table.schema.qualified label
  | filter _ input => input.schema
  | join _ left right => left.schema.append right.schema
  | aggregate a input => aggregateSchema a input.schema
  | insert .. => countSchema
  | delete .. => countSchema

/-- The type of the places in a plan. -/
def Place : Plan → Type
  | rows .. => Option (List Row)
  | scan .. => Option ScanPlace
  | filter _ input => FilterPlace input.Place
  | join _ left right => JoinPlace left.Place right.Place
  | aggregate _ input => AggregatePlace input.Place
  | insert _ _ input => ChangePlace input.Place
  | delete _ input => ChangePlace input.Place

/-- **How a plan runs.** -/
def source : (p : Plan) → Source p.Place
  | rows _ list => Source.ofRows list
  | scan tx table _ => Source.scan tx table
  | filter condition input => Source.filter condition input.source
  | join condition left right => Source.join condition left.source right.source
  | aggregate a input => Source.aggregate a input.schema input.source
  | insert tx table input => Source.insert tx table input.source
  | delete tx input => Source.delete tx input.source

/-! ## 2. Putting plans together -/

/-- A scan of a registered table, its columns qualified by a label. -/
def scanned (catalog : Catalog) (tx : Tx) (table : TableId) (label : String) :
    Except Failure Plan :=
  match catalog.lookup table with
  | .error f => .error f
  | .ok table => .ok (scan tx table label)

/-- A filter whose column exists and can hold the constant. -/
def filtered (condition : Condition) (input : Plan) : Except Failure Plan :=
  match input.schema.column? condition.column with
  | none => .error (.filterColumn condition input.schema)
  | some column =>
    if condition.constant.fits column.type then .ok (filter condition input)
    else .error (.filterType condition column)

/-- A join whose columns exist and have the same type. -/
def joined (condition : JoinCondition) (left right : Plan) : Except Failure Plan :=
  match left.schema.column? condition.left, right.schema.column? condition.right with
  | some a, some b =>
    if a.type = b.type then .ok (join condition left right) else .error (.joinTypes a b)
  | _, _ => .error (.joinColumn condition left.schema right.schema)

/-- The check of a grouping column: it exists and its type has groups. -/
def checkGroup (schema : Schema) : Option Nat → Except Failure Unit
  | none => .ok ()
  | some i =>
    match schema.column? i with
    | none => .error (.groupColumn i schema)
    | some column => if column.type = .bool then .error (.groupType .bool) else .ok ()

/-- An aggregate whose columns exist, of integers or a count, by integers or texts. -/
def aggregated (a : Aggregation) (input : Plan) : Except Failure Plan :=
  match input.schema.column? a.column with
  | none => .error (.aggregateColumn a.column input.schema)
  | some column =>
    if column.type ≠ .int64 ∧ a.fn ≠ .count then .error (.aggregateType a.fn column)
    else
      match checkGroup input.schema a.group with
      | .error f => .error f
      | .ok _ => .ok (aggregate a input)

/-- An insert into a registered table with the same column types as the input. -/
def inserted (catalog : Catalog) (tx : Tx) (table : TableId) (input : Plan) :
    Except Failure Plan :=
  match catalog.lookup table with
  | .error f => .error f
  | .ok file =>
    if input.schema.types = file.schema.types then .ok (insert tx table input)
    else .error (.insertTypes input.schema table file.schema)

end Plan

/-! ## 3. Queries -/

/-- A plan and a place in it. -/
structure Query where
  plan : Plan
  place : plan.Place

namespace Query

/-- A plan that was never opened. -/
def ofPlan (plan : Plan) : Query := ⟨plan, plan.source.fresh⟩

/-- Open the query. -/
def start (q : Query) (e : Engine) : Query × Engine × Except Failure Unit :=
  match q.plan.source.start q.place e with
  | (place, e, result) => (⟨q.plan, place⟩, e, result)

/-- Start over from the first row. -/
def rewind (q : Query) (e : Engine) : Query × Engine × Except Failure Unit :=
  match q.plan.source.rewind q.place e with
  | (place, e, result) => (⟨q.plan, place⟩, e, result)

/-- Close the query. -/
def close (q : Query) : Query := ⟨q.plan, q.plan.source.close q.place⟩

/-- The next row. -/
def next (q : Query) (e : Engine) : Query × Engine × Except Failure (Option Row) :=
  match q.plan.source.next q.place e with
  | (place, e, result) => (⟨q.plan, place⟩, e, result)

end Query

end RowStore
