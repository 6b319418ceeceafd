import RowStore.Query.Groups
import RowStore.Query.Source

/-!
# Aggregates

An aggregate takes all rows of its input when it is opened or started over, and then hands out the
rows of the result.  If that fails it keeps the result it had before.
-/

namespace RowStore

/-- A place in an aggregate: where its input is, and the rows of the result that are left. -/
structure AggregatePlace (σ : Type) where
  input : σ
  results : Option (List Row)

namespace Source

variable {σ : Type}

/-- Take all rows of the input and compute the result. -/
def aggregated (a : Aggregation) (schema : Schema) (input : Source σ) (place : AggregatePlace σ)
    (e : Engine) : AggregatePlace σ × Engine × Except Failure Unit :=
  let pass := input.run place.input e a.empty fun groups row e =>
    match a.addRow schema groups row with
    | .ok groups => (e, groups, .more)
    | .error f => (e, groups, .fail f)
  match pass.verdict with
  | .failed f => (⟨pass.place, place.results⟩, pass.engine, .error f)
  | _ =>
    match pass.collected.rows a.fn with
    | .error f => (⟨pass.place, place.results⟩, pass.engine, .error f)
    | .ok rows => (⟨pass.place, some rows⟩, pass.engine, .ok ())

/-- **The aggregate of an input** with this schema. -/
def aggregate (a : Aggregation) (schema : Schema) (input : Source σ) :
    Source (AggregatePlace σ) where
  fresh := ⟨input.fresh, none⟩
  start place e :=
    match input.start place.input e with
    | (inner, e, .error f) => ({ place with input := inner }, e, .error f)
    | (inner, e, .ok _) => input.aggregated a schema { place with input := inner } e
  rewind place e :=
    match input.rewind place.input e with
    | (inner, e, .error f) => ({ place with input := inner }, e, .error f)
    | (inner, e, .ok _) => input.aggregated a schema { place with input := inner } e
  close place := ⟨input.close place.input, none⟩
  run place e acc k :=
    match place.results with
    | none => ⟨place, e, acc, .failed (.notOpened .aggregate)⟩
    | some rows =>
      match k.feed rows acc e with
      | (left, e, acc, signal) => ⟨{ place with results := some left }, e, acc, signal.verdict⟩

end Source

end RowStore
