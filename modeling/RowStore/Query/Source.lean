import RowStore.Engine.Change
import RowStore.Engine.Completion

/-!
# Sources of rows

An operator of a query hands out rows one at a time and remembers between two rows where it stands.
Here an operator is a `Source`: the type of its places, and what can be done at a place.

The one way to get rows out of a source is `run`: it hands row after row to a consumer, which
answers each with whether it wants more, has enough, or fails, and may change the engine meanwhile.
The source then stands behind the last row it handed over.  Asking for the next row (`next`) is
running with a consumer that has enough after one row; an operator that needs all rows of its input
runs the input with a consumer of its own.  In this form every operator is built from its inputs by
plain recursion over rows and pages that are there, and no operator can loop for ever.
-/

namespace RowStore

/-! ## 1. Consumers and passes -/

/-- A consumer's answer to a row. -/
inductive Signal where
  | more
  | stop
  | fail (f : Failure)

/-- How a pass over the rows of a source ended. -/
inductive Verdict where
  /-- There are no more rows. -/
  | ended
  /-- The consumer has enough. -/
  | stopped
  /-- The source or the consumer failed. -/
  | failed (f : Failure)

/-- What is done with each row: what was collected so far, the row and the engine give the engine
afterwards, what is collected then, and the answer. -/
abbrev Consumer (β : Type) := β → Row → Engine → Engine × β × Signal

/-- Where a pass over a source has led. -/
structure Pass (σ β : Type) where
  place : σ
  engine : Engine
  collected : β
  verdict : Verdict

/-- Hand over the rows of a list, up to the first one after which the consumer wants no more; the
answer begins with the rows that are left. -/
def Consumer.feed {β : Type} (k : Consumer β) :
    List Row → β → Engine → List Row × Engine × β × Signal
  | [], acc, e => ([], e, acc, .more)
  | row :: rows, acc, e =>
    match k acc row e with
    | (e, acc, .more) => Consumer.feed k rows acc e
    | (e, acc, .stop) => (rows, e, acc, .stop)
    | (e, acc, .fail f) => (rows, e, acc, .fail f)

/-- The verdict of a pass whose last row was answered like this. -/
def Signal.verdict : Signal → Verdict
  | more => .ended
  | stop => .stopped
  | fail f => .failed f

/-! ## 2. Sources -/

/-- What can be done with an operator that stands at a place in `σ`. -/
structure Source (σ : Type) where
  /-- The place of an operator that was never opened. -/
  fresh : σ
  /-- Open the operator. -/
  start : σ → Engine → σ × Engine × Except Failure Unit
  /-- Start over from the first row. -/
  rewind : σ → Engine → σ × Engine × Except Failure Unit
  /-- Close the operator. -/
  close : σ → σ
  /-- Hand rows to a consumer. -/
  run : {β : Type} → σ → Engine → β → Consumer β → Pass σ β

namespace Source

variable {σ : Type}

/-- **The next row**, or nothing once there are no more. -/
def next (s : Source σ) (place : σ) (e : Engine) : σ × Engine × Except Failure (Option Row) :=
  let pass := s.run place e none fun _ row e => (e, some row, .stop)
  match pass.verdict with
  | .failed f => (pass.place, pass.engine, .error f)
  | _ => (pass.place, pass.engine, .ok pass.collected)

/-- All rows that are left, and whether the source failed behind them. -/
def drain (s : Source σ) (place : σ) (e : Engine) :
    σ × Engine × List Row × Except Failure Unit :=
  let pass := s.run place e [] fun rows row e => (e, row :: rows, .more)
  match pass.verdict with
  | .failed f => (pass.place, pass.engine, pass.collected.reverse, .error f)
  | _ => (pass.place, pass.engine, pass.collected.reverse, .ok ())

end Source

end RowStore
