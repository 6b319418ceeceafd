import RowStore.Query.Source

/-!
# Inserting and deleting what a query yields

An insert puts every row of its input into a table, a delete takes every row of its input off the
page it was read from.  Both hand out one row with the number of rows, and then nothing.  What was
done before a failure stays done, until the transaction is rolled back.
-/

namespace RowStore

/-- A place in a change: where its input is, whether it is open, and whether its one row was handed
out. -/
structure ChangePlace (σ : Type) where
  input : σ
  opened : Bool
  done : Bool

namespace Source

variable {σ : Type}

/-- A count as a row. -/
def countRow (n : Nat) : Row := ⟨[.int (Int64.ofNat n)], none⟩

/-- **Apply a change to every row** of an input and hand out their number. -/
def change (kind : OperatorKind) (apply : Row → Engine → Engine × Except Failure Unit)
    (input : Source σ) : Source (ChangePlace σ) where
  fresh := ⟨input.fresh, false, false⟩
  start place e :=
    match input.start place.input e with
    | (inner, e, .error f) => ({ place with input := inner }, e, .error f)
    | (inner, e, .ok _) => (⟨inner, true, false⟩, e, .ok ())
  rewind place e :=
    match input.rewind place.input e with
    | (inner, e, .error f) => ({ place with input := inner }, e, .error f)
    | (inner, e, .ok _) => ({ place with input := inner, done := false }, e, .ok ())
  close place := { place with input := input.close place.input, opened := false }
  run place e acc k :=
    if place.opened then
      if place.done then ⟨place, e, acc, .ended⟩
      else
        let pass := input.run place.input e 0 fun n row e =>
          match apply row e with
          | (e, .ok _) => (e, n + 1, .more)
          | (e, .error f) => (e, n, .fail f)
        match pass.verdict with
        | .failed f => ⟨{ place with input := pass.place }, pass.engine, acc, .failed f⟩
        | _ =>
          match k acc (countRow pass.collected) pass.engine with
          | (e, acc, signal) =>
            ⟨{ place with input := pass.place, done := true }, e, acc, signal.verdict⟩
    else ⟨place, e, acc, .failed (.notOpened kind)⟩

/-- Insert the rows of an input into a table.  Only their values count, not where they were. -/
def insert (tx : Tx) (table : TableId) (input : Source σ) : Source (ChangePlace σ) :=
  input.change .insert fun row e =>
    match e.insert tx table row.unplaced with
    | (e, _, .ok _) => (e, .ok ())
    | (e, _, .error f) => (e, .error f)

/-- Delete the rows of an input, each by its record id. -/
def delete (tx : Tx) (input : Source σ) : Source (ChangePlace σ) :=
  input.change .delete fun row e =>
    match e.delete tx row with
    | (e, .ok _) => (e, .ok ())
    | (e, .error f) => (e, .error f)

end Source

end RowStore
