import RowStore.Query.Source

/-!
# Sources without inputs

The rows of a fixed list, and the rows of a table page by page.  A scan takes the number of pages
when its first row is asked for; of every page it takes all rows at once when it comes to it, so
what is inserted or deleted behind its place, or on its page, does not touch it.  Every page is
fetched for reading, so the transaction ends up with a shared lock on every page it has visited.
A scan that fails is done; one that stops in the middle stands where it was.
-/

namespace RowStore

/-! ## 1. A list of rows -/

namespace Source

/-- The rows of a list.  The place is the rows that are left, and nothing while closed; starting
over also opens. -/
def ofRows (rows : List Row) : Source (Option (List Row)) where
  fresh := none
  start _ e := (some rows, e, .ok ())
  rewind _ e := (some rows, e, .ok ())
  close _ := none
  run place e acc k :=
    match place with
    | none => ⟨none, e, acc, .failed (.notOpened .rows)⟩
    | some left =>
      match k.feed left acc e with
      | (left, e, acc, signal) => ⟨some left, e, acc, signal.verdict⟩

end Source

/-! ## 2. A table -/

/-- A place in a scan of a table. -/
structure ScanPlace where
  /-- The number of pages, once it was taken. -/
  pageCount : Option Nat := none
  /-- The first page that was not visited yet. -/
  nextPage : Nat := 0
  /-- What is left of the rows of the page before. -/
  pending : List Row := []
  /-- Whether the scan has come to its end or failed. -/
  done : Bool := false
  deriving DecidableEq

namespace ScanPlace

/-- Hand over the rows of the next `n` pages. -/
def runPages {β : Type} (tx : Tx) (table : TableFile) (k : Consumer β) :
    Nat → ScanPlace → Engine → β → Pass ScanPlace β
  | 0, place, e, acc => ⟨{ place with done := true }, e, acc, .ended⟩
  | n + 1, place, e, acc =>
    match e.fetch tx .read (table.pageId place.nextPage) with
    | (e, .error f) => ⟨{ place with done := !f.isUndefined }, e, acc, .failed f⟩
    | (e, .ok frame) =>
      match frame.use with
      | .error f => ⟨place, e, acc, .failed f⟩
      | .ok page =>
        match k.feed page.rows acc e with
        | (left, e, acc, signal) =>
          let place := { place with nextPage := place.nextPage + 1, pending := left }
          match signal with
          | .more => runPages tx table k n place e acc
          | signal => ⟨place, e, acc, signal.verdict⟩

/-- The number of pages of the scan: what was taken before, or what there are now. -/
def countPages (place : ScanPlace) (table : TableFile) (disk : Disk) : Except Failure Nat :=
  match place.pageCount with
  | some count => .ok count
  | none => table.countPages disk

/-- Hand over what is left of the page before, then the pages that follow. -/
def run {β : Type} (tx : Tx) (table : TableFile) (place : ScanPlace) (e : Engine) (acc : β)
    (k : Consumer β) : Pass ScanPlace β :=
  if place.done then ⟨place, e, acc, .ended⟩
  else
    match k.feed place.pending acc e with
    | (left, e, acc, signal) =>
      match signal with
      | .more =>
        match place.countPages table e.disk with
        | .error f => ⟨{ place with pending := left }, e, acc, .failed f⟩
        | .ok count =>
          runPages tx table k (count - place.nextPage)
            { place with pageCount := some count, pending := left } e acc
      | signal => ⟨{ place with pending := left }, e, acc, signal.verdict⟩

end ScanPlace

namespace Source

/-- **The rows of a table**, in the order of pages and slots.  There is nothing to open. -/
def ofTable (tx : Tx) (table : TableFile) : Source ScanPlace where
  fresh := {}
  start _ e := ({}, e, .ok ())
  rewind _ e := ({}, e, .ok ())
  close place := place
  run place e acc k := ScanPlace.run tx table place e acc k

/-- The rows of a table, as an operator that has to be opened first. -/
def scan (tx : Tx) (table : TableFile) : Source (Option ScanPlace) where
  fresh := none
  start _ e := (some {}, e, .ok ())
  rewind place e :=
    match place with
    | none => (none, e, .error (.notOpened .scan))
    | some _ => (some {}, e, .ok ())
  close _ := none
  run place e acc k :=
    match place with
    | none => ⟨none, e, acc, .failed (.notOpened .scan)⟩
    | some place =>
      let pass := ScanPlace.run tx table place e acc k
      ⟨some pass.place, pass.engine, pass.collected, pass.verdict⟩

end Source

end RowStore
