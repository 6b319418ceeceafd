import RowStore.Engine.Basic

/-!
# Inserting and deleting rows

A row goes into the first page of its table that has a free slot; when none has, an empty page is
written behind the last one and the row goes there.  A row is deleted on the page that its record
id names.  Both work on the page in the cache, under an exclusive lock.

`insertInto` and `deleteFrom` work on one table and leave the changed pages unmarked; `insert` and
`delete` find the table in the catalog and mark the pages as changed by the transaction (`adopt`).
-/

namespace RowStore.Engine

/-! ## 1. Putting a row on a page -/

/-- Put the row on a page that was fetched: the row as it is stored, and the page with it. -/
def placeOn (e : Engine) (pid : PageId) (frame : Frame) (row : Row) :
    Engine × Except Failure (Option (Row × Frame)) :=
  match frame.use with
  | .error f => (e, .error f)
  | .ok page =>
    if page.freeCount = 0 then (e, .ok none)
    else
      match page.insert row with
      | .error f => (e, .error f)
      | .ok (page, rid) =>
        let stored : Row := { row with rid := some rid }
        (e.updatePage pid page, .ok (some (stored, { frame with page := page })))

/-- Look for room on the `n` pages from number `i` on. -/
def placeFrom (tx : Tx) (table : TableFile) (row : Row) :
    Nat → Nat → Engine → Engine × Except Failure (Option (Row × Frame))
  | 0, _, e => (e, .ok none)
  | n + 1, i, e =>
    match e.fetch tx .write (table.pageId i) with
    | (e, .error f) => (e, .error f)
    | (e, .ok frame) =>
      match e.placeOn (table.pageId i) frame row with
      | (e, .error f) => (e, .error f)
      | (e, .ok (some placed)) => (e, .ok (some placed))
      | (e, .ok none) => placeFrom tx table row n (i + 1) e

/-- Put the row on an empty page behind the last one. -/
def placeBehind (e : Engine) (tx : Tx) (table : TableFile) (row : Row) :
    Engine × Except Failure (Row × Frame) :=
  match table.appendPage e.disk with
  | (disk, .error f) => ({ e with disk := disk }, .error f)
  | (disk, .ok pid) =>
    match fetch { e with disk := disk } tx .write pid with
    | (e, .error f) => (e, .error f)
    | (e, .ok frame) =>
      match e.placeOn pid frame row with
      | (e, .error f) => (e, .error f)
      | (e, .ok (some placed)) => (e, .ok placed)
      | (e, .ok none) => (e, .error (.newPageFull pid row))

/-- **Insert into a table, first fit.**  The answer is the row with its record id and the page that
was changed. -/
def insertInto (e : Engine) (tx : Tx) (table : TableFile) (row : Row) :
    Engine × Except Failure (Row × List Frame) :=
  if row.fits table.schema then
    match table.countPages e.disk with
    | .error f => (e, .error f)
    | .ok count =>
      match placeFrom tx table row count 0 e with
      | (e, .error f) => (e, .error f)
      | (e, .ok (some (row, frame))) => (e, .ok (row, [frame]))
      | (e, .ok none) =>
        match e.placeBehind tx table row with
        | (e, .error f) => (e, .error f)
        | (e, .ok (row, frame)) => (e, .ok (row, [frame]))
  else (e, .error (.tableMisfit row table.schema table.id))

/-! ## 2. Taking a row off its page -/

/-- **Delete from a table** by the row's record id.  The answer is the page that was changed. -/
def deleteFrom (e : Engine) (tx : Tx) (table : TableFile) (row : Row) :
    Engine × Except Failure (List Frame) :=
  match row.rid with
  | none => (e, .error (.noRecordId row))
  | some rid =>
    match table.own rid.page with
    | .error f => (e, .error f)
    | .ok _ =>
      match e.fetch tx .write rid.page with
      | (e, .error f) => (e, .error f)
      | (e, .ok frame) =>
        match frame.use.bind fun page => page.delete row with
        | .error f => (e, .error f)
        | .ok page => (e.updatePage rid.page page, .ok [{ frame with page := page }])

/-! ## 3. Marking changed pages -/

/-- The exclusive lock on a page, asked for if it is not held already. -/
def ensureExclusive (e : Engine) (tx : Tx) (pid : PageId) : Engine × Except Failure Unit :=
  if e.locks.modeOf? tx pid = some .exclusive then (e, .ok ())
  else
    match e.locks.request tx .exclusive pid with
    | (locks, result) => ({ e with locks := locks }, result)

/-- Mark a page as changed and see that the cache has it. -/
def adoptFrame (e : Engine) (tx : Tx) (frame : Frame) : Engine × Except Failure PageId :=
  let pid := frame.page.pid
  match e.ensureExclusive tx pid with
  | (e, .error f) => (e, .error f)
  | (e, .ok _) =>
    let marked : Frame := { frame with page := frame.page.markDirty tx }
    e.inCache fun e =>
      match (if (e.cache.find? pid).isSome then .ok e.cache else e.makeRoom) with
      | .error f => (e, .error f)
      | .ok cache => ({ e with cache := cache.insert pid marked }, .ok pid)

/-- Mark every page of a list; the answer is their ids. -/
def adopt (tx : Tx) : List Frame → Engine → Engine × Except Failure (List PageId)
  | [], e => (e, .ok [])
  | frame :: frames, e =>
    match e.adoptFrame tx frame with
    | (e, .error f) => (e, .error f)
    | (e, .ok pid) =>
      match adopt tx frames e with
      | (e, .error f) => (e, .error f)
      | (e, .ok pids) => (e, .ok (pid :: pids))

/-! ## 4. The two operations -/

/-- **Insert a row.**  The answer is the caller's row afterwards, with its record id once it is
stored, and the ids of the changed pages. -/
def insert (e : Engine) (tx : Tx) (id : TableId) (row : Row) :
    Engine × Row × Except Failure (List PageId) :=
  match e.catalog.lookup id with
  | .error f => (e, row, .error f)
  | .ok table =>
    match e.insertInto tx table row with
    | (e, .error f) => (e, row, .error f)
    | (e, .ok (row, frames)) =>
      let (e, result) := adopt tx frames e
      (e, row, result)

/-- **Delete a row** by its record id.  The answer is the ids of the changed pages. -/
def delete (e : Engine) (tx : Tx) (row : Row) : Engine × Except Failure (List PageId) :=
  match row.rid with
  | none => (e, .error (.noRecordId row))
  | some rid =>
    match e.catalog.lookup rid.page.table with
    | .error f => (e, .error f)
    | .ok table =>
      match e.deleteFrom tx table row with
      | (e, .error f) => (e, .error f)
      | (e, .ok frames) => adopt tx frames e

end RowStore.Engine
