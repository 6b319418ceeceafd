import RowStore.Engine.Basic

/-!
# Flushing pages and completing transactions

A commit writes every page the transaction changed to disk; an abort drops those pages and reads
them from disk again.  Either way the transaction's locks are released, also when something failed:
a commit that cannot write a page drops what it did not write, as an abort would.

Only a completion that is undefined stops where it is.  It drops nothing more and releases no lock,
and a page that it was writing is spoiled.
-/

namespace RowStore.Engine

/-! ## 1. Writing pages -/

/-- Write a page from the cache with a table; it is clean afterwards.  A page that is not written
to its end is spoiled. -/
def writeBack (e : Engine) (table : TableFile) (pid : PageId) (page : Page) :
    Engine × Except Failure Unit :=
  match table.writePage e.disk page with
  | (disk, .ok _) => (updatePage { e with disk := disk } pid page.clean, .ok ())
  | (disk, .error f) =>
    let cache := if f.isUndefined then e.cache.spoilPage pid else e.cache
    ({ e with disk := disk, cache := cache }, .error f)

/-- Write a page to disk if it is cached; it is clean afterwards. -/
def flushPage (e : Engine) (pid : PageId) : Engine × Except Failure Unit :=
  match e.inCache fun e => (e, .ok (e.cache.find? pid)) with
  | (e, .error f) => (e, .error f)
  | (e, .ok none) => (e, .ok ())
  | (e, .ok (some frame)) =>
    match e.catalog.lookup pid.table with
    | .error f => (e, .error f)
    | .ok table =>
      match frame.use with
      | .error f => (e, .error f)
      | .ok page => e.writeBack table pid page

/-- Write pages one after the other, up to the first failure. -/
def flushEach : List PageId → Engine → Engine × Except Failure Unit
  | [], e => (e, .ok ())
  | pid :: pids, e =>
    match e.flushPage pid with
    | (e, .error f) => (e, .error f)
    | (e, .ok _) => flushEach pids e

/-- Write every page a transaction changed, oldest first. -/
def flushChanged (e : Engine) (tx : Tx) : Engine × Except Failure Unit :=
  match e.inCache fun e => (e, e.cache.findChanged tx) with
  | (e, .error f) => (e, .error f)
  | (e, .ok pids) => flushEach pids e

/-- Write every cached page, oldest first. -/
def flushAll (e : Engine) : Engine × Except Failure Unit :=
  match e.inCache fun e => (e, .ok e.cache.pids) with
  | (e, .error f) => (e, .error f)
  | (e, .ok pids) => flushEach pids e

/-! ## 2. Dropping changes -/

/-- Drop a page and bring it in again from disk, at the back of the cache.  A page that cannot be
read stays dropped. -/
def revertPage (e : Engine) (pid : PageId) : Engine × Except Failure Unit :=
  let e := { e with cache := e.cache.remove pid }
  match e.readPage pid with
  | .error f => (e, .error f)
  | .ok page => ({ e with cache := (e.cache.load pid page).1 }, .ok ())

/-- Revert pages one after the other, all of them unless one is undefined; the answer is the first
failure. -/
def revertEach : List PageId → Engine → Engine × Except Failure Unit
  | [], e => (e, .ok ())
  | pid :: pids, e =>
    match e.revertPage pid with
    | (e, .ok _) => revertEach pids e
    | (e, .error f) =>
      if f.isUndefined then (e, .error f)
      else
        match revertEach pids e with
        | (e, rest) => (e, .error (f.followedBy rest))

/-- Revert every page a transaction changed, oldest first. -/
def revertChanged (e : Engine) (tx : Tx) : Engine × Except Failure Unit :=
  e.inCache fun e =>
    match e.cache.findChanged tx with
    | .error f => (e, .error f)
    | .ok pids => revertEach pids e

/-! ## 3. Completion -/

/-- Write what the transaction changed; if that fails, drop what was not written, and answer with
the failure to write. -/
def settle (e : Engine) (tx : Tx) : Engine × Except Failure Unit :=
  match e.flushChanged tx with
  | (e, .ok _) => (e, .ok ())
  | (e, .error f) =>
    if f.isUndefined then (e, .error f)
    else
      match e.revertChanged tx with
      | (e, rest) => (e, .error (f.followedBy rest))

/-- Write a transaction's changes, or drop them. -/
def conclude (e : Engine) (tx : Tx) (commit : Bool) : Engine × Except Failure Unit :=
  if commit then e.settle tx else e.revertChanged tx

/-- **Complete a transaction**, writing its changes or dropping them, and release its locks. -/
def complete (e : Engine) (tx : Tx) (commit : Bool) : Engine × Except Failure Unit :=
  match e.conclude tx commit with
  | (e, .ok _) => ({ e with locks := e.locks.releaseAll tx }, .ok ())
  | (e, .error f) =>
    (if f.isUndefined then e else { e with locks := e.locks.releaseAll tx }, .error f)

/-- Complete a transaction and keep its changes. -/
def commit (e : Engine) (tx : Tx) : Engine × Except Failure Unit := e.complete tx true

/-- Complete a transaction and drop its changes. -/
def abort (e : Engine) (tx : Tx) : Engine × Except Failure Unit := e.complete tx false

end RowStore.Engine
