import RowStore.Lock.Table

/-!
# Requests that wait

A request that is denied before its deadline is counted on the page's entry and falls asleep on
that very entry.  It is woken when a holder of that entry goes away, or when all locks are
forgotten; a woken request takes itself off the count and makes a new attempt, after which it is
granted, or asleep again, or gives up.  Between the waking and the new attempt anything may happen
to the lock table.

All locks may be forgotten meanwhile and the page locked anew, by an entry that counts no request.
A request that comes off such a count is undefined, and spoils the lock table for everyone.
-/

namespace RowStore

/-- A request that is asleep or about to resume. -/
structure WaitingRequest where
  tx : Tx
  mode : LockMode
  page : PageId
  /-- The number of the entry it fell asleep on. -/
  entry : Nat
  /-- Whether it was woken since it fell asleep. -/
  woken : Bool
  deriving DecidableEq, Repr

/-- A lock table and the requests that wait, by the number the caller gave them. -/
structure LockQueue where
  table : LockTable := {}
  waiting : List (Nat × WaitingRequest) := []
  /-- Whether a request came off a count that it was not part of. -/
  spoiled : Bool := false
  deriving Repr

namespace LockQueue

/-- An answer of the queue, which a spoiled one does not give. -/
def answer {α : Type} (q : LockQueue) (a : α) : Except Failure α :=
  if q.spoiled then .error .spoiled else .ok a

/-! ## 1. Waking -/

/-- Wake every request that is asleep on an entry that satisfies `p`. -/
def wake (q : LockQueue) (p : Nat → Bool) : List (Nat × WaitingRequest) :=
  q.waiting.map fun (n, r) => (n, if p r.entry then { r with woken := true } else r)

/-- The entry that a release by this transaction would be announced on: the page's, if the
transaction is among its holders. -/
def announced? (t : LockTable) (tx : Tx) (pid : PageId) : Option Nat :=
  match t.pages[pid]? with
  | some entry => if entry.holders.any fun h => h.tx = tx then some entry.serial else none
  | none => none

/-! ## 2. Steps of the table -/

/-- An attempt that does not wait. -/
def acquire (q : LockQueue) (tx : Tx) (mode : LockMode) (pid : PageId) : LockQueue × Bool :=
  let (table, granted) := q.table.acquire tx mode pid
  ({ q with table := table }, granted)

/-- Release one page and wake who sleeps on it. -/
def release (q : LockQueue) (tx : Tx) (pid : PageId) : LockQueue :=
  { q with
    table := q.table.release tx pid
    waiting := q.wake fun entry => announced? q.table tx pid == some entry }

/-- Release every page of a transaction and wake who sleeps on any of them. -/
def releaseAll (q : LockQueue) (tx : Tx) : LockQueue :=
  { q with
    table := q.table.releaseAll tx
    waiting := q.wake fun entry => (q.table.pagesOf tx).toList.any fun pid =>
      announced? q.table tx pid == some entry }

/-- Forget all locks and wake everyone who sleeps on an entry there was. -/
def clear (q : LockQueue) : LockQueue :=
  { q with
    table := q.table.clear
    waiting := q.wake fun entry => q.table.pages.toList.any fun p => p.2.serial == entry }

/-! ## 3. Steps of a request -/

/-- Make an attempt, and fall asleep under this number if it is denied. -/
def attempt (q : LockQueue) (n : Nat) (tx : Tx) (mode : LockMode) (pid : PageId) :
    LockQueue × Bool :=
  match q.table.acquire tx mode pid with
  | (table, true) => ({ q with table := table }, true)
  | (table, false) =>
    let (table, entry) := table.addWaiter pid
    ({ q with
      table := table
      waiting := q.waiting ++ [(n, ⟨tx, mode, pid, entry, false⟩)] }, false)

/-- Take a request off the count of its page, and out of the queue. -/
def comeOff (q : LockQueue) (n : Nat) (pid : PageId) : LockQueue :=
  if q.spoiled then q
  else
    match q.table.removeWaiter? pid with
    | none => { q with spoiled := true }
    | some table => { q with table := table, waiting := Assoc.erase n q.waiting }

/-- A request comes off the count and makes a new attempt. -/
def resume (q : LockQueue) (n : Nat) : LockQueue :=
  match Assoc.find? n q.waiting with
  | none => q
  | some r =>
    let q := q.comeOff n r.page
    if q.spoiled then q else (q.attempt n r.tx r.mode r.page).1

/-- A request comes off the count and gives up unless a last attempt is granted. -/
def giveUp (q : LockQueue) (n : Nat) : LockQueue × Except Failure Unit :=
  match Assoc.find? n q.waiting with
  | none => (q, .ok ())
  | some r =>
    let q := q.comeOff n r.page
    if q.spoiled then (q, .error .spoiled)
    else
      match q.table.request r.tx r.mode r.page with
      | (table, result) => ({ q with table := table }, result)

/-- Let every woken request resume, in the order they came. -/
def settle (q : LockQueue) : LockQueue :=
  (q.waiting.filter fun (_, r) => r.woken).foldl (fun q (n, _) => q.resume n) q

/-- Whether a request is still waiting. -/
def isWaiting (q : LockQueue) (n : Nat) : Bool := (Assoc.find? n q.waiting).isSome

end LockQueue

end RowStore
