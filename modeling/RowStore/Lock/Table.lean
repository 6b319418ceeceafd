import RowStore.Assoc
import RowStore.Failure

/-!
# The lock table

Which transactions hold which pages, in two maps: by page, the holders in the order they came; by
transaction, the pages it holds.  A page is held by one transaction for writing or by any number
for reading.  An attempt to lock is granted at once or denied at once (`acquire`); a denied one
leaves the table as it is.

A page's entry also counts the requests that wait for it, and is kept as long as it has holders or
waiting requests.  Every entry gets a number of its own when it is made, so that an entry can be
told from a later one for the same page.
-/

namespace RowStore

/-! ## 1. Holders of one page -/

/-- A transaction and the lock it holds. -/
structure Holder where
  tx : Tx
  mode : LockMode
  deriving DecidableEq, Repr

namespace Holder

/-- **The grant rule.**  The holders after a grant, nothing for a denial.  A free page is granted;
a sole holder gets what it asks for, keeping the stronger lock; readers share with readers. -/
def grant (holders : List Holder) (tx : Tx) (mode : LockMode) : Option (List Holder) :=
  match holders with
  | [] => some [⟨tx, mode⟩]
  | [h] =>
    if h.tx = tx then
      if h.mode = .shared ∧ mode = .exclusive then some [⟨h.tx, .exclusive⟩] else some [h]
    else if h.mode = .shared ∧ mode = .shared then some [h, ⟨tx, mode⟩]
    else none
  | hs =>
    if mode = .exclusive then none
    else if hs.any fun h => h.tx = tx then some hs
    else some (hs ++ [⟨tx, mode⟩])

end Holder

/-- The lock state of one page. -/
structure PageLocks where
  /-- The number of this entry. -/
  serial : Nat
  holders : List Holder
  /-- How many requests wait for the page. -/
  waiters : Nat
  deriving DecidableEq, Repr

/-- An entry that nobody holds and nobody waits for. -/
def PageLocks.idle (e : PageLocks) : Bool := e.holders.isEmpty && e.waiters == 0

/-! ## 2. The table -/

/-- All locks. -/
structure LockTable where
  pages : PageMap PageLocks := ∅
  held : List (Tx × PageSet) := []
  /-- How many entries were ever made. -/
  made : Nat := 0
  deriving Repr

namespace LockTable

/-- The locks granted on a page, in order. -/
def holders (t : LockTable) (pid : PageId) : List Holder :=
  match t.pages[pid]? with
  | some entry => entry.holders
  | none => []

/-- The lock a transaction holds on a page. -/
def modeOf? (t : LockTable) (tx : Tx) (pid : PageId) : Option LockMode :=
  ((t.holders pid).find? fun h => h.tx = tx).map Holder.mode

/-- The pages a transaction holds. -/
def pagesOf (t : LockTable) (tx : Tx) : PageSet := (Assoc.find? tx t.held).getD ∅

/-- The table with an entry for the page, a new one if there is none. -/
def entryFor (t : LockTable) (pid : PageId) : LockTable × PageLocks :=
  match t.pages[pid]? with
  | some entry => (t, entry)
  | none => ({ t with made := t.made + 1 }, ⟨t.made, [], 0⟩)

/-- Note that a transaction holds a page. -/
def noteHeld (t : LockTable) (tx : Tx) (pid : PageId) : LockTable :=
  { t with held := Assoc.set tx ((t.pagesOf tx).insert pid) t.held }

/-! ## 3. Attempts -/

/-- **One attempt to lock a page**: the table afterwards and whether the lock was granted. -/
def acquire (t : LockTable) (tx : Tx) (mode : LockMode) (pid : PageId) : LockTable × Bool :=
  match Holder.grant (t.holders pid) tx mode with
  | none => (t, false)
  | some holders =>
    let (t, entry) := t.entryFor pid
    let t := { t with pages := t.pages.insert pid { entry with holders := holders } }
    (t.noteHeld tx pid, true)

/-- A request that gives up when it is denied, for its deadline has come. -/
def request (t : LockTable) (tx : Tx) (mode : LockMode) (pid : PageId) :
    LockTable × Except Failure Unit :=
  match t.acquire tx mode pid with
  | (t, true) => (t, .ok ())
  | (t, false) => (t, .error (.lockTimeout tx mode pid))

/-! ## 4. Releases -/

/-- Keep an entry if it is in use, drop it if it is idle. -/
def keep (t : LockTable) (pid : PageId) (entry : PageLocks) : LockTable :=
  { t with pages := if entry.idle then t.pages.erase pid else t.pages.insert pid entry }

/-- Take a transaction out of a page's holders. -/
def dropHolder (t : LockTable) (tx : Tx) (pid : PageId) : LockTable :=
  match t.pages[pid]? with
  | none => t
  | some entry =>
    t.keep pid { entry with holders := entry.holders.filter fun h => h.tx ≠ tx }

/-- Take a page out of a transaction's pages. -/
def dropHeld (t : LockTable) (tx : Tx) (pid : PageId) : LockTable :=
  match Assoc.find? tx t.held with
  | none => t
  | some pages =>
    let rest := pages.erase pid
    { t with held := if rest.isEmpty then Assoc.erase tx t.held else Assoc.set tx rest t.held }

/-- Release one page; nothing happens if it is not held. -/
def release (t : LockTable) (tx : Tx) (pid : PageId) : LockTable :=
  (t.dropHolder tx pid).dropHeld tx pid

/-- **Release every page a transaction holds**, going by the map of its pages. -/
def releaseAll (t : LockTable) (tx : Tx) : LockTable :=
  match Assoc.find? tx t.held with
  | none => t
  | some pages =>
    pages.toList.foldl (fun t pid => t.dropHolder tx pid)
      { t with held := Assoc.erase tx t.held }

/-- Forget all locks. -/
def clear (t : LockTable) : LockTable := { t with pages := ∅, held := [] }

/-! ## 5. Waiting requests -/

/-- Count one more waiting request on a page; the answer is the number of the entry it waits on. -/
def addWaiter (t : LockTable) (pid : PageId) : LockTable × Nat :=
  let (t, entry) := t.entryFor pid
  ({ t with pages := t.pages.insert pid { entry with waiters := entry.waiters + 1 } },
    entry.serial)

/-- Count one waiting request less on a page, if the page has an entry.  There is no answer for an
entry that counts none. -/
def removeWaiter? (t : LockTable) (pid : PageId) : Option LockTable :=
  match t.pages[pid]? with
  | none => some t
  | some entry =>
    match entry.waiters with
    | 0 => none
    | n + 1 => some (t.keep pid { entry with waiters := n })

end LockTable

end RowStore
