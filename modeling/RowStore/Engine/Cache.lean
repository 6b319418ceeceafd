import RowStore.Assoc
import RowStore.Page

/-!
# The page cache

The pages in memory, and beside them a queue of their ids in the order in which they came.  A page
that is brought in goes to the back of the queue; a page that is put in again keeps its place; one
that leaves is taken out of the queue as well.  Nothing ties the queue to the pages but these
operations.  When room is needed the oldest clean page leaves; a page with changes never leaves to
make room, since nothing could undo the changes once they were written.

Every page that is brought in gets a serial number, by which whoever was handed the page can find
it again, also after it has left the cache (`detached`).

A page is spoiled when writing it to disk stopped in the middle.  It keeps its place and can be
removed, but nobody can look at it any more; whoever has to look at several pages stops at the
first spoiled one.  The cache as a whole is spoiled when an operation on it stopped so.
-/

namespace RowStore

/-- A page in memory, its serial number, and whether it was spoiled. -/
structure Frame where
  serial : Nat
  page : Page
  spoiled : Bool := false
  deriving DecidableEq

/-- The page of a frame, for whoever looks at it or changes it. -/
def Frame.use (frame : Frame) : Except Failure Page :=
  if frame.spoiled then .error .spoiled else .ok frame.page

/-- The pages in memory. -/
structure Cache where
  /-- The cached pages by id. -/
  frames : List (PageId × Frame) := []
  /-- The queue: the ids of the cached pages, oldest first. -/
  pids : List PageId := []
  /-- Pages that left the cache. -/
  detached : List Frame := []
  /-- The serial number of the next page that is brought in. -/
  nextSerial : Nat := 0
  /-- Whether an operation on the cache stopped in the middle. -/
  spoiled : Bool := false
  deriving DecidableEq

namespace Cache

/-! ## 1. Looking -/

/-- The number of cached pages. -/
def size (c : Cache) : Nat := c.frames.length

/-- The page cached under an id. -/
def find? (c : Cache) (pid : PageId) : Option Frame := Assoc.find? pid c.frames

/-- The page with a serial number, in the cache or not. -/
def bySerial? (c : Cache) (serial : Nat) : Option Frame :=
  (c.frames.map Prod.snd ++ c.detached).find? fun frame => frame.serial == serial

/-- Whether a page of the queue could leave: it is clean, or it is not there at all. -/
def isIdle (c : Cache) (pid : PageId) : Bool :=
  (c.find? pid).all fun frame => frame.page.dirty.isNone

/-- Whether the page under an id is spoiled. -/
def isSpoiled (c : Cache) (pid : PageId) : Bool := (c.find? pid).any Frame.spoiled

/-- The oldest page without changes. -/
def victim? (c : Cache) : Option PageId := c.pids.find? c.isIdle

/-- Whether the search for the oldest clean page meets a spoiled one on its way. -/
def isBlocked (c : Cache) : Bool :=
  (c.pids.find? fun pid => c.isSpoiled pid || c.isIdle pid).any c.isSpoiled

/-- The pages changed by a transaction, oldest first. -/
def changedBy (c : Cache) (tx : Tx) : List PageId :=
  c.pids.filter fun pid => (c.find? pid).any fun frame => frame.page.dirty == some tx

/-- Look through all pages for those changed by a transaction. -/
def findChanged (c : Cache) (tx : Tx) : Except Failure (List PageId) :=
  if c.pids.any c.isSpoiled then .error .spoiled else .ok (c.changedBy tx)

/-! ## 2. Changing -/

/-- Put a frame under an id.  An id that is new goes to the back of the queue. -/
def insert (c : Cache) (pid : PageId) (frame : Frame) : Cache :=
  { c with
    frames := Assoc.set pid frame c.frames
    pids := if (c.find? pid).isSome then c.pids else c.pids ++ [pid] }

/-- Bring a page in, under a new serial number. -/
def load (c : Cache) (pid : PageId) (page : Page) : Cache × Frame :=
  let frame : Frame := ⟨c.nextSerial, page, false⟩
  ({ c.insert pid frame with nextSerial := c.nextSerial + 1 }, frame)

/-- Let a page leave. -/
def remove (c : Cache) (pid : PageId) : Cache :=
  match c.find? pid with
  | none => c
  | some frame =>
    { c with
      frames := Assoc.erase pid c.frames
      pids := c.pids.filter fun p => p ≠ pid
      detached := frame :: c.detached }

/-- Let every page leave. -/
def clear (c : Cache) : Cache :=
  { c with frames := [], pids := [], detached := c.frames.map Prod.snd ++ c.detached }

/-- **Make room for one page** by letting the oldest clean page leave. -/
def evict (c : Cache) : Except Failure Cache :=
  if c.isBlocked then .error .spoiled
  else
    match c.victim? with
    | some pid => .ok (c.remove pid)
    | none => if c.frames.isEmpty then .error .cacheEmpty else .error (.cacheDirty c.size)

/-- A new content for the page cached under an id. -/
def update (c : Cache) (pid : PageId) (page : Page) : Cache :=
  match c.find? pid with
  | none => c
  | some frame => c.insert pid { frame with page := page }

/-- Spoil the page cached under an id. -/
def spoilPage (c : Cache) (pid : PageId) : Cache :=
  match c.find? pid with
  | none => c
  | some frame => c.insert pid { frame with spoiled := true }

/-- Spoil the cache as a whole. -/
def spoil (c : Cache) : Cache := { c with spoiled := true }

/-- A frame with a new content, if it has the serial number. -/
def renewed (serial : Nat) (page : Page) (frame : Frame) : Frame :=
  if frame.serial = serial then { frame with page := page } else frame

/-- A new content for the page with a serial number, in the cache or not. -/
def updateSerial (c : Cache) (serial : Nat) (page : Page) : Cache :=
  { c with
    frames := c.frames.map fun (pid, frame) => (pid, renewed serial page frame)
    detached := c.detached.map (renewed serial page) }

end Cache

end RowStore
