import RowStore.Catalog
import RowStore.Config
import RowStore.Engine.Cache
import RowStore.Lock.Table

/-!
# The engine

The whole state of a store: the disk, the catalog, the locks and the page cache.  Every access to a
page goes through `Engine.fetch`, which hands a page out only after the transaction holds the lock
for it.

Operations answer together with the state they leave behind, since a failing one may have changed
something already: a page that was locked stays locked, an opened file stays created.  Whatever is
done to the cache is done by `Engine.inCache`: an operation that stops there in the middle spoils
the cache, and no later one can use it.
-/

namespace RowStore

/-- The state of a store. -/
structure Engine where
  config : Config
  disk : Disk := {}
  catalog : Catalog := {}
  locks : LockTable := {}
  cache : Cache := {}

namespace Engine

/-! ## 1. Tables -/

/-- Open the table in a file and register it under a name. -/
def createTable (e : Engine) (file name : String) (schema : Schema) :
    Engine × Except Failure TableFile :=
  match TableFile.openAt e.config.idOf e.disk file schema e.config.pageSize with
  | (disk, .error f) => ({ e with disk := disk }, .error f)
  | (disk, .ok table) =>
    ({ e with disk := disk, catalog := e.catalog.add table name }, .ok table)

/-- The page on disk, as the registered table reads it. -/
def readPage (e : Engine) (pid : PageId) : Except Failure Page :=
  match e.catalog.lookup pid.table with
  | .error f => .error f
  | .ok table => table.readPage e.disk pid

/-! ## 2. The cache -/

/-- **Use the cache.**  A spoiled cache cannot be used, and an undefined use spoils it. -/
def inCache {α : Type} (e : Engine) (use : Engine → Engine × Except Failure α) :
    Engine × Except Failure α :=
  if e.cache.spoiled then (e, .error .spoiled)
  else
    match use e with
    | (e, .ok a) => (e, .ok a)
    | (e, .error f) =>
      (if f.isUndefined then { e with cache := e.cache.spoil } else e, .error f)

/-- A cache with room for one more page. -/
def makeRoom (e : Engine) : Except Failure Cache :=
  if e.config.pages ≤ e.cache.size then e.cache.evict else .ok e.cache

/-- The page from the cache, or from disk into the cache. -/
def bringIn (e : Engine) (pid : PageId) : Engine × Except Failure Frame :=
  match e.cache.find? pid with
  | some frame => (e, .ok frame)
  | none =>
    match e.readPage pid with
    | .error f => (e, .error f)
    | .ok page =>
      match e.makeRoom with
      | .error f => (e, .error f)
      | .ok cache =>
        let (cache, frame) := cache.load pid page
        ({ e with cache := cache }, .ok frame)

/-! ## 3. Pages -/

/-- **A page for a transaction.**  First the lock: one that is not free fails the call and changes
nothing.  Then the page: from the cache if it is there, else from disk, for which the oldest clean
page may have to leave. -/
def fetch (e : Engine) (tx : Tx) (access : Access) (pid : PageId) :
    Engine × Except Failure Frame :=
  match e.locks.request tx access.mode pid with
  | (locks, .error f) => ({ e with locks := locks }, .error f)
  | (locks, .ok _) => inCache { e with locks := locks } fun e => e.bringIn pid

/-- A new content for a cached page. -/
def updatePage (e : Engine) (pid : PageId) (page : Page) : Engine :=
  { e with cache := e.cache.update pid page }

/-- Let a page leave the cache, whatever changes it has. -/
def removePage (e : Engine) (pid : PageId) : Engine × Except Failure Unit :=
  e.inCache fun e => ({ e with cache := e.cache.remove pid }, .ok ())

/-- Release one lock before its transaction completes. -/
def releasePage (e : Engine) (tx : Tx) (pid : PageId) : Engine :=
  { e with locks := e.locks.release tx pid }

/-- Let every page leave the cache and forget all locks. -/
def clear (e : Engine) : Engine × Except Failure Unit :=
  e.inCache fun e => ({ e with cache := e.cache.clear, locks := e.locks.clear }, .ok ())

end Engine

end RowStore
