import RowStore.Disk
import RowStore.Page

/-!
# Tables as files of pages

A table's file is nothing but its pages, page `i` from byte `i * pageSize` on.  The number of pages
is read off the file's length every time, so it never goes stale.

A table uses its file by a handle of its own.  A write to a place that has more than 64 bits stops
in the middle, and the table can no longer use its file; another table in the same file can.

A table's id is made from the path when the file is opened.  Nothing keeps the tables of two files
from having one id.
-/

namespace RowStore

/-- A table: what it is known by, where its file is, what its rows look like, how large its pages
are, and the handle by which it uses the file. -/
structure TableFile where
  id : TableId
  path : Path
  schema : Schema
  pageSize : Nat
  handle : Nat
  deriving DecidableEq, Repr

namespace TableFile

/-! ## 1. Opening -/

/-- **Open the table in a file**, creating the file if it is not there.  The pages have to have
room for a row, and the file has to consist of whole pages. -/
def openAt (idOf : Path → TableId) (disk : Disk) (name : String) (schema : Schema)
    (pageSize : Nat) : Disk × Except Failure TableFile :=
  match PageLayout.slotCount? schema pageSize with
  | none => (disk, .error .oversize)
  | some 0 => (disk, .error (.unfitPageSize pageSize schema))
  | some _ =>
    match disk.openFile name with
    | .error fault => (disk, .error (.file fault.text))
    | .ok (disk, path) =>
      if disk.length path % pageSize = 0 then
        let (disk, handle) := disk.newHandle
        (disk, .ok ⟨idOf path, path, schema, pageSize, handle⟩)
      else (disk, .error (.ragged path (disk.length path) pageSize))

/-- The table as it is written. -/
def text (t : TableFile) : String :=
  "HeapFile(id: " ++ t.id.text ++ ", path: " ++ Text.quoted t.path.rooted ++ ")"

/-! ## 2. Pages -/

/-- The number of pages in the file. -/
def pageCount (t : TableFile) (disk : Disk) : Nat := disk.length t.path / t.pageSize

/-- Count the pages, which takes a handle that can be used. -/
def countPages (t : TableFile) (disk : Disk) : Except Failure Nat :=
  if disk.isUsable t.handle then .ok (t.pageCount disk) else .error .spoiled

/-- The id of the table's page at a position.  Indices have 32 bits and wrap. -/
def pageId (t : TableFile) (i : Nat) : PageId := ⟨t.id, UInt32.ofNat i⟩

/-- Whether the page is one of this table. -/
def own (t : TableFile) (pid : PageId) : Except Failure Unit :=
  if pid.table = t.id then .ok () else .error (.foreignPage pid t.id)

/-- **Read a page from the file.**  The page count it is checked against has 32 bits. -/
def readPage (t : TableFile) (disk : Disk) (pid : PageId) : Except Failure Page :=
  match t.own pid with
  | .error f => .error f
  | .ok _ =>
    match t.countPages disk with
    | .error f => .error f
    | .ok count =>
      let pages := UInt32.ofNat count
      if pid.index < pages then
        Page.ofBytes pid (disk.read t.path (pid.offset t.pageSize) t.pageSize) t.schema
      else .error (.pageOutOfRange pid pages.toNat)

/-- Find the place of a page in the file, for a write.  A place that has more than 64 bits is not
found, and the search spoils the handle. -/
def seekPage (t : TableFile) (disk : Disk) (pid : PageId) : Disk × Except Failure Nat :=
  if disk.isUsable t.handle then
    match pid.offset? t.pageSize with
    | none => (disk.spoil t.handle, .error .oversize)
    | some offset => (disk, .ok offset)
  else (disk, .error .spoiled)

/-- Write bytes into the file at an offset. -/
def writeBytes (t : TableFile) (disk : Disk) (offset : Nat) (bytes : List UInt8) :
    Disk × Except Failure Unit :=
  match disk.write t.path offset bytes with
  | .error fault => (disk, .error (.file fault.text))
  | .ok disk => (disk, .ok ())

/-- Write a page to its place in the file, over what is there. -/
def writePage (t : TableFile) (disk : Disk) (page : Page) : Disk × Except Failure Unit :=
  match t.own page.pid with
  | .error f => (disk, .error f)
  | .ok _ =>
    match t.seekPage disk page.pid with
    | (disk, .error f) => (disk, .error f)
    | (disk, .ok offset) => t.writeBytes disk offset page.image

/-- Write an empty page behind the last one; the answer is its id. -/
def appendPage (t : TableFile) (disk : Disk) : Disk × Except Failure PageId :=
  let pid := t.pageId (t.pageCount disk)
  match t.seekPage disk pid with
  | (disk, .error f) => (disk, .error f)
  | (disk, .ok offset) =>
    match t.writeBytes disk offset (Bytes.zeros t.pageSize) with
    | (disk, .error f) => (disk, .error f)
    | (disk, .ok _) => (disk, .ok pid)

end TableFile

end RowStore
