import RowStore.Address

/-!
# Configuration
-/

namespace RowStore

/-- What an engine is made with: the size of its pages in bytes, how many pages its cache holds,
and the bounds between which a request waits for a lock, in milliseconds.

The id of a table is made from the path of its file.  Which id that is, is left open: ids have 32
bits and paths have any length, so two files may well get one id. -/
structure Config where
  pageSize : Nat := 4096
  pages : Nat := 50
  waitMin : Nat := 0
  waitMax : Nat := 2000
  idOf : Path → TableId := .file

end RowStore
