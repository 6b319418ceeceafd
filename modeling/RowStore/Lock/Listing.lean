import RowStore.Lock.Table

/-!
# The lock table in words

The listing of all locks, first by page, then by transaction.  The entries stand in the order of
their text, and so do the pages of a transaction; the holders of a page keep the order in which
they came.
-/

namespace RowStore.LockTable

/-- Lines in the order of their text. -/
def sortedText (lines : List String) : List String :=
  lines.mergeSort fun a b => !decide (b < a)

/-- The holders of one page, and how many requests wait for it. -/
def pageListing (pid : PageId) (entry : PageLocks) : String :=
  "\n\t" ++ pid.text ++ " -> ["
    ++ "".intercalate (entry.holders.map fun h =>
      "\n\t\t" ++ h.tx.text ++ " " ++ h.mode.text ++ ", ")
    ++ "\n\t] waiters: " ++ toString entry.waiters

/-- The pages of one transaction. -/
def txListing (tx : Tx) (pages : PageSet) : String :=
  "\n\t" ++ tx.text ++ " -> ["
    ++ "".intercalate (sortedText (pages.toList.map fun pid => "\n\t\t" ++ pid.text ++ ", "))
    ++ "\n\t]"

/-- All locks. -/
def text (t : LockTable) : String :=
  "\nlock_map: \x7b"
    ++ "".intercalate (sortedText (t.pages.toList.map fun (pid, entry) => pageListing pid entry))
    ++ "\n\x7d\nhold_pages: \x7b"
    ++ "".intercalate (sortedText (t.held.map fun (tx, pages) => txListing tx pages))
    ++ "\n\x7d\n"

/-- The pages of a transaction by the text of their table, then by index. -/
def sortedPagesOf (t : LockTable) (tx : Tx) : List PageId :=
  (t.pagesOf tx).toList.mergeSort fun a b =>
    decide (a.table.text < b.table.text)
      || (a.table.text == b.table.text && decide (a.index ≤ b.index))

end RowStore.LockTable
