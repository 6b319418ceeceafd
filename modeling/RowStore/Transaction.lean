/-!
# Transactions and the locks they ask for

A transaction is a number and nothing else: it marks who owns a lock and who changed a page.
-/

namespace RowStore

/-- The number of a transaction. -/
structure Tx where
  number : Nat
  deriving DecidableEq, Repr

/-- The transaction as it is written. -/
def Tx.text (tx : Tx) : String := "tx_" ++ toString tx.number

/-- Any number of transactions may share a page for reading; one alone may hold it for writing. -/
inductive LockMode where
  | shared
  | exclusive
  deriving DecidableEq, Repr

/-- The mode as it is written. -/
def LockMode.text : LockMode → String
  | shared => "SLock"
  | exclusive => "XLock"

/-- What a caller wants to do with a page. -/
inductive Access where
  | read
  | write
  deriving DecidableEq, Repr

/-- Reading needs a shared lock, writing an exclusive one. -/
def Access.mode : Access → LockMode
  | read => .shared
  | write => .exclusive

end RowStore
