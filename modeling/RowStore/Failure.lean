import RowStore.Condition
import RowStore.Query.Operator
import RowStore.Transaction

/-!
# Failures

Every way in which an operation of the store can fail, as its cause together with the things it is
about.  The wording is in one place, `Failure.message`; what a failure asks of the caller is in
another, `Failure.kind`.
-/

namespace RowStore

/-! ## 1. Causes -/

/-- Why an operation on a file was refused. -/
inductive FileFault where
  /-- A name leads through a folder that is not there. -/
  | missing
  /-- A name leads through a file. -/
  | notDirectory
  /-- A file was wanted and the name is a folder's. -/
  | isDirectory
  /-- A name, or one of its parts, has more bytes than the system allows. -/
  | nameTooLong
  /-- A name has the character NUL in it, which ends a name for the system. -/
  | nulInName
  /-- A position in a file is not one the system can name. -/
  | badPosition
  deriving DecidableEq, Repr

/-- The system's words for the fault. -/
def FileFault.text : FileFault → String
  | missing => "No such file or directory (os error 2)"
  | notDirectory => "Not a directory (os error 20)"
  | isDirectory => "Is a directory (os error 21)"
  | nameTooLong => "File name too long (os error 36)"
  | nulInName => "file name contained an unexpected NUL byte"
  | badPosition => "Invalid argument (os error 22)"

/-- The cause of a failure. -/
inductive Failure where
  /-- A storage fault in the caller's own words. -/
  | stated (text : String)
  /-- A rollback asked for in the caller's own words. -/
  | rollback (text : String)
  /-- The system refused an operation on a file. -/
  | file (text : String)
  /-- An integer was needed. -/
  | notInt (v : Value)
  /-- A text was needed. -/
  | notText (v : Value)
  /-- A size or a position has more than 64 bits. -/
  | oversize
  /-- A row is too short to have the value that was asked for. -/
  | missingValue (row : Row) (i : Nat)
  /-- What was asked for was spoiled by an operation that stopped in the middle. -/
  | spoiled
  /-- A reader was asked for bytes behind its end. -/
  | readPastEnd (start stop len : Nat)
  /-- More bytes were written than there is room for. -/
  | overfull (len size : Nat)
  /-- A page has no room for a single row of its schema. -/
  | pageTooSmall (page : PageId) (size : Nat)
  /-- A row does not match the schema of the page it was to be put on. -/
  | misfit (row : Row) (schema : Schema)
  /-- A page has no free slot. -/
  | pageFull (page : PageId)
  /-- A row that is stored nowhere was to be deleted. -/
  | noRecordId (row : Row)
  /-- A row was to be deleted from a page that is not its own. -/
  | otherPage (row : Row) (page : PageId)
  /-- A slot that holds nothing was to be freed. -/
  | slotFree (rid : RecordId)
  /-- Pages of this size cannot hold a row of the schema. -/
  | unfitPageSize (size : Nat) (schema : Schema)
  /-- A file's length is no multiple of the page size. -/
  | ragged (path : Path) (len size : Nat)
  /-- A page of another table was asked for. -/
  | foreignPage (page : PageId) (table : TableId)
  /-- A page behind the table's end was asked for. -/
  | pageOutOfRange (page : PageId) (pages : Nat)
  /-- A row does not match the schema of the table it was to be put into. -/
  | tableMisfit (row : Row) (schema : Schema) (table : TableId)
  /-- Even a page just appended had no free slot. -/
  | newPageFull (page : PageId) (row : Row)
  /-- No table is registered under this id. -/
  | unknownTable (table : TableId)
  /-- A lock was not free before the deadline. -/
  | lockTimeout (tx : Tx) (mode : LockMode) (page : PageId)
  /-- A page had to leave a cache that holds none. -/
  | cacheEmpty
  /-- A page had to leave a cache that holds changed pages only. -/
  | cacheDirty (pages : Nat)
  /-- An operator was asked for rows, or to start over, without being open. -/
  | notOpened (kind : OperatorKind)
  /-- A filter's condition is about a column its input lacks. -/
  | filterColumn (condition : Condition) (schema : Schema)
  /-- A filter's constant is of another type than the column. -/
  | filterType (condition : Condition) (column : Column)
  /-- A join's condition is about a column that one of its inputs lacks. -/
  | joinColumn (condition : JoinCondition) (left right : Schema)
  /-- A join's two columns are of different types. -/
  | joinTypes (left right : Column)
  /-- An aggregate is of a column its input lacks. -/
  | aggregateColumn (column : Nat) (schema : Schema)
  /-- An aggregate other than a count is of a column that holds no integers. -/
  | aggregateType (fn : AggregateFn) (column : Column)
  /-- An aggregate is grouped by a column its input lacks. -/
  | groupColumn (column : Nat) (schema : Schema)
  /-- An aggregate is grouped by a column whose type has no groups. -/
  | groupType (type : ColumnType)
  /-- A sum left the range of 64-bit integers. -/
  | sumOverflow
  /-- An insert's input has other column types than the table. -/
  | insertTypes (input : Schema) (table : TableId) (schema : Schema)

/-! ## 2. Kinds -/

/-- What a failure asks of the caller. -/
inductive FailureKind where
  /-- The request or the data were at fault; nothing is to be gained by trying again. -/
  | storage
  /-- The transaction lost a race; it should be rolled back and may be tried again. -/
  | aborted
  /-- The request was beyond what the operation is defined for.  Such an operation stops where it
  is: it undoes nothing and releases nothing, and what it was changing at that moment is spoiled. -/
  | undefined
  deriving DecidableEq, Repr

/-- **Only a lock that was not free asks for a rollback**, apart from a caller's own request. -/
def Failure.kind : Failure → FailureKind
  | rollback _ => .aborted
  | lockTimeout .. => .aborted
  | oversize => .undefined
  | missingValue .. => .undefined
  | spoiled => .undefined
  | _ => .storage

/-- Whether the operation stopped where it was. -/
def Failure.isUndefined (f : Failure) : Bool := f.kind == .undefined

/-- What is told of a failure after which the work went on: the failure itself, unless the work
then stopped. -/
def Failure.followedBy {α : Type} (f : Failure) : Except Failure α → Failure
  | .ok _ => f
  | .error g => if g.isUndefined then g else f

/-! ## 3. Wording -/

/-- The cause in words. -/
def Failure.details : Failure → String
  | stated text => text
  | rollback text => text
  | file text => "io error: " ++ text
  | notInt v => "not an int64 cell: " ++ v.describe
  | notText v => "not a string cell: " ++ v.describe
  | oversize => "size of more than 64 bits"
  | missingValue row i => "tuple " ++ row.text ++ " has no field " ++ toString i
  | spoiled => "left spoiled by an operation that stopped in the middle"
  | readPastEnd start stop len =>
    "read out of boundary: " ++ toString start ++ ".." ++ toString stop ++ " of " ++ toString len
  | overfull len size =>
    "buffer size is larger than the given size: " ++ toString len ++ " > " ++ toString size
  | pageTooSmall page size =>
    "page " ++ page.text ++ " is too small for its schema: " ++ toString size ++ " bytes"
  | misfit row schema => "tuple " ++ row.text ++ " doesn't match schema [" ++ schema.text ++ "]"
  | pageFull page => "page " ++ page.text ++ " is full"
  | noRecordId row => "tuple " ++ row.text ++ " has no record id"
  | otherPage row page => "tuple " ++ row.describe ++ " is not on page " ++ page.text
  | slotFree rid => "slot " ++ rid.text ++ " is already empty"
  | unfitPageSize size schema =>
    "a page of " ++ toString size ++ " bytes can't hold a single tuple of schema ["
      ++ schema.text ++ "]"
  | ragged path len size =>
    "file " ++ Text.quoted path.rooted ++ " has " ++ toString len
      ++ " bytes, not a multiple of the page size " ++ toString size
  | foreignPage page table => "page " ++ page.text ++ " doesn't belong to table " ++ table.text
  | pageOutOfRange page pages =>
    "page " ++ page.text ++ " out of range, table has " ++ toString pages ++ " pages"
  | tableMisfit row schema table =>
    "tuple " ++ row.text ++ " doesn't match schema [" ++ schema.text ++ "] of table " ++ table.text
  | newPageFull page row =>
    "new page " ++ page.text ++ " has no free slot for tuple " ++ row.text
  | unknownTable table => "table " ++ table.text ++ " not found"
  | lockTimeout tx mode page =>
    "acquire lock timeout, args: " ++ tx.text ++ ", " ++ mode.text ++ ", " ++ page.text
  | cacheEmpty => "buffer pool is empty, cannot evict page"
  | cacheDirty pages =>
    "all " ++ toString pages ++ " pages in the buffer pool are dirty, cannot evict page"
  | notOpened kind => kind.text ++ " is not opened"
  | filterColumn condition schema =>
    "predicate " ++ condition.text ++ " refers to a missing field, schema: [" ++ schema.text ++ "]"
  | filterType condition column =>
    "predicate " ++ condition.text ++ " can't be applied to " ++ column.type.text ++ " field "
      ++ column.name
  | joinColumn condition left right =>
    "join predicate " ++ condition.text ++ " refers to a missing field, schemas: [" ++ left.text
      ++ "] and [" ++ right.text ++ "]"
  | joinTypes left right =>
    "can't join " ++ left.type.text ++ " field " ++ left.name ++ " with " ++ right.type.text
      ++ " field " ++ right.name
  | aggregateColumn column schema =>
    "aggregate field " ++ toString column ++ " out of range, schema: [" ++ schema.text ++ "]"
  | aggregateType fn column =>
    fn.text ++ " is not supported on " ++ column.type.text ++ " field " ++ column.name
  | groupColumn column schema =>
    "group field " ++ toString column ++ " out of range, schema: [" ++ schema.text ++ "]"
  | groupType type => "can't group by a " ++ type.text ++ " field"
  | sumOverflow => "sum overflow"
  | insertTypes input table schema =>
    "can't insert [" ++ input.text ++ "] into table " ++ table.text ++ " with schema ["
      ++ schema.text ++ "]"

/-- The message of a failure: the cause, announced as an abort if it asks for a rollback. -/
def Failure.message (f : Failure) : String :=
  match f.kind with
  | .aborted => "transaction aborted: " ++ f.details
  | _ => f.details

end RowStore
