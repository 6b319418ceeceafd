import RowStore.Assoc
import RowStore.TableFile

/-!
# The catalog

The tables the store knows, by id, and the names they go by.  A table has one name: registering it
under another one takes the old name away, and registering another table under a name that is taken
takes the old table away.
-/

namespace RowStore

/-- Tables by id, and ids by name. -/
structure Catalog where
  tables : List (TableId × TableFile) := []
  names : List (String × TableId) := []
  deriving DecidableEq

namespace Catalog

/-- The names without those of one table. -/
def namesWithout (c : Catalog) (id : TableId) : List (String × TableId) :=
  c.names.filter fun p => p.2 ≠ id

/-- The catalog without the table of this name and without the name. -/
def vacate (c : Catalog) (name : String) : Catalog :=
  match Assoc.find? name c.names with
  | none => c
  | some id => ⟨Assoc.erase id c.tables, Assoc.erase name c.names⟩

/-- **Register a table under a name**, in place of the table that had the name and of any table
with the same id. -/
def add (c : Catalog) (table : TableFile) (name : String) : Catalog :=
  let c := c.vacate name
  ⟨Assoc.set table.id table c.tables, Assoc.set name table.id (c.namesWithout table.id)⟩

/-- The table with this id. -/
def table? (c : Catalog) (id : TableId) : Option TableFile := Assoc.find? id c.tables

/-- The id of the table with this name. -/
def id? (c : Catalog) (name : String) : Option TableId := Assoc.find? name c.names

/-- The name of the table with this id. -/
def name? (c : Catalog) (id : TableId) : Option String :=
  (c.names.find? fun p => p.2 == id).map Prod.fst

/-- The table with this name. -/
def named? (c : Catalog) (name : String) : Option TableFile := (c.id? name).bind c.table?

/-- Forget a table and its name; the file stays.  The answer is the table, if there was one. -/
def remove (c : Catalog) (id : TableId) : Catalog × Option TableFile :=
  (⟨Assoc.erase id c.tables, c.namesWithout id⟩, c.table? id)

/-- The ids of all tables. -/
def ids (c : Catalog) : List TableId := Assoc.keys c.tables

/-- The table with this id, or the failure that names it. -/
def lookup (c : Catalog) (id : TableId) : Except Failure TableFile :=
  match c.table? id with
  | some table => .ok table
  | none => .error (.unknownTable id)

end Catalog

end RowStore
