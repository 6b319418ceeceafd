import RowStore.Catalog

/-!
# Looking things up in a catalog

What each operation on a catalog does to the table with an id and to the id with a name, one
equation for each.  A table that is registered may push out two other things at once: the table
that had its name, and the name that it had itself.
-/

namespace RowStore.Catalog

variable {c : Catalog} {table : TableFile}

theorem table?_vacate (c : Catalog) (name : String) (id : TableId) :
    (c.vacate name).table? id = if c.id? name = some id then none else c.table? id := by
  unfold vacate id? table?
  cases hn : Assoc.find? name c.names with
  | none => simp
  | some old =>
    by_cases he : old = id
    · simp [he]
    · simp only [Option.some.injEq, if_neg he]
      exact Assoc.find?_erase_of_ne (Ne.symm he) c.tables

theorem id?_vacate (c : Catalog) (name other : String) :
    (c.vacate name).id? other = if other = name then none else c.id? other := by
  unfold vacate id?
  cases hn : Assoc.find? name c.names with
  | none =>
    by_cases he : other = name
    · simp [he, hn]
    · simp [he]
  | some old =>
    by_cases he : other = name
    · simp [he]
    · simp only [if_neg he]
      exact Assoc.find?_erase_of_ne he c.names

theorem nodup_names_vacate (h : (Assoc.keys c.names).Nodup) (name : String) :
    (Assoc.keys (c.vacate name).names).Nodup := by
  unfold vacate
  split
  · exact h
  · exact Assoc.nodup_keys_erase name h

theorem nodup_tables_vacate (h : (Assoc.keys c.tables).Nodup) (name : String) :
    (Assoc.keys (c.vacate name).tables).Nodup := by
  unfold vacate
  split
  · exact h
  · exact Assoc.nodup_keys_erase _ h

/-- The names without those of one table. -/
theorem find?_namesWithout (h : (Assoc.keys c.names).Nodup) (id : TableId) (name : String) :
    Assoc.find? name (c.namesWithout id) = if c.id? name = some id then none else c.id? name := by
  have hfilter := Assoc.find?_filter (fun i => decide (i ≠ id)) name h
  unfold namesWithout id?
  rw [hfilter]
  cases Assoc.find? name c.names with
  | none => simp
  | some i => by_cases he : i = id <;> simp [Option.filter, he]

theorem nodup_namesWithout (h : (Assoc.keys c.names).Nodup) (id : TableId) :
    (Assoc.keys (c.namesWithout id)).Nodup :=
  (List.filter_sublist.map Prod.fst).nodup h

/-- **The tables after a registration**: the new one under its id, and not the one that had the
name. -/
theorem table?_add (c : Catalog) (table : TableFile) (name : String) (id : TableId) :
    (c.add table name).table? id = if id = table.id then some table
      else if c.id? name = some id then none else c.table? id := by
  have hvacate := c.table?_vacate name id
  unfold add table? at *
  by_cases he : id = table.id
  · simp [he]
  · simp only [if_neg he]
    rw [Assoc.find?_set_of_ne table he, hvacate]

/-- **The names after a registration**: the new one, and no other one of the same table. -/
theorem id?_add (h : (Assoc.keys c.names).Nodup) (table : TableFile) (name other : String) :
    (c.add table name).id? other = if other = name then some table.id
      else if c.id? other = some table.id then none else c.id? other := by
  have hwithout := find?_namesWithout (nodup_names_vacate h name) table.id other
  by_cases he : other = name
  · simp [add, id?, he]
  · rw [id?_vacate, if_neg he] at hwithout
    rw [if_neg he, ← hwithout]
    exact Assoc.find?_set_of_ne table.id he _

theorem table?_remove (c : Catalog) (id other : TableId) :
    (c.remove id).1.table? other = if other = id then none else c.table? other := by
  unfold remove table?
  by_cases he : other = id
  · simp [he]
  · simp only [if_neg he]
    exact Assoc.find?_erase_of_ne he c.tables

theorem id?_remove (h : (Assoc.keys c.names).Nodup) (id : TableId) (name : String) :
    (c.remove id).1.id? name = if c.id? name = some id then none else c.id? name :=
  find?_namesWithout h id name

end RowStore.Catalog
