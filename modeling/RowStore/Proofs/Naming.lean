import Mathlib.Logic.ExistsUnique
import RowStore.Catalog.Lemmas

/-!
# Names and tables

A catalog keeps two lists, of tables by id and of ids by name, and changes both by hand.  They stay
each other's inverse through every history (`Catalog.Paired`): each name leads to a registered
table, each registered table has exactly one name, and stands under its own id.  So a table's name
is found by looking through the names in any order, and what a registration pushes out is the table
that had the name and the name that the table had, and nothing else.

Main statement: `Catalog.names_tables`.
-/

namespace RowStore

/-- What is done to a catalog. -/
inductive CatalogChange where
  | add (table : TableFile) (name : String)
  | remove (id : TableId)
  | clear

namespace Catalog

variable {c : Catalog} {table : TableFile} {name other : String} {id : TableId}

/-- The catalog after a change. -/
def after (c : Catalog) : CatalogChange → Catalog
  | .add table name => c.add table name
  | .remove id => (c.remove id).1
  | .clear => {}

/-- The catalog that some changes make of an empty one. -/
def made (changes : List CatalogChange) : Catalog := changes.foldl after {}

/-! ## 1. The invariant -/

/-- **Names and tables go in pairs.** -/
structure Paired (c : Catalog) : Prop where
  tables_once : (Assoc.keys c.tables).Nodup
  names_once : (Assoc.keys c.names).Nodup
  id_eq : ∀ {id : TableId} {table : TableFile}, c.table? id = some table → table.id = id
  registered : ∀ {name : String} {id : TableId}, c.id? name = some id →
    ∃ table, c.table? id = some table
  named : ∀ {id : TableId} {table : TableFile}, c.table? id = some table →
    ∃ name, c.id? name = some id
  name_unique : ∀ {name other : String} {id : TableId}, c.id? name = some id →
    c.id? other = some id → name = other

theorem paired_empty : Paired {} where
  tables_once := List.nodup_nil
  names_once := List.nodup_nil
  id_eq h := by cases h
  registered h := by cases h
  named h := by cases h
  name_unique h := by cases h

/-- After a registration a name is the new one, or leads where it led before and not to the new
table. -/
theorem id?_add_eq_some_iff (h : (Assoc.keys c.names).Nodup) :
    (c.add table name).id? other = some id
      ↔ other = name ∧ id = table.id ∨ other ≠ name ∧ id ≠ table.id ∧ c.id? other = some id := by
  rw [id?_add h]
  by_cases hn : other = name
  · simp [hn, eq_comm]
  · by_cases hi : c.id? other = some table.id
    · simp only [hn, hi, if_false, if_true, reduceCtorEq, Option.some.injEq, false_and, false_or,
        ne_eq, not_false_eq_true, true_and, false_iff, not_and]
      exact fun hne he => hne he.symm
    · simp only [hn, hi, if_false, false_and, false_or, ne_eq, not_false_eq_true, true_and]
      exact ⟨fun he => ⟨fun hid => hi (hid ▸ he), he⟩, And.right⟩

/-- After a registration a table is the new one, or was there before and did not have the name. -/
theorem table?_add_eq_some_iff {found : TableFile} :
    (c.add table name).table? id = some found
      ↔ id = table.id ∧ found = table
        ∨ id ≠ table.id ∧ c.id? name ≠ some id ∧ c.table? id = some found := by
  rw [table?_add]
  by_cases hi : id = table.id
  · simp [hi, eq_comm]
  · by_cases hn : c.id? name = some id <;> simp [hi, hn]

/-- **A registration keeps the pairs**, whatever it pushes out. -/
theorem Paired.add (h : c.Paired) (table : TableFile) (name : String) :
    (c.add table name).Paired where
  tables_once := Assoc.nodup_keys_set _ _ (nodup_tables_vacate h.tables_once name)
  names_once := Assoc.nodup_keys_set _ _ (nodup_namesWithout (nodup_names_vacate h.names_once name) _)
  id_eq hfound := by
    rcases table?_add_eq_some_iff.mp hfound with ⟨rfl, rfl⟩ | ⟨-, -, hold⟩
    · rfl
    · exact h.id_eq hold
  registered {other id} hother := by
    rcases (id?_add_eq_some_iff h.names_once).mp hother with ⟨-, rfl⟩ | ⟨hne, hid, hold⟩
    · exact ⟨table, table?_add_eq_some_iff.mpr (Or.inl ⟨rfl, rfl⟩)⟩
    · -- the table of another name had no second name that it could be pushed out by
      obtain ⟨found, hfound⟩ := h.registered hold
      have hkept : c.id? name ≠ some id := fun hn => hne (h.name_unique hold hn)
      exact ⟨found, table?_add_eq_some_iff.mpr (Or.inr ⟨hid, hkept, hfound⟩)⟩
  named {id found} hfound := by
    rcases table?_add_eq_some_iff.mp hfound with ⟨rfl, -⟩ | ⟨hid, hkept, hold⟩
    · exact ⟨name, (id?_add_eq_some_iff h.names_once).mpr (Or.inl ⟨rfl, rfl⟩)⟩
    · obtain ⟨other, hother⟩ := h.named hold
      have hne : other ≠ name := fun he => hkept (he ▸ hother)
      exact ⟨other, (id?_add_eq_some_iff h.names_once).mpr (Or.inr ⟨hne, hid, hother⟩)⟩
  name_unique {first second id} hfirst hsecond := by
    rcases (id?_add_eq_some_iff h.names_once).mp hfirst with ⟨rfl, rfl⟩ | ⟨-, hid, hfirst⟩
    · rcases (id?_add_eq_some_iff h.names_once).mp hsecond with ⟨rfl, -⟩ | ⟨-, hid, -⟩
      · rfl
      · exact absurd rfl hid
    · rcases (id?_add_eq_some_iff h.names_once).mp hsecond with ⟨-, rfl⟩ | ⟨-, -, hsecond⟩
      · exact absurd rfl hid
      · exact h.name_unique hfirst hsecond

theorem id?_remove_eq_some_iff (h : (Assoc.keys c.names).Nodup) {gone : TableId} :
    (c.remove gone).1.id? name = some id ↔ id ≠ gone ∧ c.id? name = some id := by
  rw [id?_remove h]
  by_cases hi : c.id? name = some gone
  · simp only [hi, if_true, reduceCtorEq, Option.some.injEq, false_iff, not_and]
    exact fun hne he => hne he.symm
  · simp only [hi, if_false]
    exact ⟨fun he => ⟨fun hid => hi (hid ▸ he), he⟩, And.right⟩

theorem table?_remove_eq_some_iff {gone : TableId} {found : TableFile} :
    (c.remove gone).1.table? id = some found ↔ id ≠ gone ∧ c.table? id = some found := by
  rw [table?_remove]
  by_cases hi : id = gone <;> simp [hi]

/-- **A table is taken out together with its name.** -/
theorem Paired.remove (h : c.Paired) (gone : TableId) : (c.remove gone).1.Paired where
  tables_once := Assoc.nodup_keys_erase _ h.tables_once
  names_once := nodup_namesWithout h.names_once _
  id_eq hfound := h.id_eq (table?_remove_eq_some_iff.mp hfound).2
  registered hname := by
    obtain ⟨hid, hold⟩ := (id?_remove_eq_some_iff h.names_once).mp hname
    obtain ⟨found, hfound⟩ := h.registered hold
    exact ⟨found, table?_remove_eq_some_iff.mpr ⟨hid, hfound⟩⟩
  named hfound := by
    obtain ⟨hid, hold⟩ := table?_remove_eq_some_iff.mp hfound
    obtain ⟨name, hname⟩ := h.named hold
    exact ⟨name, (id?_remove_eq_some_iff h.names_once).mpr ⟨hid, hname⟩⟩
  name_unique hfirst hsecond :=
    h.name_unique ((id?_remove_eq_some_iff h.names_once).mp hfirst).2
      ((id?_remove_eq_some_iff h.names_once).mp hsecond).2

theorem Paired.after (h : c.Paired) (change : CatalogChange) : (c.after change).Paired := by
  cases change with
  | add table name => exact h.add table name
  | remove id => exact h.remove id
  | clear => exact paired_empty

/-- **Names and tables go in pairs** after any changes. -/
theorem paired_made (changes : List CatalogChange) : (made changes).Paired := by
  have hfold : ∀ (changes : List CatalogChange) {c : Catalog}, c.Paired →
      (changes.foldl Catalog.after c).Paired := by
    intro changes
    induction changes with
    | nil => exact fun h => h
    | cons change changes ih => exact fun h => ih (h.after change)
  exact hfold changes paired_empty

/-! ## 2. Looking for a name -/

/-- **A table's name is the name that leads to it.** -/
theorem Paired.name?_eq_some_iff (h : c.Paired) : c.name? id = some name ↔ c.id? name = some id := by
  unfold name?
  rw [Option.map_eq_some_iff]
  constructor
  · rintro ⟨⟨found, i⟩, hfind, rfl⟩
    have hmem := List.mem_of_find?_eq_some hfind
    have hid : i = id := by simpa using List.find?_some hfind
    exact hid ▸ Assoc.find?_of_mem h.names_once hmem
  · intro hname
    have hmem : (name, id) ∈ c.names := Assoc.mem_of_find? hname
    cases hfind : c.names.find? fun p => p.2 == id with
    | none => exact absurd (List.find?_eq_none.mp hfind _ hmem) (by simp)
    | some pair =>
      obtain ⟨found, i⟩ := pair
      have hid : i = id := by simpa using List.find?_some hfind
      have hfound : c.id? found = some id :=
        hid ▸ Assoc.find?_of_mem h.names_once (List.mem_of_find?_eq_some hfind)
      exact ⟨(found, i), rfl, h.name_unique hfound hname⟩

/-- In which order the names are listed does not matter. -/
theorem Paired.reordered (h : c.Paired) {names : List (String × TableId)}
    (hp : names.Perm c.names) : Paired { c with names := names }
      ∧ ∀ name, id? { c with names := names } name = c.id? name := by
  have hnames : (Assoc.keys names).Nodup := (hp.map Prod.fst).nodup_iff.mpr h.names_once
  have hsame : ∀ name, Assoc.find? name names = c.id? name := fun name => by
    refine Option.ext fun id => ⟨fun hf => ?_, fun hf => ?_⟩
    · exact Assoc.find?_of_mem h.names_once (hp.mem_iff.mp (Assoc.mem_of_find? hf))
    · exact Assoc.find?_of_mem hnames (hp.mem_iff.mpr (Assoc.mem_of_find? hf))
  refine ⟨?_, hsame⟩
  exact {
    tables_once := h.tables_once
    names_once := hnames
    id_eq := h.id_eq
    registered := fun hf => h.registered ((hsame _).symm.trans hf)
    named := fun hf => (h.named hf).imp fun name hn => (hsame name).trans hn
    name_unique := fun hf hs => h.name_unique ((hsame _).symm.trans hf) ((hsame _).symm.trans hs) }

/-- **The name of a table is the same in whatever order the names are looked through.** -/
theorem Paired.name?_reordered (h : c.Paired) {names : List (String × TableId)}
    (hp : names.Perm c.names) (id : TableId) :
    name? { c with names := names } id = c.name? id := by
  obtain ⟨hpaired, hsame⟩ := h.reordered hp
  refine Option.ext fun name => ?_
  rw [hpaired.name?_eq_some_iff, h.name?_eq_some_iff, hsame]

/-- A table that is found by a name is registered under its id, and has this name. -/
theorem Paired.named?_eq_some_iff (h : c.Paired) :
    c.named? name = some table ↔ c.table? table.id = some table ∧ c.name? table.id = some name := by
  rw [named?, Option.bind_eq_some_iff, h.name?_eq_some_iff]
  constructor
  · rintro ⟨id, hname, hfound⟩
    obtain rfl := h.id_eq hfound
    exact ⟨hfound, hname⟩
  · rintro ⟨hfound, hname⟩
    exact ⟨table.id, hname, hfound⟩

/-! ## 3. After any changes -/

/-- **Names and tables are inverse to each other** in every catalog that registrations and removals
make:

* a name leads to a registered table;
* a registered table stands under its own id and has exactly one name, and this is the name that is
  found for it, in whatever order the names are looked through;
* finding a table by its name goes both ways round;
* a registration pushes out the table that had the name, if it is another, and the name that the
  table had, and changes nothing else. -/
theorem names_tables (changes : List CatalogChange) :
    (∀ name id, (made changes).id? name = some id → ∃ table, (made changes).table? id = some table)
    ∧ (∀ id table, (made changes).table? id = some table →
        table.id = id ∧ ∃! name, (made changes).id? name = some id)
    ∧ (∀ id name, (made changes).name? id = some name ↔ (made changes).id? name = some id)
    ∧ (∀ names : List (String × TableId), names.Perm (made changes).names → ∀ id,
        name? { made changes with names := names } id = (made changes).name? id)
    ∧ (∀ name table, (made changes).named? name = some table ↔
        (made changes).table? table.id = some table ∧ (made changes).name? table.id = some name)
    ∧ ∀ table name,
        (∀ id, ((made changes).add table name).table? id = if id = table.id then some table
          else if (made changes).id? name = some id then none else (made changes).table? id)
        ∧ ∀ other, ((made changes).add table name).id? other = if other = name then some table.id
          else if (made changes).id? other = some table.id then none
          else (made changes).id? other := by
  have h := paired_made changes
  refine ⟨fun name id => h.registered, fun id table ht => ⟨h.id_eq ht, ?_⟩,
    fun id name => h.name?_eq_some_iff, fun names hp id => h.name?_reordered hp id,
    fun name table => h.named?_eq_some_iff,
    fun table name => ⟨table?_add _ table name, id?_add h.names_once table name⟩⟩
  obtain ⟨name, hname⟩ := h.named ht
  exact ⟨name, hname, fun other hother => h.name_unique hother hname⟩

/-- A table that is registered under another's name pushes out this table and its own old name, so
that one table and one name are left of two. -/
example :
    let a : TableFile := ⟨.file ⟨["a"]⟩, ⟨["a"]⟩, ⟨[]⟩, 8, 0⟩
    let b : TableFile := ⟨.file ⟨["b"]⟩, ⟨["b"]⟩, ⟨[]⟩, 8, 1⟩
    made [.add a "a", .add b "b", .add a "b"]
      = { tables := [(a.id, a)], names := [("b", a.id)] } := by decide

end Catalog

end RowStore
