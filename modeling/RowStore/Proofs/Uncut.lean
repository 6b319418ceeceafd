import Mathlib.Data.List.Basic
import RowStore.Proofs.Atomicity

/-!
# Rows that are cut already

A row stands on a page as its caller had it, and is cut to its columns only when the page is written
and read again.  Where no row is inserted with a value that is longer than its column, and all
tables were created on empty files, the two are the same: every row of every cached page is as it is
stored (`Engine.Snug`), at every moment of a run (`Run.snug`), and so is every row that a scan lists
(`Snug.scan`).
-/

namespace RowStore

/-! ## 1. Pages -/

/-- **Every row of the page is as it is stored.** -/
def Page.Cut (p : Page) : Prop :=
  ∀ slot row, p.row? slot = some row → row.asStored p.schema = row

namespace Page

variable {p q : Page} {row : Row} {rid : RecordId}

theorem cut_of_asStored_eq (h : p.asStored = p) : p.Cut := by
  intro slot row hr
  have hrow := p.row?_asStored slot
  rw [h, hr] at hrow
  exact (Option.some.inj hrow).symm

theorem Cut.rows (h : p.Cut) : p.rows.map (Row.asStored p.schema) = p.rows := by
  refine (List.map_congr_left fun row hm => ?_).trans (List.map_id _)
  obtain ⟨slot, hr⟩ := (mem_rows_iff row).mp hm
  exact h slot row hr

/-- A row of the page after a row was put somewhere was there before or is the new one. -/
theorem row?_of_set {bitmap : List Bool} {slot other : Nat} {placed : Option Row}
    (h : Page.row? { p with bitmap := bitmap, slots := p.slots.set slot placed } other = some row) :
    placed = some row ∨ p.row? other = some row := by
  simp only [row?, List.getElem?_set] at h
  split at h
  · split at h
    · exact Or.inl (by simpa using h)
    · simp at h
  · exact Or.inr h

theorem Cut.insert (h : p.Cut) (hrow : row.asStored p.schema = row)
    (hi : p.insert row = .ok (q, rid)) : q.Cut := by
  obtain ⟨slot, -, -, rfl, rfl⟩ := insert_eq_ok_iff.mp hi
  intro other found hf
  rcases row?_of_set hf with hnew | hold
  · cases hnew
    rw [Row.asStored, Row.mk.injEq]
    exact ⟨congrArg Row.values hrow, rfl⟩
  · exact h other found hold

theorem Cut.delete (h : p.Cut) (hd : p.delete row = .ok q) : q.Cut := by
  obtain ⟨rid, -, -, -, rfl⟩ := delete_eq_ok_iff.mp hd
  intro other found hf
  rcases row?_of_set hf with hnew | hold
  · cases hnew
  · exact h other found hold

end Page

/-! ## 2. Stores -/

/-- The row a client inserts has no value that is longer than its column. -/
def Call.Uncut (catalog : Catalog) : Call → Prop
  | insert _ id row => ∀ table, catalog.table? id = some table → row.asStored table.schema = row
  | _ => True

namespace Engine

variable {e e' start : Engine} {tx : Tx} {id : TableId} {pid : PageId} {page : Page}
  {table : TableFile} {row stored : Row} {log events : List Event}

/-- **Every row of a cached page is as it is stored.** -/
def Snug (e : Engine) : Prop :=
  ∀ pid frame, e.cache.find? pid = some frame → frame.page.Cut

theorem Tidy.cut_of_readPage (ht : Tidy e) (h : e.readPage pid = .ok page) : page.Cut := by
  obtain ⟨table, htable, hr⟩ := readPage_eq_ok_iff.mp h
  refine Page.cut_of_asStored_eq (ht pid page ?_)
  unfold storedPage
  rw [htable]
  exact hr.pageAt.1

theorem Snug.recached (hn : Snug e) (ht : Tidy e) (h : Recached e e') : Snug e' := by
  intro pid frame hf
  rcases h.find? hf with hold | hread
  · exact hn pid frame hold
  · exact ht.cut_of_readPage hread

theorem Fetches.snug (h : Fetches tx e e') (hp : e.cache.Proper) (ht : Tidy e) (hn : Snug e) :
    Snug e' := by
  induction h with
  | refl => exact hn
  | tail hf hs ih =>
    exact ih.recached (Fetches.tidy hf ht) (hs.recached (Fetches.proper hf hp))

theorem Explored.snug (h : Explored tx id e e') (ha : Accounted e log) (hn : Snug e) :
    Snug e' := by
  cases h with
  | within hf => exact hf.snug ha.sound.proper ha.tidy hn
  | @beyond table e₁ _ disk r ht hf hfull hmade hf' =>
    have hmid : Explored tx id e { e₁ with disk := disk } := .beyond ht hf hfull hmade .refl
    have hn₁ : Snug { e₁ with disk := disk } := hf.snug ha.sound.proper ha.tidy hn
    exact hf'.snug (hf.proper ha.sound.proper) (hmid.tidy ha.sound ha.healthy ha.tidy) hn₁

theorem Snug.changePage {frame : Frame} (hn : Snug e) (hc : page.Cut) :
    Snug (e.changePage tx pid frame page) := by
  intro p found hf
  rw [find?_changePage] at hf
  split at hf
  · cases hf
    exact hc
  · exact hn p found hf

theorem Settles.snug (h : Settles e e') (hs : Sound e) (ht : Tidy e) (hn : Snug e) : Snug e' := by
  induction h with
  | refl => exact hn
  | tail hsettles hstep ih =>
    have ht₁ := Settles.tidy hsettles hs ht
    cases hstep with
    | write hf _ _ =>
      intro p found hfound
      rw [find?_write hf] at hfound
      split at hfound
      · cases hfound
        exact fun slot row => ih _ _ hf slot row
      · exact ih p found hfound
    | revert hr _ => exact ih.recached ht₁ (revertPage_recached hr)
    | halt hh =>
      intro p found hfound
      obtain ⟨old, hold, he⟩ := hh.find? hfound
      exact he ▸ ih p old hold

/-- **An insert leaves all rows cut** if the row that is inserted is. -/
theorem Snug.insert {r : Except Failure (List PageId)} (hn : Snug e) (ha : Accounted e log)
    (hu : (Call.insert tx id row).Uncut e.catalog) (h : e.insert tx id row = (e', stored, r)) :
    Snug e' := by
  rcases insert_cases ha.sound.proper h with ⟨hx, -⟩
    | ⟨table, pid, e₁, frame, page, rid, ht, -, hroom, hh, hins, rfl, -⟩
  · exact hx.snug ha hn
  · have hx := hroom.explored ht
    obtain ⟨hs₁, hrows⟩ := hx.sound ha.sound
    have hn₁ := hx.snug ha hn
    obtain ⟨table', ht', hshown⟩ := hs₁.shown hh.cached
    have hschema : frame.page.schema = table.schema := by
      rw [hrows.catalog_eq, hroom.own, (ha.sound.tables ht).1, ht] at ht'
      cases ht'
      exact hshown.shape.schema_eq
    exact hn₁.changePage ((hn₁ _ _ hh.cached).insert (hschema ▸ hu table ht) hins)

theorem Snug.delete {r : Except Failure (List PageId)} (hn : Snug e) (ha : Accounted e log)
    (h : e.delete tx row = (e', r)) : Snug e' := by
  rcases delete_cases ha.sound.proper h with ⟨hf, -⟩ | ⟨rid, e₁, frame, page, -, hf, hh, hdel, rfl, -⟩
  · exact hf.snug ha.sound.proper ha.tidy hn
  · have hn₁ := hf.snug ha.sound.proper ha.tidy hn
    exact hn₁.changePage ((hn₁ _ _ hh.cached).delete hdel)

theorem Snug.complete {commit : Bool} {r : Except Failure Unit} (hn : Snug e) (ha : Accounted e log)
    (h : e.complete tx commit = (e', r)) : Snug e' := by
  obtain ⟨e₁, hs, ⟨-, -, rfl⟩ | ⟨-, rfl⟩⟩ := complete_cases ha.sound.proper h
  · exact hs.snug ha.sound ha.tidy hn
  · exact hs.snug ha.sound ha.tidy hn

/-- **A scan lists rows that are cut.** -/
theorem Snug.scan {rows : List Row} (hn : Snug e) (ha : Accounted e log)
    (ht : e.catalog.table? table.id = some table) (h : e.scan tx table = (e', rows, .ok ())) :
    rows.map (Row.asStored table.schema) = rows := by
  obtain ⟨pages, -, rfl, hvis⟩ := (scan_cases h).2 rfl
  rw [List.map_flatMap]
  refine List.flatMap_congr fun page hm => ?_
  obtain ⟨j, hj⟩ := List.mem_iff_getElem?.mp hm
  obtain ⟨e₁, frame, hb, -, hcached, rfl⟩ := hvis j page hj
  have hshown := (hvis j _ hj).shown ha.sound ht
  rw [← hshown.shape.schema_eq]
  exact (hb.snug ha.sound.proper ha.tidy hn _ _ hcached).rows

/-! ## 3. Runs -/

theorem Snug.call {c : Call} (hn : Snug e) (ha : Accounted e log) (hc : c.Transactional e)
    (hu : c.Uncut e.catalog) (h : e.call c = (e', events)) : Snug e' := by
  cases c with
  | fetch tx access pid =>
    cases h
    exact (fetch_fetches rfl).snug ha.sound.proper ha.tidy hn
  | insert tx id row =>
    cases h
    exact hn.insert ha hu rfl
  | delete tx row =>
    cases h
    exact hn.delete ha rfl
  | scan tx table =>
    cases h
    exact (scan_cases rfl).1.snug ha.sound.proper ha.tidy hn
  | complete tx commit =>
    cases h
    exact hn.complete ha rfl
  | createTable file name schema =>
    rcases ht : e.createTable file name schema with ⟨d, r⟩
    simp only [Engine.call, ht] at h
    cases h
    intro pid frame hf
    rw [(createTable_cases hc.1 ht).cache_eq] at hf
    exact hn pid frame hf
  | _ => cases hc

end Engine

open Engine

/-- **Where no row is inserted with a value that is longer than its column**, no cached page ever
has one. -/
theorem Run.snug {start e : Engine} {before log : List Event} (ha : Accounted start before)
    (hn : Snug start)
    (h : Run (fun e c => c.Transactional e ∧ c.Uncut e.catalog) start e log) :
    Accounted e (before ++ log) ∧ Snug e := by
  induction h with
  | nil => exact ⟨(List.append_nil before).symm ▸ ha, hn⟩
  | call c _ hc he ih =>
    rw [← List.append_assoc]
    exact ⟨ih.1.call hc.1 he, ih.2.call ih.1 hc.1 hc.2 he⟩

/-! ## 4. A store of texts -/

namespace Sample

/-- One column of texts of two bytes. -/
def words : Schema := ⟨[⟨"s", .bytes 2⟩]⟩

/-- A new store whose pages have room for one such row, two pages in its cache. -/
def tiny : Engine := { config := { pageSize := 4, pages := 2 } }

/-- The table in the file `t`. -/
def wordTable : TableFile := ⟨table.id, table.path, words, 4, 0⟩

/-- The store after the table was created. -/
def wordsOpened : Engine :=
  { tiny with
    disk := { files := [(wordTable.path, .ofList [])], opened := 1 }
    catalog := { tables := [(wordTable.id, wordTable)], names := [("t", wordTable.id)] } }

theorem createTable_tiny : tiny.createTable "t" "t" words = (wordsOpened, .ok wordTable) :=
  createTable_t rfl (by decide) openFile_t rfl

theorem registersOnce_tiny : tiny.RegistersOnce "t" "t" words :=
  registersOnce_of_createTable createTable_tiny rfl rfl

theorem opensEmpty_tiny : tiny.OpensEmpty "t" "t" words :=
  opensEmpty_of_createTable createTable_tiny rfl

theorem table?_wordsOpened : wordsOpened.catalog.table? wordTable.id = some wordTable := by
  decide +kernel

end Sample

end RowStore
