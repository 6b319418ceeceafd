import RowStore.Proofs.History
import RowStore.Proofs.PagesOnDisk

/-!
# The rows of a store

A store's rows stand in two places: what is on disk (`Engine.stored`), and what a transaction gets
to see, which is the cached page where there is one and the page on disk where there is none
(`Engine.content`).  Both map a record id to the values there, cut to their columns.

The invariant `Sound` says that the two differ on changed pages only.  With it every step has an
effect on the two maps that does not depend on what is cached:

* a request changes neither, and an empty page behind the last one does not either;
* a change of a row changes the content at one record id;
* writing a page takes the content of that page over to the disk, and dropping a page takes it
  back from the disk.
-/

namespace RowStore

/-! ## 1. The rows of a page -/

namespace Page

variable {p q : Page} {rid : RecordId} {values : Option (List Value)}

/-- What is kept of the row in a slot. -/
def cells (p : Page) (slot : Nat) : Option (List Value) :=
  (p.row? slot).map fun row => Row.cutValues row.values p.schema.columns

@[simp] theorem cells_asStored (p : Page) (slot : Nat) : p.asStored.cells slot = p.cells slot := by
  unfold cells
  rw [row?_asStored, Option.map_map]
  congr 1
  funext row
  simp

theorem WellFormed.isUsed_iff_cells (h : p.WellFormed) (slot : Nat) :
    p.isUsed slot ↔ p.cells slot ≠ none := by
  rw [h.isUsed_iff_ne_none, cells, ne_eq, ne_eq, Option.map_eq_none_iff]

theorem row?_set (p : Page) (bitmap : List Bool) {slot : Nat} (row? : Option Row)
    (h : slot < p.slots.length) (other : Nat) :
    Page.row? { p with bitmap := bitmap, slots := p.slots.set slot row? } other
      = if other = slot then row? else p.row? other := by
  simp only [Page.row?, List.getElem?_set]
  by_cases he : slot = other
  · subst he
    simp [h]
  · rw [if_neg he, if_neg (Ne.symm he)]

/-- **A change leaves one slot different.** -/
theorem Changed.cells (h : p.Changed q rid values) (hw : p.WellFormed) : q.WellFormed
    ∧ ∀ slot, q.cells slot = if slot = rid.slot
        then values.map fun vs => Row.cutValues vs p.schema.columns else p.cells slot := by
  cases h with
  | @inserted row _ _ hi =>
    refine ⟨hw.insert hi, ?_⟩
    intro slot
    obtain ⟨free, _, hfree, rfl, rfl⟩ := insert_eq_ok_iff.mp hi
    have hlt : free < p.slots.length := hw.length_slots ▸ (hw.firstFree?_eq_some_iff.mp hfree).1
    unfold Page.cells
    rw [row?_set p _ _ hlt]
    split <;> rfl
  | deleted hr hd =>
    refine ⟨hw.delete hd, ?_⟩
    intro slot
    obtain ⟨rid', hr', _, hused, rfl⟩ := delete_eq_ok_iff.mp hd
    obtain rfl : rid = rid' := Option.some.inj (hr.symm.trans hr')
    have hlt : rid.slot < p.slots.length := hw.length_slots ▸ hw.isUsed_lt hused
    unfold Page.cells
    rw [row?_set p _ _ hlt]
    split <;> rfl

end Page

namespace Engine

variable {e e' : Engine} {tx : Tx} {pid : PageId} {frame : Frame} {page : Page} {rid : RecordId}
  {table : TableFile} {id : TableId}

/-! ## 2. What is stored and what is seen -/

/-- The page on disk, as the registered table has it. -/
def storedPage (e : Engine) (pid : PageId) : Option Page :=
  (e.catalog.table? pid.table).bind fun table => table.pageAt e.disk pid

/-- **The page through the cache**: the cached one, else the one on disk. -/
def seenPage (e : Engine) (pid : PageId) : Option Page :=
  match e.cache.find? pid with
  | some frame => some frame.page
  | none => e.storedPage pid

/-- The values that stand on disk at a record id. -/
def stored (e : Engine) (rid : RecordId) : Option (List Value) :=
  (e.storedPage rid.page).bind fun page => page.cells rid.slot

/-- **The content of the store**: the values that are seen at a record id. -/
def content (e : Engine) (rid : RecordId) : Option (List Value) :=
  (e.seenPage rid.page).bind fun page => page.cells rid.slot

theorem content_of_cached (hf : e.cache.find? rid.page = some frame) :
    e.content rid = frame.page.cells rid.slot := by
  unfold content seenPage
  rw [hf]
  rfl

theorem content_of_not_cached (hn : e.cache.find? rid.page = none) :
    e.content rid = e.stored rid := by
  unfold content seenPage
  rw [hn]
  rfl

/-- What is stored depends on the tables and on the bytes of their files. -/
theorem storedPage_congr (hc : e'.catalog = e.catalog)
    (hd : ∀ path, e'.disk.content path = e.disk.content path) (pid : PageId) :
    e'.storedPage pid = e.storedPage pid := by
  unfold storedPage
  rw [hc]
  cases e.catalog.table? pid.table with
  | none => rfl
  | some table => exact TableFile.pageAt_congr (hd table.path) pid

theorem stored_congr (h : e'.storedPage rid.page = e.storedPage rid.page) :
    e'.stored rid = e.stored rid := by
  unfold stored
  rw [h]

/-- The content depends on the page that is cached and on what is stored. -/
theorem content_congr (hf : (e'.cache.find? rid.page).map Frame.page
      = (e.cache.find? rid.page).map Frame.page) (hs : e'.stored rid = e.stored rid) :
    e'.content rid = e.content rid := by
  cases h : e.cache.find? rid.page with
  | none =>
    rw [h, Option.map_none, Option.map_eq_none_iff] at hf
    rw [content_of_not_cached h, content_of_not_cached hf, hs]
  | some frame =>
    rw [h, Option.map_some, Option.map_eq_some_iff] at hf
    obtain ⟨frame', hf', he⟩ := hf
    rw [content_of_cached h, content_of_cached hf', he]

/-! ## 3. The invariant -/

/-- The page is one of a registered table, among those that the table counts, and not the last that
32 bits can name. -/
def Lodges (e : Engine) (pid : PageId) (page : Page) : Prop :=
  ∃ table, e.catalog.table? pid.table = some table ∧ table.Shapes page
    ∧ pid.index.toNat < table.pageCount e.disk ∧ pid.index.toNat + 1 < UInt32.size

/-- **The cache and the disk tell the same of every page without a mark.** -/
structure Sound (e : Engine) : Prop where
  /-- Tables are registered under their own ids and can hold rows. -/
  tables : ∀ {id : TableId} {table : TableFile}, e.catalog.table? id = some table →
    table.id = id ∧ table.Roomy
  /-- Their ids are those of their files. -/
  idOf : ∀ {id : TableId} {table : TableFile}, e.catalog.table? id = some table →
    e.config.idOf table.path = id
  proper : e.cache.Proper
  lodged : ∀ {pid : PageId} {frame : Frame}, e.cache.find? pid = some frame →
    e.Lodges pid frame.page
  clean : ∀ {pid : PageId} {frame : Frame}, e.cache.find? pid = some frame →
    frame.page.dirty = none → ∀ slot, frame.page.cells slot = e.stored ⟨pid, slot⟩

/-- **Content and disk differ on changed pages only.** -/
theorem Sound.content_eq_stored (hs : Sound e)
    (hclean : ∀ frame, e.cache.find? rid.page = some frame → frame.page.dirty = none) :
    e.content rid = e.stored rid := by
  cases hf : e.cache.find? rid.page with
  | none => exact content_of_not_cached hf
  | some frame => rw [content_of_cached hf, hs.clean hf (hclean frame hf)]

theorem stored_of_readPage (h : e.readPage pid = .ok page) (slot : Nat) :
    page.cells slot = e.stored ⟨pid, slot⟩ := by
  obtain ⟨table, ht, hr⟩ := readPage_eq_ok_iff.mp h
  unfold stored storedPage
  simp only [ht, Option.bind_some, hr.pageAt.1]

theorem lodges_of_readPage (h : e.readPage pid = .ok page) : e.Lodges pid page := by
  obtain ⟨table, ht, hr⟩ := readPage_eq_ok_iff.mp h
  obtain ⟨hat, hindex⟩ := hr.pageAt
  obtain ⟨⟨_, hlt⟩, _⟩ := TableFile.pageAt_eq_some_iff.mp hat
  exact ⟨table, ht, (TableFile.shapes_of_pageAt hat).1, hlt, hindex⟩

/-! ## 4. Steps that only move pages in and out -/

/-- **The same disk, and a cache of pages that were cached before or were just read.** -/
structure Recached (e e' : Engine) : Prop where
  config_eq : e'.config = e.config
  catalog_eq : e'.catalog = e.catalog
  disk_eq : e'.disk = e.disk
  proper : e.cache.Proper → e'.cache.Proper
  find? : ∀ {pid : PageId} {frame : Frame}, e'.cache.find? pid = some frame →
    e.cache.find? pid = some frame ∨ e.readPage pid = .ok frame.page

namespace Recached

theorem stored (h : Recached e e') (rid : RecordId) : e'.stored rid = e.stored rid :=
  stored_congr (storedPage_congr h.catalog_eq (fun _ => by rw [h.disk_eq]) rid.page)

theorem sound (h : Recached e e') (hs : Sound e) : Sound e' where
  tables ht := hs.tables (h.catalog_eq ▸ ht)
  idOf ht := h.config_eq ▸ hs.idOf (h.catalog_eq ▸ ht)
  proper := h.proper hs.proper
  lodged {pid frame} hf := by
    unfold Lodges
    rw [h.catalog_eq, h.disk_eq]
    rcases h.find? hf with hold | hread
    · exact hs.lodged hold
    · exact lodges_of_readPage hread
  clean hf hd slot := by
    rw [h.stored]
    rcases h.find? hf with hold | hread
    · exact hs.clean hold hd slot
    · exact stored_of_readPage hread slot

/-- Where no changed page has left, the content is the same. -/
theorem content (h : Recached e e') (hs : Sound e)
    (hkept : ∀ frame, e.cache.find? rid.page = some frame → frame.page.dirty ≠ none →
      e'.cache.find? rid.page = some frame) : e'.content rid = e.content rid := by
  by_cases hd : ∃ frame, e.cache.find? rid.page = some frame ∧ frame.page.dirty ≠ none
  · obtain ⟨frame, hf, hne⟩ := hd
    rw [content_of_cached hf, content_of_cached (hkept frame hf hne)]
  · have hclean : ∀ frame, e.cache.find? rid.page = some frame → frame.page.dirty = none :=
      fun frame hf => Classical.byContradiction fun hne => hd ⟨frame, hf, hne⟩
    rw [hs.content_eq_stored hclean, ← h.stored]
    refine (h.sound hs).content_eq_stored fun frame hf => ?_
    rcases h.find? hf with hold | hread
    · exact hclean frame hold
    · exact (readPage_eq_ok hread).2

/-- Where the changed page has left, the content is what is stored. -/
theorem content_of_left (h : Recached e e') (hs : Sound e)
    (hleft : ∀ frame, e'.cache.find? rid.page = some frame → frame.page.dirty = none) :
    e'.content rid = e.stored rid := by
  rw [(h.sound hs).content_eq_stored hleft, h.stored]

end Recached

/-- **Two states with the same tables and the same rows**, on disk and as they are seen. -/
structure SameRows (e e' : Engine) : Prop where
  catalog_eq : e'.catalog = e.catalog
  stored_eq : ∀ rid, e'.stored rid = e.stored rid
  content_eq : ∀ rid, e'.content rid = e.content rid

theorem SameRows.refl (e : Engine) : SameRows e e := ⟨rfl, fun _ => rfl, fun _ => rfl⟩

theorem SameRows.trans {e₁ : Engine} (h : SameRows e e₁) (h' : SameRows e₁ e') : SameRows e e' :=
  ⟨h'.catalog_eq.trans h.catalog_eq, fun rid => (h'.stored_eq rid).trans (h.stored_eq rid),
    fun rid => (h'.content_eq rid).trans (h.content_eq rid)⟩

theorem FetchStep.recached (h : FetchStep tx e e') (hp : e.cache.Proper) : Recached e e' := by
  refine ⟨h.config_eq, h.catalog_eq, h.disk_eq, h.proper, fun {p found} hf => ?_⟩
  cases h with
  | lock _ _ _ => exact Or.inl hf
  | @load loaded page cache hn hr hm =>
    simp only [Cache.find?_load] at hf
    split at hf
    · rename_i he
      cases hf
      exact Or.inr (he ▸ hr)
    · rcases makeRoom_eq_ok hp hm with rfl | ⟨victim, old, _, _, rfl⟩
      · exact Or.inl hf
      · rw [Cache.find?_remove] at hf
        split at hf
        · cases hf
        · exact Or.inl hf
  | spoil _ _ => exact Or.inl hf

/-- **Requests change no row.** -/
theorem Fetches.sound (h : Fetches tx e e') (hs : Sound e) : Sound e' ∧ SameRows e e' := by
  induction h with
  | refl => exact ⟨hs, .refl e⟩
  | tail _ hstep ih =>
    obtain ⟨hs', hsame⟩ := ih
    have hr := hstep.recached hs'.proper
    exact ⟨hr.sound hs', hsame.trans ⟨hr.catalog_eq, hr.stored, fun rid =>
      hr.content hs' fun frame hf hd => hstep.find?_dirty hs'.proper hf hd⟩⟩

end Engine

end RowStore
