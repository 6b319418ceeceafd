import RowStore.Catalog.Lemmas
import RowStore.Proofs.Content

/-!
# What each step does to the rows

Every step of a store keeps the invariant `Sound`, and its effect on what is seen and what is
stored is one equation for each of the two maps, whatever is cached:

* exploring changes neither (`Explored.sound`), though it may leave an empty page behind;
* a change sets the content at one record id (`Sound.changePage`);
* what is flushed is stored as it was seen (`flushEach_rows`), and what is reverted is seen as it
  was stored (`revertEach_rows`);
* a new table keeps the rows of all others (`createTable_cases`).
-/

namespace RowStore.Engine

variable {e e' : Engine} {tx : Tx} {pid : PageId} {frame : Frame} {page : Page} {rid : RecordId}
  {table : TableFile} {id : TableId} {disk : Disk}

/-! ## 1. Changing one file -/

/-- Two tables under different ids are in different files. -/
theorem Sound.path_ne {other : TableFile} {otherId : TableId} (hs : Sound e)
    (ht : e.catalog.table? id = some table) (ho : e.catalog.table? otherId = some other)
    (hne : otherId ≠ id) : other.path ≠ table.path := by
  intro hp
  apply hne
  rw [← hs.idOf ht, ← hs.idOf ho, hp]

/-- **No file but one table's has other bytes.** -/
structure Rewrites (table : TableFile) (d d' : Disk) : Prop where
  content_of_ne : ∀ path, path ≠ table.path → d'.content path = d.content path
  pageCount_le : table.pageCount d ≤ table.pageCount d'

theorem storedPage_of_ne (hs : Sound e) (ht : e.catalog.table? id = some table)
    (hd : Rewrites table e.disk disk) (hne : pid.table ≠ id) :
    storedPage { e with disk := disk } pid = e.storedPage pid := by
  unfold storedPage
  simp only
  cases ho : e.catalog.table? pid.table with
  | none => rfl
  | some other => exact TableFile.pageAt_congr (hd.content_of_ne _ (hs.path_ne ht ho hne)) pid

theorem Lodges.rewrites (h : e.Lodges pid page) (hs : Sound e)
    (ht : e.catalog.table? id = some table) (hd : Rewrites table e.disk disk) :
    Lodges { e with disk := disk } pid page := by
  obtain ⟨other, ho, hshape, hlt, hmax⟩ := h
  refine ⟨other, ho, hshape, ?_, hmax⟩
  by_cases hid : pid.table = id
  · rw [hid, ht] at ho
    cases ho
    exact Nat.lt_of_lt_of_le hlt hd.pageCount_le
  · simp only
    rwa [TableFile.pageCount_congr (hd.content_of_ne _ (hs.path_ne ht ho hid))]

theorem content_of_files {d d' : Disk} (h : d'.files = d.files) (path : Path) :
    d'.content path = d.content path := by
  unfold Disk.content Disk.file
  rw [h]

/-- **A change of files that are no registered table's** changes no row. -/
theorem Sound.elsewhere (hs : Sound e)
    (h : ∀ {id : TableId} {table : TableFile}, e.catalog.table? id = some table →
      disk.content table.path = e.disk.content table.path) :
    Sound { e with disk := disk } ∧ SameRows e { e with disk := disk } := by
  have hstored : ∀ r, stored { e with disk := disk } r = e.stored r := by
    intro r
    refine stored_congr ?_
    unfold storedPage
    simp only
    cases ht : e.catalog.table? r.page.table with
    | none => rfl
    | some table => exact TableFile.pageAt_congr (h ht) r.page
  refine ⟨⟨hs.tables, hs.idOf, hs.proper, fun hf => ?_,
    fun hf hc slot => (hs.clean hf hc slot).trans (hstored _).symm⟩, rfl, hstored,
    fun r => content_congr rfl (hstored r)⟩
  obtain ⟨table, ht, hshape, hlt, hmax⟩ := hs.lodged hf
  exact ⟨table, ht, hshape, (TableFile.pageCount_congr (h ht)).symm ▸ hlt, hmax⟩

/-- **What is spoiled says nothing of the rows.** -/
theorem Halted.sound (h : Halted e e') (hs : Sound e) : Sound e' ∧ SameRows e e' := by
  have hcontent := content_of_files h.files_eq
  have hstored : ∀ r, e'.stored r = e.stored r := fun r =>
    stored_congr (storedPage_congr h.catalog_eq hcontent r.page)
  refine ⟨⟨fun ht => hs.tables (h.catalog_eq ▸ ht),
    fun ht => h.config_eq ▸ hs.idOf (h.catalog_eq ▸ ht), h.proper hs.proper, fun hf => ?_,
    fun hf hd slot => ?_⟩, h.catalog_eq, hstored, fun r => ?_⟩
  · obtain ⟨old, hold, he⟩ := h.find? hf
    obtain ⟨table, ht, hshape, hlt, hmax⟩ := hs.lodged hold
    exact ⟨table, h.catalog_eq ▸ ht, he ▸ hshape,
      (TableFile.pageCount_congr (hcontent table.path)).symm ▸ hlt, hmax⟩
  · obtain ⟨old, hold, he⟩ := h.find? hf
    rw [hstored, ← he]
    exact hs.clean hold (he ▸ hd) slot
  · exact content_congr (h.page_eq r.page) (hstored r)

/-! ## 2. Exploring -/

/-- What stands on disk after an empty page was written behind the last one. -/
theorem storedPage_append (hs : Sound e) (ht : e.catalog.table? id = some table)
    (ha : table.Appends e.disk disk) (p : PageId) :
    storedPage { e with disk := disk } p = e.storedPage p
      ∨ e.storedPage p = none ∧ ∃ blank, storedPage { e with disk := disk } p = some blank
        ∧ blank.dirty = none ∧ ∀ slot, blank.row? slot = none := by
  obtain ⟨rfl, hroomy⟩ := hs.tables ht
  by_cases hp : p.table = table.id
  · unfold storedPage
    simp only [hp, ht, Option.bind_some]
    by_cases hnew : p = table.pageId (table.pageCount e.disk)
    · obtain ⟨blank, hblank, hrow⟩ := ha.pageAt_new hroomy
      rw [hnew]
      exact Or.inr ⟨TableFile.pageAt_of_le (Nat.le_of_eq (table.index_pageId ha.count_lt).symm),
        blank, hblank, (TableFile.shapes_of_pageAt hblank).2.2, hrow⟩
    · exact Or.inl (ha.pageAt_of_ne hroomy hnew)
  · exact Or.inl (storedPage_of_ne hs ht ⟨fun _ hne => ha.content_of_ne hne,
      ha.pageCount_eq hroomy ▸ Nat.le_succ _⟩ hp)

/-- **An empty page behind the last one changes no row.** -/
theorem Sound.append (hs : Sound e) (ht : e.catalog.table? id = some table)
    (ha : table.Appends e.disk disk) :
    Sound { e with disk := disk } ∧ SameRows e { e with disk := disk } := by
  have hd : Rewrites table e.disk disk :=
    ⟨fun _ hne => ha.content_of_ne hne, ha.pageCount_eq (hs.tables ht).2 ▸ Nat.le_succ _⟩
  have hstored : ∀ r, stored { e with disk := disk } r = e.stored r := by
    intro r
    rcases storedPage_append hs ht ha r.page with hsame | ⟨hnone, blank, hblank, -, hrow⟩
    · exact stored_congr hsame
    · unfold stored
      rw [hnone, hblank]
      simp [Page.cells, hrow]
  have hs' : Sound { e with disk := disk } :=
    ⟨hs.tables, hs.idOf, hs.proper, fun hf => (hs.lodged hf).rewrites hs ht hd,
      fun hf hc slot => (hs.clean hf hc slot).trans (hstored _).symm⟩
  exact ⟨hs', rfl, hstored, fun r => content_congr rfl (hstored r)⟩

/-- **A page that was looked at on the way** is one of its table, and shows the content. -/
theorem Visited.shows (h : Visited tx e e' pid page) (hs : Sound e) :
    e.Lodges pid page ∧ page.pid = pid ∧ ∀ slot, page.cells slot = e.content ⟨pid, slot⟩ := by
  obtain ⟨e₁, frame, hb, -, hf, rfl⟩ := h
  obtain ⟨hs₁, hsame⟩ := hb.sound hs
  refine ⟨?_, hs₁.proper.keyed hf, fun slot => ?_⟩
  · have hl := hs₁.lodged hf
    unfold Lodges at hl
    rwa [hb.same.1, hb.same.2] at hl
  · rw [← hsame.content_eq, content_of_cached hf]

/-- Pages that are all lodged can be counted by 32 bits. -/
theorem lt_of_lodged {n : Nat} (h : ∀ j, j < n → ∃ page, e.Lodges (table.pageId j) page) :
    n < UInt32.size := by
  apply Nat.lt_of_not_le
  intro hle
  obtain ⟨page, -, -, -, -, hmax⟩ := h (UInt32.size - 1) (by rw [UInt32.size] at hle ⊢; omega)
  rw [table.index_pageId (by decide)] at hmax
  exact absurd hmax (by decide)

/-- Pages can all be looked at only if 32 bits can count them. -/
theorem lt_of_visited {n : Nat} (hs : Sound e)
    (h : ∀ j, j < n → ∃ page, Visited tx e e' (table.pageId j) page) : n < UInt32.size :=
  lt_of_lodged fun j hj => (h j hj).imp fun _ hv => (hv.shows hs).1

theorem lt_of_seenFull {n : Nat} (hs : Sound e)
    (h : ∀ j, j < n → SeenFull tx e e' (table.pageId j)) : n < UInt32.size :=
  lt_of_visited hs fun j hj => (h j hj).imp fun _ hv => hv.1

/-- **Exploring changes no row.** -/
theorem Explored.sound (h : Explored tx id e e') (hs : Sound e) : Sound e' ∧ SameRows e e' := by
  cases h with
  | within hf => exact hf.sound hs
  | @beyond table e₁ _ disk r ht hf hfull ha hf' =>
    obtain ⟨hs₁, hsame₁⟩ := hf.sound hs
    obtain ⟨hcat, hdisk⟩ := hf.same
    have hmade : Sound { e₁ with disk := disk } ∧ SameRows e₁ { e₁ with disk := disk } := by
      cases r with
      | ok pid =>
        have hc : table.pageCount e₁.disk < UInt32.size := hdisk ▸ lt_of_seenFull hs hfull
        exact hs₁.append (hcat ▸ ht) (TableFile.appends_of_appendPage hc ha).1
      | error f =>
        have hfiles : disk.files = e₁.disk.files := by
          rcases TableFile.appendPage_cases ha with ⟨hr, -⟩ | ⟨rfl | rfl, -⟩
          · cases hr
          · rfl
          · rfl
        exact Halted.sound ⟨rfl, rfl, rfl, hfiles, rfl, rfl, fun _ => rfl⟩ hs₁
    obtain ⟨hs₂, hsame₂⟩ := hf'.sound hmade.1
    exact ⟨hs₂, hsame₁.trans (hmade.2.trans hsame₂)⟩

/-! ## 3. Changing -/

/-- **A change sets the content at one record id**; nothing is stored by it. -/
theorem Sound.changePage (tx : Tx) {values : Option (List Value)} (hs : Sound e)
    (hf : e.cache.find? pid = some frame) (hc : frame.page.Changed page rid values) :
    rid.page = pid ∧ Sound (e.changePage tx pid frame page)
      ∧ (∀ r, (e.changePage tx pid frame page).stored r = e.stored r)
      ∧ ∃ table, e.catalog.table? pid.table = some table
        ∧ ∀ r, (e.changePage tx pid frame page).content r = if r = rid
            then values.map fun vs => Row.cutValues vs table.schema.columns else e.content r := by
  obtain ⟨hrid, hsame⟩ := hc.same
  obtain ⟨table, ht, hshape, hlt, hmax⟩ := hs.lodged hf
  obtain ⟨hw, hcells⟩ := hc.cells hshape.wellFormed
  rw [hs.proper.keyed hf] at hrid
  have hstored : ∀ r, (e.changePage tx pid frame page).stored r = e.stored r := fun _ => rfl
  refine ⟨hrid, ⟨hs.tables, hs.idOf, hs.proper.insert (hsame.pid_eq.trans (hs.proper.keyed hf)),
    fun {p found} hp => ?_, fun {p found} hp hd => ?_⟩, hstored, table, ht, fun r => ?_⟩
  · rw [find?_changePage] at hp
    split at hp
    · rename_i he
      cases hp
      subst he
      exact ⟨table, ht, ⟨hw.markDirty tx, hsame.schema_eq.trans hshape.schema_eq,
        hsame.size_eq.trans hshape.size_eq⟩, hlt, hmax⟩
    · exact hs.lodged hp
  · rw [find?_changePage] at hp
    split at hp
    · cases hp
      cases hd
    · exact hs.clean hp hd
  · by_cases hr : r.page = pid
    · have hfind : (e.changePage tx pid frame page).cache.find? r.page
          = some { frame with page := page.markDirty tx } := by
        rw [find?_changePage, if_pos hr]
      rw [content_of_cached hfind, content_of_cached (hr ▸ hf)]
      have hslot : r = rid ↔ r.slot = rid.slot := by
        cases r
        cases rid
        simp_all
      simp only [hslot, ← hshape.schema_eq]
      exact hcells r.slot
    · rw [if_neg (by rintro rfl; exact hr hrid)]
      refine content_congr ?_ rfl
      rw [find?_changePage, if_neg hr]

/-- **Working on rows keeps the invariant.** -/
theorem Worked.sound {events : List Event} (h : Worked tx id e e' events) (hs : Sound e) :
    Sound e' := by
  cases h with
  | explored hx => exact (hx.sound hs).1
  | changed hx hh hc => exact ((hx.sound hs).1.changePage _ hh.cached hc).2.1

/-! ## 4. Settling -/

/-- The page after it was written and marked clean. -/
theorem find?_updatePage (e : Engine) (pid other : PageId) (page : Page) :
    (e.updatePage pid page).cache.find? other = if other = pid
      then (e.cache.find? pid).map fun frame => { frame with page := page }
      else e.cache.find? other :=
  e.cache.find?_update pid other page

/-- Writing a cached page rewrites its table's file, in a place that is counted. -/
theorem rewrites_of_writes (hs : Sound e) (hf : e.cache.find? pid = some frame)
    (ht : e.catalog.table? pid.table = some table) (hw : table.Writes e.disk frame.page disk) :
    Rewrites table e.disk disk ∧ table.Shapes frame.page
      ∧ pid.index.toNat < table.pageCount e.disk := by
  obtain ⟨table', ht', hshape, hlt, -⟩ := hs.lodged hf
  obtain rfl : table = table' := Option.some.inj (ht.symm.trans ht')
  have hcount := hw.pageCount_eq hshape ((hs.proper.keyed hf).symm ▸ hlt)
  exact ⟨⟨fun _ hne => hw.content_of_ne hne, hcount.symm ▸ Nat.le_refl _⟩, hshape, hlt⟩

/-- What stands on disk after a cached page was written. -/
theorem storedPage_write (hs : Sound e) (hf : e.cache.find? pid = some frame)
    (ht : e.catalog.table? pid.table = some table) (hw : table.Writes e.disk frame.page disk)
    (p : PageId) : storedPage { e with disk := disk } p
      = if p = pid then some frame.page.asStored else e.storedPage p := by
  obtain ⟨hd, hshape, hlt⟩ := rewrites_of_writes hs hf ht hw
  have hpid := hs.proper.keyed hf
  by_cases hp : p.table = pid.table
  · unfold storedPage
    simp only [hp, ht, Option.bind_some]
    rw [hw.pageAt hshape (hpid.symm ▸ hlt) p, hpid]
  · rw [if_neg (by rintro rfl; exact hp rfl)]
    exact storedPage_of_ne hs ht hd hp

theorem find?_write (hf : e.cache.find? pid = some frame) (disk : Disk) (p : PageId) :
    (updatePage { e with disk := disk } pid frame.page.clean).cache.find? p
      = if p = pid then some { frame with page := frame.page.clean } else e.cache.find? p := by
  rw [find?_updatePage]
  simp only [hf, Option.map_some]

/-- **A page that is written is stored as it was seen.** -/
theorem stored_write (hs : Sound e) (hf : e.cache.find? pid = some frame)
    (ht : e.catalog.table? pid.table = some table) (hw : table.Writes e.disk frame.page disk)
    (r : RecordId) : (updatePage { e with disk := disk } pid frame.page.clean).stored r
      = if r.page = pid then e.content r else e.stored r := by
  have hr := storedPage_write hs hf ht hw r.page
  by_cases hp : r.page = pid
  · rw [if_pos hp] at hr ⊢
    rw [content_of_cached (hp ▸ hf), ← Page.cells_asStored]
    exact congrArg (Option.bind · fun page => page.cells r.slot) hr
  · rw [if_neg hp] at hr ⊢
    exact congrArg (Option.bind · fun page => page.cells r.slot) hr

/-- All is seen as before. -/
theorem content_write (hs : Sound e) (hf : e.cache.find? pid = some frame)
    (ht : e.catalog.table? pid.table = some table) (hw : table.Writes e.disk frame.page disk)
    (r : RecordId) :
    (updatePage { e with disk := disk } pid frame.page.clean).content r = e.content r := by
  have hc := find?_write hf disk r.page
  by_cases hr : r.page = pid
  · rw [if_pos hr] at hc
    rw [content_of_cached hc, @content_of_cached e frame r (hr ▸ hf)]
    rfl
  · rw [if_neg hr] at hc
    exact content_congr (congrArg _ hc) ((stored_write hs hf ht hw r).trans (if_neg hr))

theorem Sound.write (hs : Sound e) (hf : e.cache.find? pid = some frame)
    (ht : e.catalog.table? pid.table = some table) (hw : table.Writes e.disk frame.page disk) :
    Sound (updatePage { e with disk := disk } pid frame.page.clean) := by
  obtain ⟨hd, hshape, hlt⟩ := rewrites_of_writes hs hf ht hw
  refine ⟨hs.tables, hs.idOf, hs.proper.update (hs.proper.keyed hf), fun {p found} hp => ?_,
    fun {p found} hp hclean slot => ?_⟩
  · rw [find?_write hf] at hp
    split at hp
    · rename_i he
      cases hp
      subst he
      obtain ⟨-, -, -, -, hmax⟩ := hs.lodged hf
      have hl : e.Lodges p frame.page.clean :=
        ⟨table, ht, ⟨hshape.wellFormed.clean, hshape.schema_eq, hshape.size_eq⟩, hlt, hmax⟩
      exact hl.rewrites hs ht hd
    · exact (hs.lodged hp).rewrites hs ht hd
  · rw [stored_write hs hf ht hw]
    rw [find?_write hf] at hp
    split at hp
    · rename_i he
      cases hp
      rw [if_pos he, content_of_cached (he ▸ hf)]
      rfl
    · rename_i hne
      rw [if_neg hne]
      exact hs.clean hp hclean slot

/-- Dropping a page, or reading it again, leaves the rest of the cache alone. -/
theorem revertPage_recached {r : Except Failure Unit} (h : e.revertPage pid = (e', r)) :
    Recached e e' := by
  rcases revertPage_cases h with ⟨page, hr, rfl, -⟩ | ⟨f, hr, rfl, -⟩
  · refine ⟨rfl, rfl, rfl, fun hp => (hp.remove pid).load (readPage_eq_ok hr).1,
      fun {p found} hf => ?_⟩
    simp only [Cache.find?_load, Cache.find?_remove] at hf
    split at hf
    · rename_i he
      cases hf
      exact Or.inr (he ▸ hr)
    · exact Or.inl hf
  · refine ⟨rfl, rfl, rfl, fun hp => hp.remove pid, fun {p found} hf => ?_⟩
    simp only [Cache.find?_remove] at hf
    split at hf
    · cases hf
    · exact Or.inl hf

/-- **A page that is reverted is seen as it was stored.** -/
theorem Sound.revertPage {r : Except Failure Unit} (hs : Sound e)
    (h : e.revertPage pid = (e', r)) :
    Sound e' ∧ (∀ rid, e'.stored rid = e.stored rid)
      ∧ ∀ rid, e'.content rid = if rid.page = pid then e.stored rid else e.content rid := by
  have hr := revertPage_recached h
  refine ⟨hr.sound hs, hr.stored, ?_⟩
  intro rid
  split
  · rename_i he
    exact hr.content_of_left hs fun frame hf =>
      (revertPage_cleans h).clean (List.mem_singleton.mpr he) hf
  · rename_i hne
    refine hr.content hs fun frame hf _ => ?_
    rw [(revertPage_cleans h).find?_eq (mt List.mem_singleton.mp hne), hf]

/-- **Flushing and completing keeps the invariant**, also where it fails or stops. -/
theorem Settles.sound (h : Settles e e') (hs : Sound e) : Sound e' := by
  induction h with
  | refl => exact hs
  | tail _ hstep ih =>
    cases hstep with
    | write hf ht hw => exact ih.write hf ht hw
    | revert hr _ => exact (ih.revertPage hr).1
    | halt hh => exact (hh.sound ih).1

/-- A page that is flushed is stored as it was seen, cached or not. -/
theorem Sound.flushPage (hs : Sound e) (h : e.flushPage pid = (e', .ok ())) :
    Sound e' ∧ (∀ r, e'.stored r = if r.page = pid then e.content r else e.stored r)
      ∧ ∀ r, e'.content r = e.content r := by
  rcases flushPage_cases h with ⟨rfl, hn, -⟩ | ⟨frame, table, disk, hf, ht, hw, rfl, -⟩
    | ⟨-, f, hr, -⟩
  · refine ⟨hs, ?_, fun _ => rfl⟩
    intro r
    split
    · rename_i he
      exact (content_of_not_cached (he ▸ hn)).symm
    · rfl
  · exact ⟨hs.write hf ht hw, stored_write hs hf ht hw, content_write hs hf ht hw⟩
  · cases hr

/-- What is done for one page and then for some others is done for all of them. -/
theorem ite_mem_cons {α : Type} (p pid : PageId) (pids : List PageId) (a b : α) :
    (if p ∈ pids then a else if p = pid then a else b) = if p ∈ pid :: pids then a else b := by
  by_cases hm : p ∈ pids
  · rw [if_pos hm, if_pos (List.mem_cons_of_mem _ hm)]
  · rw [if_neg hm]
    by_cases he : p = pid
    · rw [if_pos he, if_pos (he ▸ List.mem_cons_self)]
    · rw [if_neg he, if_neg fun hc => (List.mem_cons.mp hc).elim he hm]

/-- **Pages that are flushed are stored as they were seen**; all is seen as before. -/
theorem flushEach_rows : ∀ {pids : List PageId} {e e' : Engine}, Sound e →
    flushEach pids e = (e', .ok ()) →
    Sound e' ∧ (∀ r, e'.stored r = if r.page ∈ pids then e.content r else e.stored r)
      ∧ ∀ r, e'.content r = e.content r
  | [], e, e', hs, h => by
    cases h
    exact ⟨hs, fun r => by simp, fun _ => rfl⟩
  | pid :: pids, e, e', hs, h => by
    unfold flushEach at h
    split at h
    · cases h
    · rename_i e₁ _ hp
      obtain ⟨hs₁, hstored₁, hcontent₁⟩ := hs.flushPage hp
      obtain ⟨hs', hstored, hcontent⟩ := flushEach_rows hs₁ h
      refine ⟨hs', ?_, fun r => (hcontent r).trans (hcontent₁ r)⟩
      intro r
      rw [hstored, hcontent₁, hstored₁]
      exact ite_mem_cons r.page pid pids _ _

/-- **Pages that are reverted are seen as they were stored**; nothing is stored by it. -/
theorem revertEach_rows : ∀ {pids : List PageId} {e e' : Engine} {r : Except Failure Unit},
    Sound e → revertEach pids e = (e', r) → Returned r →
    Sound e' ∧ (∀ rid, e'.stored rid = e.stored rid)
      ∧ ∀ rid, e'.content rid = if rid.page ∈ pids then e.stored rid else e.content rid
  | [], e, e', r, hs, h, _ => by
    cases h
    exact ⟨hs, fun _ => rfl, fun rid => by simp⟩
  | pid :: pids, e, e', r, hs, h, hr => by
    obtain ⟨e₁, r₁, r₂, hp, htail, hr₂⟩ := revertEach_cons_returned h hr
    obtain ⟨hs₁, hstored₁, hcontent₁⟩ := hs.revertPage hp
    obtain ⟨hs', hstored, hcontent⟩ := revertEach_rows hs₁ htail hr₂
    refine ⟨hs', fun rid => (hstored rid).trans (hstored₁ rid), ?_⟩
    intro rid
    rw [hcontent, hstored₁, hcontent₁]
    exact ite_mem_cons rid.page pid pids _ _

/-! ## 5. New tables -/

/-- **A table is registered once**: when it is created, neither it nor its name is known yet. -/
def RegistersOnce (e : Engine) (file name : String) (schema : Schema) : Prop :=
  ∀ e' table, e.createTable file name schema = (e', .ok table) →
    e.catalog.table? table.id = none ∧ e.catalog.id? name = none

theorem registersOnce_of_createTable {file name : String} {schema : Schema}
    (h : e.createTable file name schema = (e', .ok table))
    (hid : e.catalog.table? table.id = none) (hname : e.catalog.id? name = none) :
    e.RegistersOnce file name schema := by
  intro e₁ found hfound
  rw [h] at hfound
  cases hfound
  exact ⟨hid, hname⟩

/-- Opening a file leaves the bytes of all files alone; a file that it creates is empty. -/
theorem openFile_same {d d' : Disk} {name : String} {path : Path}
    (h : d.openFile name = .ok (d', path)) :
    (∀ p, d'.content p = d.content p) ∧ d'.spoiled = d.spoiled := by
  unfold Disk.openFile at h
  split at h
  · cases h
  · rename_i found _
    split at h
    · cases h
    · split at h
      · cases h
      · split at h
        · cases h
          exact ⟨fun _ => rfl, rfl⟩
        · rename_i hfile
          cases h
          refine ⟨fun p => ?_, rfl⟩
          by_cases hp : p = path
          · subst hp
            have hnone : Assoc.find? p d.files = none := by
              simpa [Disk.isFile] using hfile
            rw [Disk.content_put_self, Disk.content, Disk.file, hnone]
            rfl
          · exact d.content_put_of_ne [] hp

/-- **What is opened is what was asked for**: the table has the id of its file, and the schema and
the size of pages that were given; its pages have room for a row, and its file consists of them. -/
structure Asked (idOf : Path → TableId) (schema : Schema) (pageSize : Nat) (d : Disk)
    (t : TableFile) : Prop where
  idOf_eq : idOf t.path = t.id
  schema_eq : t.schema = schema
  pageSize_eq : t.pageSize = pageSize
  roomy : t.Roomy
  whole : t.pageSize ∣ d.length t.path

theorem openAt_cases {idOf : Path → TableId} {name : String} {schema : Schema} {pageSize : Nat}
    {d d' : Disk} {r : Except Failure TableFile}
    (h : TableFile.openAt idOf d name schema pageSize = (d', r)) :
    (∀ p, d'.content p = d.content p) ∧ d'.spoiled = d.spoiled
      ∧ ∀ table, r = .ok table → Asked idOf schema pageSize d' table := by
  unfold TableFile.openAt at h
  split at h
  · cases h
    exact ⟨fun _ => rfl, rfl, fun _ hr => by cases hr⟩
  · cases h
    exact ⟨fun _ => rfl, rfl, fun _ hr => by cases hr⟩
  · rename_i count hne hcount
    obtain ⟨-, rfl⟩ := PageLayout.slotCount?_eq_some_iff.mp hcount
    have hroom : 0 < PageLayout.slotCount schema pageSize :=
      Nat.pos_of_ne_zero fun hz => hne (by rw [hz])
    split at h
    · cases h
      exact ⟨fun _ => rfl, rfl, fun _ hr => by cases hr⟩
    · rename_i opened path hopen
      obtain ⟨hcontent, hspoiled⟩ := openFile_same hopen
      split at h
      · rename_i hwhole
        cases h
        refine ⟨hcontent, hspoiled, fun table hr => ?_⟩
        cases hr
        exact ⟨rfl, rfl, rfl, hroom, Nat.dvd_of_mod_eq_zero hwhole⟩
      · cases h
        exact ⟨hcontent, hspoiled, fun _ hr => by cases hr⟩

/-- A table that was created is what was asked for. -/
theorem asked_of_createTable {file name : String} {schema : Schema}
    (h : e.createTable file name schema = (e', .ok table)) :
    Asked e.config.idOf schema e.config.pageSize e'.disk table := by
  unfold createTable at h
  split at h
  · cases h
  · rename_i d found ho
    cases h
    exact (openAt_cases ho).2.2 _ rfl

/-- A table that is registered under a new name takes nobody's place but that of its id. -/
theorem table?_add {c : Catalog} {name : String} (hname : c.id? name = none) (other : TableId) :
    (c.add table name).table? other = if other = table.id then some table else c.table? other := by
  rw [Catalog.table?_add, hname]
  simp only [reduceCtorEq, if_false]

/-- **What creating a table does**: no file has other bytes, and the catalog has one table more at
most. -/
structure Created (e e' : Engine) (r : Except Failure TableFile) : Prop where
  config_eq : e'.config = e.config
  content_eq : ∀ path, e'.disk.content path = e.disk.content path
  spoiled_eq : e'.disk.spoiled = e.disk.spoiled
  cache_eq : e'.cache = e.cache
  locks_eq : e'.locks = e.locks
  tables : e'.catalog = e.catalog ∨ ∃ table, r = .ok table
    ∧ Asked e.config.idOf table.schema e.config.pageSize e'.disk table
    ∧ e.catalog.table? table.id = none
    ∧ ∀ id, e'.catalog.table? id = if id = table.id then some table else e.catalog.table? id

theorem createTable_cases {file name : String} {schema : Schema} {r : Except Failure TableFile}
    (hone : RegistersOnce e file name schema)
    (h : e.createTable file name schema = (e', r)) : Created e e' r := by
  have hcreate := h
  unfold createTable at h
  split at h
  · rename_i d f ho
    obtain ⟨hcontent, hspoiled, -⟩ := openAt_cases ho
    cases h
    exact ⟨rfl, hcontent, hspoiled, rfl, rfl, Or.inl rfl⟩
  · rename_i d table ho
    obtain ⟨hcontent, hspoiled, hasked⟩ := openAt_cases ho
    cases h
    obtain ⟨hid, hname⟩ := hone _ _ hcreate
    have hnew := hasked table rfl
    exact ⟨rfl, hcontent, hspoiled, rfl, rfl,
      Or.inr ⟨table, rfl, hnew.schema_eq ▸ hnew, hid, table?_add hname⟩⟩

namespace Created

variable {r : Except Failure TableFile}

/-- A table that was registered before still is. -/
theorem table?_of_some (h : Created e e' r) (ht : e.catalog.table? id = some table) :
    e'.catalog.table? id = some table := by
  rcases h.tables with hc | ⟨new, -, -, hnew, hadd⟩
  · rw [hc, ht]
  · rw [hadd, if_neg, ht]
    rintro rfl
    rw [hnew] at ht
    cases ht

theorem storedPage (h : Created e e' r) (ht : e.catalog.table? pid.table = some table) :
    e'.storedPage pid = e.storedPage pid := by
  unfold Engine.storedPage
  rw [h.table?_of_some ht, ht]
  exact TableFile.pageAt_congr (h.content_eq table.path) pid

/-- **Rows of registered tables stay.** -/
theorem rows (h : Created e e' r) (ht : e.catalog.table? rid.page.table = some table) :
    e'.stored rid = e.stored rid ∧ e'.content rid = e.content rid := by
  have hstored := stored_congr (h.storedPage ht)
  exact ⟨hstored, content_congr (by rw [h.cache_eq]) hstored⟩

theorem sound (h : Created e e' r) (hs : Sound e) : Sound e' where
  tables {id table} ht := by
    rcases h.tables with hc | ⟨new, -, hnew, -, hadd⟩
    · exact hs.tables (hc ▸ ht)
    · rw [hadd] at ht
      split at ht
      · rename_i he
        cases ht
        exact ⟨he.symm, hnew.roomy⟩
      · exact hs.tables ht
  idOf {id table} ht := by
    rw [h.config_eq]
    rcases h.tables with hc | ⟨new, -, hnew, -, hadd⟩
    · exact hs.idOf (hc ▸ ht)
    · rw [hadd] at ht
      split at ht
      · rename_i he
        cases ht
        exact hnew.idOf_eq.trans he.symm
      · exact hs.idOf ht
  proper := h.cache_eq ▸ hs.proper
  lodged {pid frame} hf := by
    obtain ⟨table, ht, hshape, hlt, hmax⟩ := hs.lodged (h.cache_eq ▸ hf)
    exact ⟨table, h.table?_of_some ht, hshape,
      (TableFile.pageCount_congr (h.content_eq table.path)).symm ▸ hlt, hmax⟩
  clean {pid frame} hf hd slot := by
    have hf' := h.cache_eq ▸ hf
    obtain ⟨table, ht, -⟩ := hs.lodged hf'
    rw [hs.clean hf' hd slot]
    exact (stored_congr (h.storedPage ht)).symm

end Created

end RowStore.Engine
