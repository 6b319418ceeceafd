import RowStore.Proofs.Durability
import RowStore.Proofs.HeapTable
import RowStore.Proofs.PageSchemas

/-!
# Pages that read again as they are

Whatever is called, as long as all pages have one size and no two files one id, a page without a
mark reads again as it is cached (`Engine.Mirrors`), with the schema that it has, be it that of a
registered table or of one that is gone.

* So a registered table is shown rightly if its cached pages have its schema (`Legible.shows`).
* What is handed out of it shows its content (`Shows.shown`), though a page without a mark may have
  left the cache and come back before it is handed out (`Engine.Offers`).
-/

namespace RowStore

/-! ## 1. Pages that read again as they are -/

namespace Engine

variable {dir : Directory} {e e' : Engine} {tx : Tx} {pid : PageId} {page : Page} {rid : RecordId}
  {table : TableFile} {c : Call} {events : List Event}

/-- **A cached page without a mark reads again as it is**, with the schema that it has. -/
def Mirrors (dir : Directory) (e : Engine) : Prop :=
  ∀ ⦃pid : PageId⦄ ⦃frame : Frame⦄, e.cache.find? pid = some frame → frame.page.dirty = none →
    ∃ page,
      Page.ofBytes pid (e.disk.pageBytes dir e.config.pageSize pid) frame.page.schema = .ok page
      ∧ ∀ slot, page.cells slot = frame.page.cells slot

/-- Only pages that were cached just so, with the same bytes on disk. -/
theorem Mirrors.of_cached (hm : Mirrors dir e) (hg : e'.config = e.config)
    (h : ∀ {pid : PageId} {frame : Frame}, e'.cache.find? pid = some frame →
      frame.page.dirty = none → ∃ old, e.cache.find? pid = some old ∧ old.page = frame.page
        ∧ e'.disk.pageBytes dir e.config.pageSize pid
          = e.disk.pageBytes dir e.config.pageSize pid) :
    Mirrors dir e' := by
  intro pid frame hf hd
  obtain ⟨old, hold, he, hbytes⟩ := h hf hd
  rw [hg, hbytes, ← he]
  exact hm hold (he ▸ hd)

/-- No page was brought in or changed, and no file has other bytes. -/
theorem Mirrors.of_same (hm : Mirrors dir e) (hg : e'.config = e.config)
    (hcontent : ∀ path, e'.disk.content path = e.disk.content path)
    (hcache : ∀ {pid : PageId} {frame : Frame}, e'.cache.find? pid = some frame →
      ∃ old, e.cache.find? pid = some old ∧ old.page = frame.page) : Mirrors dir e' :=
  hm.of_cached hg fun hf _ => by
    obtain ⟨old, hold, he⟩ := hcache hf
    exact ⟨old, hold, he, Disk.pageBytes_congr fun path i _ => by rw [hcontent]⟩

/-- What was read reads again as it is. -/
theorem Filed.reads_again (hu : Filed dir e) (h : e.readPage pid = .ok page) :
    Page.ofBytes pid (e.disk.pageBytes dir e.config.pageSize pid) page.schema = .ok page := by
  obtain ⟨table, ht, hr⟩ := readPage_eq_ok_iff.mp h
  rw [hu.pageBytes_eq ht, (Page.of_ofBytes hr.ofBytes).schema_eq]
  exact hr.ofBytes

theorem Mirrors.recached (hm : Mirrors dir e) (hu : Filed dir e) (h : Recached e e')
    (hg : e'.config = e.config) : Mirrors dir e' := by
  intro pid frame hf hd
  rw [hg, h.disk_eq]
  rcases h.find? hf with hold | hread
  · exact hm hold hd
  · exact ⟨frame.page, hu.reads_again hread, fun _ => rfl⟩

theorem SettleStep.mirrors (h : SettleStep e e') (ho : Orderly e) (hu : Filed dir e)
    (hw : Formed e) (hm : Mirrors dir e) : Mirrors dir e' := by
  have hg := h.config_eq
  cases h with
  | @write pid frame table disk hf ht hwrite =>
    obtain ⟨hd, himage⟩ := hu.write ho.proper hf ht hwrite
    intro p found hfound hclean
    rw [find?_write hf] at hfound
    split at hfound
    · -- the page that was written is read back as it is stored, which has the same cells
      rename_i he
      cases hfound
      subst he
      have hback := Page.ofBytes_image (hw hf)
      rw [ho.proper.keyed hf, ← himage] at hback
      exact ⟨frame.page.asStored, hback, frame.page.cells_asStored⟩
    · rename_i hne
      have hbytes := hd.pageBytes_eq (mt List.mem_singleton.mp hne)
      obtain ⟨page, hread, hcells⟩ := hm hfound hclean
      exact ⟨page, hbytes.symm ▸ hread, hcells⟩
  | revert hr _ => exact hm.recached hu (revertPage_recached hr) hg
  | halt hh => exact hm.of_same hg (content_of_files hh.files_eq) hh.find?

/-- **Every step leaves the pages without a mark as they read.** -/
theorem Move.mirrors (h : Move e e') (ho : Orderly e) (hu : Filed dir e) (hw : Formed e)
    (hm : Mirrors dir e) : Mirrors dir e' := by
  cases h with
  | fetch hf => exact hm.recached hu (hf.recached ho.proper) (by cases hf <;> rfl)
  | append ht hc ha =>
    have hsize := (hu.tables ht).pageSize_eq
    have hbytes := (pageBytes_appendPage hc ha).2
    rw [hsize] at hbytes
    exact hm.of_cached rfl fun hf _ => ⟨_, hf, rfl, hbytes dir _ (hu.holds hf)⟩
  | change hh hc =>
    refine hm.of_cached rfl fun {p found} hf hd => ?_
    rw [find?_changePage] at hf
    split at hf
    · cases hf
      cases hd
    · exact ⟨found, hf, rfl, rfl⟩
  | settle hs => exact hs.mirrors ho hu hw hm
  | releaseAll tx => exact hm

/-- **What holds while all pages have one size** and no two files one id, whatever is called. -/
structure Legible (dir : Directory) (e : Engine) : Prop where
  orderly : Orderly e
  filed : Filed dir e
  formed : Formed e
  mirrors : Mirrors dir e

theorem legible_new (dir : Directory) (config : Config) (disk : Disk) :
    Legible dir { config := config, disk := disk } where
  orderly := orderly_new config disk
  filed := filed_new dir config disk
  formed _ _ hf := by cases hf
  mirrors _ _ hf := by cases hf

theorem Moves.legible (h : Moves e e') (hl : Legible dir e) : Legible dir e' := by
  induction h with
  | refl => exact hl
  | tail _ hs ih =>
    exact ⟨hs.orderly ih.orderly, (hs.derives ih.orderly.proper).filed ih.filed,
      (hs.inherits ih.orderly.proper).formed ih.formed,
      hs.mirrors ih.orderly ih.filed ih.formed ih.mirrors⟩

/-- A call that uses no pages brings none in, and leaves the bytes of all files alone. -/
theorem Mirrors.call (hm : Mirrors dir e) (hp : ¬c.UsesPages) (h : e.call c = (e', events)) :
    Mirrors dir e' := by
  cases c with
  | removePage pid =>
    cases h
    rcases e.removePage_cases pid with he | he <;> rw [he]
    · exact hm
    · exact hm.of_same rfl (fun _ => rfl) fun hf => ⟨_, find?_of_remove hf, rfl⟩
  | clear =>
    cases h
    rcases e.clear_cases with he | he <;> rw [he]
    · exact hm
    · exact hm.of_same rfl (fun _ => rfl) fun hf => by cases hf
  | createTable file name schema =>
    cases h
    have hopens := e.createTable_opens file name schema
    exact hm.of_same hopens.config_eq hopens.content_eq fun hf => ⟨_, hopens.cache_eq ▸ hf, rfl⟩
  | register | unregister | forgetTables | releasePage =>
    cases h
    exact hm.of_same rfl (fun _ => rfl) fun hf => ⟨_, hf, rfl⟩
  | _ => exact absurd trivial hp

theorem Legible.call (hl : Legible dir e) (hc : c.Filed dir e) (h : e.call c = (e', events)) :
    Legible dir e' := by
  by_cases hp : c.UsesPages
  · exact ((did_of_call hl.orderly.proper hp h).moves hl.orderly).legible hl
  refine ⟨hl.orderly.call c h, hl.filed.call hl.orderly hc h, ?_, hl.mirrors.call hp h⟩
  cases rearranges_of_call hl.orderly h with
  | same hi => exact hi.formed hl.formed
  | fewer hcache _ => exact hl.formed.congr hcache
  | more hcache _ _ => exact hl.formed.congr hcache

end Engine

open Engine

/-- **Pages read again as they are** in every state that is reached on the files of a directory. -/
theorem Run.legible {dir : Directory} {start e : Engine} {log : List Event}
    (hl : Legible dir start) (h : Run (fun e c => c.Filed dir e) start e log) :
    Legible dir e := by
  induction h with
  | nil => exact hl
  | call c _ hc he ih => exact ih.call hc he

namespace Engine

variable {dir : Directory} {e e' : Engine} {tx : Tx} {pid : PageId} {page : Page}
  {table : TableFile}

/-! ## 2. Tables that are shown rightly -/

/-- **A registered table is shown rightly if its cached pages have its schema.** -/
theorem Legible.shows (hl : Legible dir e) (ht : e.catalog.table? table.id = some table)
    (hc : e.Carries table.id table.schema) : e.Shows table := by
  obtain ⟨-, hidOf, hsize, hroomy⟩ := hl.filed.tables ht
  have hlt : ∀ {pid : PageId} {frame : Frame}, e.cache.find? pid = some frame →
      pid.table = table.id → pid.index.toNat < table.pageCount e.disk := fun hf hown =>
    hl.filed.index_lt (hown.symm ▸ ht) (hl.filed.holds hf)
  refine .of_pages ht hl.orderly.proper hidOf hroomy (fun {pid frame} hf hown => ?_)
    fun {pid frame} hf hown hd slot => ?_
  · have hfits := (hl.filed.cached hf).1
    exact ⟨⟨hl.formed hf, hc hf hown, hfits.trans hsize.symm⟩, hlt hf hown,
      hl.orderly.index_lt hf⟩
  · have ht' : e.catalog.table? pid.table = some table := hown ▸ ht
    obtain ⟨page, hread, hcells⟩ := hl.mirrors hf hd
    rw [hl.filed.pageBytes_eq ht', hc hf hown] at hread
    have hat := TableFile.pageAt_eq_some_iff.mpr ⟨⟨hown, hlt hf hown⟩, hread⟩
    rw [← hcells]
    unfold stored storedPage
    simp only [ht', Option.bind_some, hat]

/-! ## 3. What is handed out -/

/-- **What is handed out if a page is requested before it changes**: the cached page, or, if there
is none or it may leave the cache before, the page as it is read from disk. -/
def Offers (e : Engine) (pid : PageId) (page : Page) : Prop :=
  (∃ frame, e.cache.find? pid = some frame ∧ frame.page = page)
    ∨ (∀ frame, e.cache.find? pid = some frame → frame.page.dirty = none)
      ∧ e.readPage pid = .ok page

/-- The page that a step of a request leaves was there before. -/
theorem FetchStep.offers (h : FetchStep tx e e') (hp : e.cache.Proper)
    (ho : e'.Offers pid page) : e.Offers pid page := by
  have hr := h.recached hp
  have hread : e'.readPage pid = e.readPage pid := by
    unfold readPage
    rw [hr.catalog_eq, hr.disk_eq]
  by_cases hd : ∃ frame, e.cache.find? pid = some frame ∧ frame.page.dirty ≠ none
  · -- a page with a mark stays where it is
    obtain ⟨frame, hf, hne⟩ := hd
    have hf' := h.find?_dirty hp hf hne
    rcases ho with ⟨found, hfound, rfl⟩ | ⟨hclean, -⟩
    · rw [hf'] at hfound
      cases hfound
      exact Or.inl ⟨frame, hf, rfl⟩
    · exact absurd (hclean frame hf') hne
  · have hclean : ∀ frame, e.cache.find? pid = some frame → frame.page.dirty = none :=
      fun frame hf => Classical.byContradiction fun hne => hd ⟨frame, hf, hne⟩
    rcases ho with ⟨found, hfound, rfl⟩ | ⟨-, hok⟩
    · rcases hr.find? hfound with hold | hok
      · exact Or.inl ⟨found, hold, rfl⟩
      · exact Or.inr ⟨hclean, hok⟩
    · exact Or.inr ⟨hclean, hread ▸ hok⟩

theorem Fetches.offers (h : Fetches tx e e') (hp : e.cache.Proper) (ho : e'.Offers pid page) :
    e.Offers pid page := by
  induction h with
  | refl => exact ho
  | tail hr hs ih => exact ih (hs.offers (Fetches.proper hr hp) ho)

/-- **What is handed out of a table that is shown rightly shows its content.** -/
theorem Shows.shown (hs : e.Shows table) (hown : pid.table = table.id)
    (ho : e.Offers pid page) : Shown (e.only table) table pid page := by
  rcases ho with ⟨frame, hf, rfl⟩ | ⟨hclean, hread⟩
  · obtain ⟨found, hfound, hshown⟩ := hs.sound.shown (find?_only_eq_some_iff.mpr ⟨hown, hf⟩)
    rw [table?_only, if_pos hown.symm] at hfound
    cases hfound
    exact hshown
  · have hread' := (readPage_only_eq_ok_iff hs.registered).mpr ⟨hown, hread⟩
    obtain ⟨found, hfound, hr⟩ := readPage_eq_ok_iff.mp hread'
    rw [table?_only, if_pos hown.symm] at hfound
    cases hfound
    obtain ⟨hshape, hpid, -⟩ := TableFile.shapes_of_pageAt hr.pageAt.1
    refine ⟨hshape, hpid, fun slot => ?_⟩
    rw [stored_of_readPage hread' slot]
    exact (@Sound.content_eq_stored _ ⟨pid, slot⟩ hs.sound fun frame hf =>
      hclean frame (find?_only_eq_some_iff.mp hf).2).symm

end Engine

namespace Sample

theorem run_second : Run (fun e c => c.Filed .paths e) start second (history.take 3) := by
  have h : Run (fun e c => c.OneSize e) start second (history.take 3) :=
    (run_committed.mono Call.Transactional.oneSize).call
      (.insert ⟨2⟩ table.id ⟨[.int 6], none⟩) trivial call_second
  exact h.on_paths (orderly_new _ _) rfl

theorem registered_second : second.catalog.table? table.id = some table := by decide +kernel

theorem carries_second : second.Carries table.id table.schema := by
  have hschemas : ∀ entry ∈ second.cache.frames, entry.2.page.schema = table.schema := by
    decide +kernel
  exact fun pid frame hf _ => hschemas (pid, frame) (Assoc.mem_of_find? hf)

end Sample

end RowStore
