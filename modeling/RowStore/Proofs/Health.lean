import RowStore.Proofs.ContentSteps
import RowStore.Proofs.Engine.Resolving

/-!
# Stores that nothing stops

An operation stops in the middle where it meets something spoiled or a position that is no number
any more.  In a store with neither (`Healthy`) no operation stops, and none leaves anything spoiled:
requests fail in defined ways only, every commit goes through (`commit_healthy`) and every abort
returns (`abort_healthy`), even if a page cannot be read again.

Positions stay numbers because a page is appended only while the file's end is a position, and
every page that is written later lies before that end.
-/

namespace RowStore.Engine

variable {e e' : Engine} {tx : Tx} {pid : PageId} {frame : Frame} {page : Page}
  {table : TableFile} {id : TableId} {disk : Disk}

/-- **Nothing is spoiled**, and every table's file ends at a position and has no more pages than 32
bits can count. -/
structure Healthy (e : Engine) : Prop where
  cache : e.cache.spoiled = false
  frames : ∀ {pid : PageId} {frame : Frame}, e.cache.find? pid = some frame →
    frame.spoiled = false
  handles : e.disk.spoiled = []
  files : ∀ {id : TableId} {table : TableFile}, e.catalog.table? id = some table →
    e.disk.length table.path < Disk.positions ∧ table.pageCount e.disk ≤ UInt32.size

/-- Where no handle is spoiled, every handle can be used. -/
theorem isUsable_of_none {d : Disk} (h : d.spoiled = []) (handle : Nat) :
    d.isUsable handle = true := by
  simp [Disk.isUsable, h]

theorem Healthy.usable (hh : Healthy e) (handle : Nat) : e.disk.isUsable handle = true :=
  isUsable_of_none hh.handles handle

/-! ## 1. Requests -/

/-- A page that cannot be read fails in a defined way. -/
theorem readPage_defined {f : Failure}
    (htables : ∀ {id : TableId} {table : TableFile}, e.catalog.table? id = some table → table.Roomy)
    (hhandles : e.disk.spoiled = []) (h : e.readPage pid = .error f) : f.isUndefined = false := by
  unfold readPage Catalog.lookup at h
  split at h
  · rename_i g hg
    cases h
    split at hg
    · cases hg
    · cases hg
      rfl
  · rename_i table hg
    split at hg
    · rename_i found ht
      cases hg
      unfold TableFile.readPage TableFile.own TableFile.countPages at h
      simp only [isUsable_of_none hhandles, if_true] at h
      split at h
      · rename_i g hown
        cases h
        split at hown
        · cases hown
        · cases hown
          rfl
      · split at h
        · rename_i hlt
          have hlt := UInt32.lt_iff_toNat_lt.mp hlt
          rw [UInt32.toNat_ofNat'] at hlt
          have hi := Nat.lt_of_lt_of_le hlt (Nat.mod_le _ _)
          obtain ⟨page, hp, -⟩ := @Page.ofBytes_of_pos pid
            (e.disk.read table.path (pid.offset table.pageSize) table.pageSize) table.schema
            (by rw [TableFile.length_read hi]; exact htables ht)
          rw [hp] at h
          cases h
        · cases h
          rfl
    · cases hg

/-- **Where no page is spoiled, there is no room only if the cache is full of changed pages**, and
the failure is one of storage. -/
theorem makeRoom_eq_error {f : Failure}
    (hframes : ∀ {pid : PageId} {frame : Frame}, e.cache.find? pid = some frame →
      frame.spoiled = false) (h : e.makeRoom = .error f) :
    e.config.pages ≤ e.cache.size ∧ e.cache.victim? = none ∧ f.kind = .storage := by
  have hblocked : e.cache.isBlocked = false := Cache.isBlocked_eq_false hframes
  unfold makeRoom Cache.evict at h
  simp only [hblocked, Bool.false_eq_true, if_false] at h
  split at h
  · rename_i hfull
    split at h
    · cases h
    · rename_i hvictim
      refine ⟨hfull, hvictim, ?_⟩
      split at h <;> cases h <;> rfl
  · cases h

theorem isUndefined_of_storage {f : Failure} (h : f.kind = .storage) : f.isUndefined = false := by
  unfold Failure.isUndefined
  rw [h]
  rfl

theorem FetchStep.healthy (h : FetchStep tx e e') (hs : Sound e) (hh : Healthy e) :
    Healthy e' := by
  cases h with
  | lock _ _ _ => exact ⟨hh.cache, hh.frames, hh.handles, hh.files⟩
  | @load loaded page cache hn hr hm =>
    refine ⟨(spoiled_of_makeRoom hm).trans hh.cache, fun {p found} hf => ?_, hh.handles, hh.files⟩
    simp only [Cache.find?_load] at hf
    split at hf
    · cases hf
      rfl
    · rcases makeRoom_eq_ok hs.proper hm with rfl | ⟨victim, old, _, _, rfl⟩
      · exact hh.frames hf
      · rw [Cache.find?_remove] at hf
        split at hf
        · cases hf
        · exact hh.frames hf
  | spoil hwhy hd =>
    have hf := hwhy.elim (readPage_defined (fun ht => (hs.tables ht).2) hh.handles) fun hm =>
      isUndefined_of_storage (makeRoom_eq_error hh.frames hm).2.2
    rw [hd] at hf
    cases hf

theorem Fetches.healthy (h : Fetches tx e e') (hs : Sound e) (hh : Healthy e) : Healthy e' := by
  induction h with
  | refl => exact hh
  | tail hr hstep ih => exact hstep.healthy (Fetches.sound hr hs).1 ih

/-! ## 2. Appending -/

/-- A position in a table's file is a number of 64 bits. -/
theorem isSize_of_lt {n : Nat} (h : n < Disk.positions) : isSize n = true := by
  unfold Disk.positions at h
  unfold isSize
  exact decide_eq_true (by omega)

/-- Where the end of the file is a position, appending spoils nothing. -/
theorem appendPage_defined {r : Except Failure PageId} (hu : disk.isUsable table.handle = true)
    (hlt : disk.length table.path < Disk.positions) (hc : table.pageCount disk < UInt32.size)
    {disk' : Disk} (h : table.appendPage disk = (disk', r)) :
    disk' = disk ∨ table.Appends disk disk' := by
  have hsize : isSize ((table.pageId (table.pageCount disk)).offset table.pageSize) = true := by
    apply isSize_of_lt
    rw [PageId.offset, table.index_pageId hc]
    exact Nat.lt_of_le_of_lt (Nat.div_mul_le_self _ _) hlt
  have hseek : table.seekPage disk (table.pageId (table.pageCount disk))
      = (disk, .ok ((table.pageId (table.pageCount disk)).offset table.pageSize)) := by
    unfold TableFile.seekPage PageId.offset?
    rw [if_pos hu, if_pos hsize]
  cases r with
  | ok pid => exact Or.inr (TableFile.appends_of_appendPage hc h).1
  | error f =>
    unfold TableFile.appendPage at h
    simp only [hseek] at h
    split at h
    · rename_i d g hw
      cases h
      rcases TableFile.writeBytes_cases hw with ⟨-, -, hr⟩ | ⟨hd, -⟩
      · cases hr
      · exact Or.inl hd
    · cases h

/-- What a change of one file has to keep. -/
theorem Healthy.rewrites (hs : Sound e) (hh : Healthy e) (ht : e.catalog.table? id = some table)
    (hd : Rewrites table e.disk disk) (hspoiled : disk.spoiled = e.disk.spoiled)
    (hlen : disk.length table.path < Disk.positions) (hcount : table.pageCount disk ≤ UInt32.size) :
    Healthy { e with disk := disk } := by
  refine ⟨hh.cache, hh.frames, hspoiled.trans hh.handles, fun {oid other} ho => ?_⟩
  by_cases hid : oid = id
  · obtain rfl : other = table := by
      rw [hid, ht] at ho
      exact (Option.some.inj ho).symm
    exact ⟨hlen, hcount⟩
  · have hcontent := hd.content_of_ne _ (hs.path_ne ht ho hid)
    refine ⟨?_, ?_⟩
    · rw [← Disk.length_content, hcontent, Disk.length_content]
      exact (hh.files ho).1
    · rw [TableFile.pageCount_congr hcontent]
      exact (hh.files ho).2

theorem Healthy.append (hs : Sound e) (hh : Healthy e) (ht : e.catalog.table? id = some table)
    (ha : table.Appends e.disk disk) : Healthy { e with disk := disk } := by
  have hcount := ha.pageCount_eq (hs.tables ht).2
  refine hh.rewrites hs ht ⟨fun _ hne => ha.content_of_ne hne, hcount ▸ Nat.le_succ _⟩
    (by rw [ha.disk_eq]; rfl) ?_ (hcount ▸ ha.count_lt)
  rw [ha.disk_eq, Disk.length_writeAt_self, Bytes.length_zeros]
  exact Nat.max_lt.mpr ⟨(hh.files ht).1, ha.lt⟩

theorem Explored.healthy (h : Explored tx id e e') (hs : Sound e) (hh : Healthy e) :
    Healthy e' := by
  cases h with
  | within hf => exact hf.healthy hs hh
  | @beyond table e₁ _ disk r ht hf hfull ha hf' =>
    obtain ⟨hs₁, -⟩ := hf.sound hs
    have hh₁ := hf.healthy hs hh
    have ht₁ : e₁.catalog.table? id = some table := hf.same.1 ▸ ht
    have hc : table.pageCount e₁.disk < UInt32.size := hf.same.2 ▸ lt_of_seenFull hs hfull
    rcases appendPage_defined (hh₁.usable _) (hh₁.files ht₁).1 hc ha with rfl | happ
    · exact hf'.healthy hs₁ hh₁
    · exact hf'.healthy (hs₁.append ht₁ happ).1 (Healthy.append hs₁ hh₁ ht₁ happ)

theorem Worked.healthy {events : List Event} (h : Worked tx id e e' events) (hs : Sound e)
    (hh : Healthy e) : Healthy e' := by
  cases h with
  | explored hx => exact hx.healthy hs hh
  | @changed e₁ pid frame page rid values hx hh' hc =>
    have hh₁ := hx.healthy hs hh
    refine ⟨hh₁.cache, fun {p found} hf => ?_, hh₁.handles, hh₁.files⟩
    rw [find?_changePage] at hf
    split at hf
    · cases hf
      have hold := hh₁.frames hh'.cached
      exact hold
    · exact hh₁.frames hf

/-! ## 3. Flushing -/

theorem Healthy.write (hs : Sound e) (hh : Healthy e) (hf : e.cache.find? pid = some frame)
    (ht : e.catalog.table? pid.table = some table) (hw : table.Writes e.disk frame.page disk) :
    Healthy (updatePage { e with disk := disk } pid frame.page.clean) := by
  obtain ⟨hd, hshape, hlt⟩ := rewrites_of_writes hs hf ht hw
  have hpid := hs.proper.keyed hf
  have hcount := hw.pageCount_eq hshape (hpid.symm ▸ hlt)
  have hstop := TableFile.stop_le_length hlt
  have hlen : disk.length table.path = e.disk.length table.path := by
    rw [hw.disk_eq, Disk.length_writeAt_self, Page.length_image, hshape.size_eq, hpid,
      Nat.max_eq_left hstop]
  have hdisk := hh.rewrites hs ht hd (by rw [hw.disk_eq]; rfl) (hlen ▸ (hh.files ht).1)
    (hcount ▸ (hh.files ht).2)
  refine ⟨?_, fun {p found} hp => ?_, hdisk.handles, hdisk.files⟩
  · simp only [updatePage, Cache.update, hf]
    exact hh.cache
  · rw [find?_updatePage] at hp
    split at hp
    · obtain ⟨old, hold, rfl⟩ := Option.map_eq_some_iff.mp hp
      have hsame := hh.frames hold
      exact hsame
    · exact hh.frames hp

/-- **A page that ends at a position can be written there.** -/
theorem writePage_of_lt (hown : page.pid.table = table.id)
    (husable : disk.isUsable table.handle = true)
    (hlt : page.pid.offset table.pageSize + page.size < Disk.positions) :
    table.writePage disk page
        = (disk.writeAt table.path (page.pid.offset table.pageSize) page.image, .ok ())
      ∧ table.Writes disk page
        (disk.writeAt table.path (page.pid.offset table.pageSize) page.image) := by
  have hwrite : page.pid.offset table.pageSize + page.image.length < Disk.positions := by
    rwa [Page.length_image]
  have hoffset : isSize (page.pid.offset table.pageSize) = true := by
    apply isSize_of_lt
    omega
  refine ⟨?_, hown, husable, rfl, hwrite⟩
  unfold TableFile.writePage TableFile.own TableFile.seekPage PageId.offset? TableFile.writeBytes
  rw [if_pos hown]
  simp only [husable, if_true, hoffset]
  rw [Disk.write_of_lt _ _ hwrite]

/-- **A cached page can always be written.** -/
theorem flushPage_healthy (hs : Sound e) (hh : Healthy e) (pid : PageId) :
    ∃ e', e.flushPage pid = (e', .ok ()) ∧ Healthy e' := by
  cases hf : e.cache.find? pid with
  | none =>
    refine ⟨e, ?_, hh⟩
    unfold flushPage inCache
    simp only [hh.cache, Bool.false_eq_true, if_false, hf]
  | some frame =>
    obtain ⟨table, ht, hshape, hlt, -⟩ := hs.lodged hf
    have hpid := hs.proper.keyed hf
    have hstop := TableFile.stop_le_length hlt
    have hown : frame.page.pid.table = table.id := by
      rw [hpid, (hs.tables ht).1]
    have hin : frame.page.pid.offset table.pageSize + frame.page.size ≤ e.disk.length table.path := by
      rwa [hpid, hshape.size_eq]
    obtain ⟨hdone, hw⟩ := 
      writePage_of_lt hown (hh.usable _) (Nat.lt_of_le_of_lt hin (hh.files ht).1)
    refine ⟨_, ?_, hh.write hs hf ht hw⟩
    unfold flushPage inCache Catalog.lookup Frame.use writeBack
    simp only [hh.cache, hh.frames hf, Bool.false_eq_true, if_false, hf, ht, hdone]

/-- **Flushing pages of a healthy store goes through.** -/
theorem flushEach_healthy : ∀ (pids : List PageId) {e : Engine}, Sound e → Healthy e →
    ∃ e', flushEach pids e = (e', .ok ()) ∧ Healthy e'
  | [], e, _, hh => ⟨e, rfl, hh⟩
  | pid :: pids, e, hs, hh => by
    obtain ⟨e₁, hp, hh₁⟩ := flushPage_healthy hs hh pid
    obtain ⟨e', htail, hh'⟩ := flushEach_healthy pids (hs.flushPage hp).1 hh₁
    refine ⟨e', ?_, hh'⟩
    rw [flushEach, hp]
    exact htail

/-! ## 4. Reverting -/

/-- **Reverting a page returns**, also when the page cannot be read again. -/
theorem revertPage_healthy {r : Except Failure Unit} (hs : Sound e) (hh : Healthy e)
    (h : e.revertPage pid = (e', r)) : Returned r ∧ Healthy e' := by
  have hleft : ∀ {p : PageId} {found : Frame}, (e.cache.remove pid).find? p = some found →
      found.spoiled = false := fun {p found} hf => by
    rw [Cache.find?_remove] at hf
    split at hf
    · cases hf
    · exact hh.frames hf
  have hcache : (e.cache.remove pid).spoiled = false := (Cache.spoiled_remove ..).trans hh.cache
  rcases revertPage_cases h with ⟨page, hr, rfl, rfl⟩ | ⟨f, hr, rfl, rfl⟩
  · refine ⟨returned_ok _, hcache, fun {p found} hf => ?_, hh.handles, hh.files⟩
    simp only [Cache.find?_load] at hf
    split at hf
    · cases hf
      rfl
    · exact hleft hf
  · have hdefined := readPage_defined (fun ht => (hs.tables ht).2) hh.handles hr
    exact ⟨returned_error_iff.mpr hdefined, hcache, hleft, hh.handles, hh.files⟩

theorem revertEach_healthy : ∀ {pids : List PageId} {e e' : Engine} {r : Except Failure Unit},
    Sound e → Healthy e → revertEach pids e = (e', r) → Returned r ∧ Healthy e'
  | [], e, e', r, _, hh, h => by
    cases h
    exact ⟨returned_ok _, hh⟩
  | pid :: pids, e, e', r, hs, hh, h => by
    unfold revertEach at h
    split at h
    · rename_i e₁ _ hp
      exact revertEach_healthy (hs.revertPage hp).1 (revertPage_healthy hs hh hp).2 h
    · rename_i e₁ f hp
      obtain ⟨hr, hh₁⟩ := revertPage_healthy hs hh hp
      have hf := returned_error_iff.mp hr
      simp only [hf, Bool.false_eq_true, if_false] at h
      cases htail : revertEach pids e₁ with
      | mk e₂ rest =>
        rw [htail] at h
        cases h
        obtain ⟨hrest, hh₂⟩ := revertEach_healthy (hs.revertPage hp).1 hh₁ htail
        exact ⟨(returned_followedBy_iff hf).mpr hrest, hh₂⟩

/-! ## 5. Completing -/

theorem findChanged_healthy (hs : Sound e) (hh : Healthy e) (tx : Tx) :
    e.cache.findChanged tx = .ok (e.cache.changedBy tx) :=
  hs.proper.findChanged_eq_ok_iff.mpr ⟨hh.frames, rfl⟩

/-- **A commit on a healthy store goes through.** -/
theorem commit_healthy (hs : Sound e) (hh : Healthy e) (tx : Tx) :
    ∃ e', e.complete tx true = (e', .ok ()) ∧ Healthy e' := by
  obtain ⟨e₁, hflush, hh₁⟩ := flushEach_healthy (e.cache.changedBy tx) hs hh
  refine ⟨{ e₁ with locks := e₁.locks.releaseAll tx }, ?_, ⟨hh₁.cache, hh₁.frames, hh₁.handles,
    hh₁.files⟩⟩
  unfold complete conclude settle flushChanged inCache
  simp only [hh.cache, findChanged_healthy hs hh, Bool.false_eq_true, if_false, if_true, hflush]

/-- **An abort on a healthy store returns.** -/
theorem abort_healthy {r : Except Failure Unit} (hs : Sound e) (hh : Healthy e)
    (h : e.complete tx false = (e', r)) : Returned r ∧ Healthy e' := by
  cases hrevert : revertEach (e.cache.changedBy tx) e with
  | mk e₁ result =>
    obtain ⟨hret, hh₁⟩ := revertEach_healthy hs hh hrevert
    have hreleased : Healthy { e₁ with locks := e₁.locks.releaseAll tx } :=
      ⟨hh₁.cache, hh₁.frames, hh₁.handles, hh₁.files⟩
    unfold complete conclude revertChanged inCache at h
    simp only [hh.cache, findChanged_healthy hs hh, Bool.false_eq_true, if_false, hrevert] at h
    cases result with
    | ok a =>
      cases h
      exact ⟨returned_ok _, hreleased⟩
    | error f =>
      have hf := returned_error_iff.mp hret
      simp only [hf, Bool.false_eq_true, if_false] at h
      cases h
      exact ⟨hret, hreleased⟩

end RowStore.Engine
