import RowStore.Proofs.Rollback

/-!
# A store over sane files never stops

An operation stops in the middle where it meets something spoiled, or a position that is no number
any more.  Where all tables have pages of one size, every page that is cached lies inside its file,
and the file ends at a position (`Disk.Sane`); so no operation stops, nothing is ever spoiled
(`Engine.Sane`), and every completion returns, with an answer or a failure.

`Healthy` says the same of the tables that are registered, in stores where every cached page belongs
to one of them.  Here tables may be taken out of the catalog and put back while their pages are
cached.  Main statements: `Run.sane` and `Engine.Sane.complete_returned`.
-/

namespace RowStore

/-- **No handle is spoiled, and every file ends at a position.** -/
structure Disk.Sane (d : Disk) : Prop where
  handles : d.spoiled = []
  short : ∀ path, d.length path < positions

namespace Engine

variable {e e' e₁ : Engine} {tx : Tx} {pid : PageId} {pids : List PageId} {frame : Frame}
  {table : TableFile} {id : TableId} {disk : Disk} {events : List Event} {commit : Bool}
  {r : Except Failure Unit}

/-- **Nothing is spoiled**, and every file ends at a position. -/
structure Sane (e : Engine) : Prop where
  cache : e.cache.Intact
  disk : e.disk.Sane

/-! ## 1. Requests and changes -/

/-- **The pages of all registered tables have room for a row.** -/
def Roomy (e : Engine) : Prop :=
  ∀ ⦃id : TableId⦄ ⦃table : TableFile⦄, e.catalog.table? id = some table → table.Roomy

theorem Uniform.roomy (hu : Uniform e) : Roomy e := fun _ _ ht => (hu.tables ht).roomy

theorem Roomy.congr (hr : Roomy e) (h : e'.catalog = e.catalog) : Roomy e' :=
  fun _ _ ht => hr (h ▸ ht)

theorem Roomy.readPage_defined {f : Failure} (hr : Roomy e) (hs : Sane e)
    (h : e.readPage pid = .error f) : f.isUndefined = false :=
  Engine.readPage_defined (fun ht => hr ht) hs.disk.handles h

/-- A page that is loaded is not spoiled, and making room spoils none. -/
theorem FetchStep.sane (h : FetchStep tx e e') (hp : e.cache.Proper) (hroomy : Roomy e)
    (hs : Sane e) : Sane e' := by
  cases h with
  | lock _ _ _ => exact ⟨hs.cache, hs.disk⟩
  | @load loaded page cache hn hr hm =>
    refine ⟨⟨(spoiled_of_makeRoom hm).trans hs.cache.usable, fun {p found} hf => ?_⟩, hs.disk⟩
    simp only [Cache.find?_load] at hf
    split at hf
    · cases hf
      rfl
    · rcases makeRoom_eq_ok hp hm with rfl | ⟨victim, old, -, -, rfl⟩
      · exact hs.cache.frames hf
      · exact hs.cache.frames (find?_of_remove hf)
  | spoil hwhy hd =>
    have hdefined := hwhy.elim (hroomy.readPage_defined hs) fun hm =>
      isUndefined_of_storage (makeRoom_eq_error hs.cache.frames hm).2.2
    exact Bool.noConfusion (hd.symm.trans hdefined)

theorem Fetches.sane (h : Fetches tx e e') (ho : Orderly e) (hroomy : Roomy e) (hs : Sane e) :
    Sane e' := by
  induction h with
  | refl => exact hs
  | tail hr hstep ih =>
    have ho' := Fetches.orderly hr ho
    exact hstep.sane ho'.proper (hroomy.congr (Fetches.same hr).1) ih

/-- A page is appended only where the file then still ends at a position. -/
theorem Disk.Sane.append {r : Except Failure PageId} (hs : disk.Sane)
    (hc : table.pageCount disk < UInt32.size) {disk' : Disk}
    (h : table.appendPage disk = (disk', r)) : disk'.Sane := by
  rcases appendPage_defined (isUsable_of_none hs.handles _) (hs.short _) hc h with rfl | ha
  · exact hs
  · refine ⟨by rw [ha.disk_eq]; exact hs.handles, fun path => ?_⟩
    by_cases hp : path = table.path
    · rw [hp, ha.disk_eq, Disk.length_writeAt_self, Bytes.length_zeros]
      exact Nat.max_lt.mpr ⟨hs.short _, ha.lt⟩
    · rw [← Disk.length_content, ha.content_of_ne hp, Disk.length_content]
      exact hs.short path

theorem Explored.sane (h : Explored tx id e e') (ho : Orderly e) (hroomy : Roomy e)
    (hs : Sane e) : Sane e' := by
  cases h with
  | within hf => exact hf.sane ho hroomy hs
  | @beyond table e₁ _ disk r ht hf hfull ha hf' =>
    have hs₁ := hf.sane ho hroomy hs
    have hcount : table.pageCount e₁.disk < UInt32.size := hf.same.2 ▸ ho.lt_of_seenFull hfull
    have hmove : Move e₁ { e₁ with disk := disk } := .append (hf.same.1 ▸ ht) hcount ha
    exact hf'.sane (hmove.orderly (hf.orderly ho)) (hroomy.congr hf.same.1)
      ⟨hs₁.cache, Disk.Sane.append hs₁.disk hcount ha⟩

theorem Worked.sane (h : Worked tx id e e' events) (ho : Orderly e) (hroomy : Roomy e)
    (hs : Sane e) : Sane e' := by
  cases h with
  | explored hx => exact hx.sane ho hroomy hs
  | @changed e₁ pid frame page rid values hx hh hc =>
    have hs₁ := hx.sane ho hroomy hs
    refine ⟨⟨hs₁.cache.usable, fun {p found} hf => ?_⟩, hs₁.disk⟩
    rw [find?_changePage] at hf
    split at hf
    · cases hf
      have hspoiled := hs₁.cache.frames hh.cached
      exact hspoiled
    · exact hs₁.cache.frames hf

/-! ## 2. Flushing -/

/-- **A flush of a page returns**: it is not cached, or its table is not registered, or it is
written. -/
theorem Sane.flushPage_returned (hs : Sane e) (ho : Orderly e) (hu : Uniform e)
    (h : e.flushPage pid = (e', r)) : Returned r := by
  unfold flushPage inCache at h
  simp only [hs.cache.usable, Bool.false_eq_true, if_false] at h
  cases hf : e.cache.find? pid with
  | none =>
    simp only [hf] at h
    cases h
    exact returned_ok _
  | some frame =>
    cases ht : e.catalog.table? pid.table with
    | none =>
      simp only [hf, Catalog.lookup, ht] at h
      cases h
      exact returned_error_iff.mpr rfl
    | some table =>
      have hid := (hu.tables ht).id_eq
      obtain ⟨hpage, path, hin⟩ := hu.cached hf
      have hkeyed := ho.proper.keyed hf
      have hlt : frame.page.pid.offset table.pageSize + frame.page.size < Disk.positions := by
        rw [hkeyed, (hu.tables ht).pageSize_eq, hpage]
        exact Nat.lt_of_le_of_lt hin (hs.disk.short path)
      have hdone := (writePage_of_lt (hkeyed ▸ hid.symm)
        (isUsable_of_none hs.disk.handles table.handle) hlt).1
      simp only [hf, Catalog.lookup, ht, Frame.use, hs.cache.frames hf, Bool.false_eq_true,
        if_false, writeBack, hdone] at h
      cases h
      exact returned_ok _

/-- **Settling makes no file longer than all files were**, whatever ids the tables have: a page that
is written ends where some file did. -/
theorem SettleStep.length_le_some (h : SettleStep e e') (hp : e.cache.Proper) (hu : Uniform e)
    (path : Path) : ∃ other, e'.disk.length path ≤ e.disk.length other := by
  cases h with
  | @write pid frame table disk hf ht hw =>
    obtain ⟨hsize, other, hin⟩ := hu.cached hf
    by_cases hpath : path = table.path
    · have hlength : disk.length path = max (e.disk.length path)
          (pid.offset e.config.pageSize + e.config.pageSize) := by
        rw [hpath, hw.disk_eq, Disk.length_writeAt_self, hp.keyed hf, (hu.tables ht).pageSize_eq,
          Page.length_image, hsize]
      rcases Nat.le_total (e.disk.length path) (e.disk.length other) with hle | hle
      · exact ⟨other, Nat.le_trans (Nat.le_of_eq hlength) (Nat.max_le.mpr ⟨hle, hin⟩)⟩
      · exact ⟨path, Nat.le_trans (Nat.le_of_eq hlength)
          (Nat.max_le.mpr ⟨Nat.le_refl _, Nat.le_trans hin hle⟩)⟩
    · refine ⟨path, Nat.le_of_eq ?_⟩
      have hsame : disk.content path = e.disk.content path := hw.content_of_ne hpath
      exact (Disk.length_content disk path).symm.trans (hsame ▸ Disk.length_content e.disk path)
  | revert hr _ => exact ⟨path, Nat.le_of_eq (by rw [(revertPage_recached hr).disk_eq])⟩
  | halt hh => exact ⟨path, Nat.le_of_eq (Disk.length_congr (content_of_files hh.files_eq) path)⟩

theorem Settles.length_le_some (h : Settles e e') (ho : Orderly e) (hu : Uniform e) (path : Path) :
    ∃ other, e'.disk.length path ≤ e.disk.length other := by
  induction h generalizing path with
  | refl => exact ⟨path, Nat.le_refl _⟩
  | tail hr hs ih =>
    have hmoves := Settles.moves hr
    obtain ⟨middle, hle⟩ :=
      hs.length_le_some (hmoves.orderly ho).proper (hmoves.uniform ho hu) path
    obtain ⟨other, hle'⟩ := ih middle
    exact ⟨other, Nat.le_trans hle hle'⟩

/-- What was flushed and returned has spoiled nothing, and no file is longer than all were. -/
theorem sane_of_flushEach (hs : Sane e) (ho : Orderly e) (hu : Uniform e)
    (h : flushEach pids e = (e', r)) (hr : Returned r) : Sane e' := by
  obtain ⟨written, -, e₁, -, hw, -, hret, -⟩ := flushEach_written h
  obtain rfl := hret hr
  refine ⟨hw.intact hs.cache, hw.handles_eq.trans hs.disk.handles, fun path => ?_⟩
  obtain ⟨other, hle⟩ := Settles.length_le_some (flushEach_settles h) ho hu path
  exact Nat.lt_of_le_of_lt hle (hs.disk.short other)

theorem Sane.flushEach_returned (hs : Sane e) (ho : Orderly e) (hu : Uniform e)
    (h : flushEach pids e = (e', r)) : Returned r := by
  induction pids generalizing e with
  | nil =>
    cases h
    exact returned_ok _
  | cons pid pids ih =>
    rcases flushEach_cons_cases h with ⟨f, hp, rfl⟩ | ⟨e₁, hp, hrest⟩
    · have hreturned := hs.flushPage_returned ho hu hp
      exact returned_error_iff.mpr (returned_error_iff.mp hreturned)
    · have hmoves := (flushPage_settles hp).moves
      have hone : flushEach [pid] e = (e₁, .ok ()) := by
        simp only [flushEach, hp]
      exact ih (sane_of_flushEach hs ho hu hone (returned_ok _)) (hmoves.orderly ho)
        (hmoves.uniform ho hu) hrest

/-! ## 3. Completing -/

/-- A revert stops only at a page whose reading is undefined. -/
theorem revertEach_returned
    (hread : ∀ {pid : PageId} {f : Failure}, e.readPage pid = .error f → f.isUndefined = false)
    (h : revertEach pids e = (e', r)) : Returned r := by
  induction pids generalizing e r with
  | nil =>
    cases h
    exact returned_ok _
  | cons pid pids ih =>
    rcases revertEach_cons_cases h with ⟨f, hp, rfl, hf⟩ | ⟨e₁, r₁, r₂, hp, hrest, hiff, -⟩
    · rcases revertPage_cases hp with ⟨_, -, -, hr⟩ | ⟨g, hfail, -, hr⟩
      · cases hr
      · cases hr
        exact Bool.noConfusion (hf.symm.trans (hread hfail))
    · have hsame := revertPage_recached hp
      refine hiff.mpr (ih (fun {pid f} hfail => ?_) hrest)
      rw [readPage_congr hsame.catalog_eq hsame.disk_eq] at hfail
      exact hread hfail

/-- Where nothing is spoiled, flushing a transaction's pages is flushing one after the other. -/
theorem flushChanged_eq (hp : e.cache.Proper) (hi : e.cache.Intact) :
    e.flushChanged tx = flushEach (e.cache.changedBy tx) e := by
  have hfound := hp.findChanged_eq_ok_iff.mpr ⟨hi.frames, Eq.refl (e.cache.changedBy tx)⟩
  unfold flushChanged inCache
  simp only [hi.usable, hfound, Bool.false_eq_true, if_false]

theorem revertChanged_returned (hs : Sane e) (ho : Orderly e) (hu : Uniform e)
    (h : e.revertChanged tx = (e', r)) : Returned r := by
  have hfound := ho.proper.findChanged_eq_ok_iff.mpr
    ⟨hs.cache.frames, Eq.refl (e.cache.changedBy tx)⟩
  unfold revertChanged inCache at h
  simp only [hs.cache.usable, hfound, Bool.false_eq_true, if_false] at h
  rcases hrevert : revertEach (e.cache.changedBy tx) e with ⟨e₁, f | u⟩
  · rw [hrevert] at h
    cases h
    exact fun g hg => revertEach_returned (hu.roomy.readPage_defined hs) hrevert g hg
  · rw [hrevert] at h
    cases h
    exact returned_ok _

/-- **Every completion returns.** -/
theorem Sane.complete_returned (hs : Sane e) (ho : Orderly e) (hu : Uniform e)
    (h : e.complete tx commit = (e', r)) : Returned r := by
  have hconclude : ∀ {e₁ : Engine} {result : Except Failure Unit},
      e.conclude tx commit = (e₁, result) → Returned result := by
    intro e₁ result hc
    unfold conclude at hc
    split at hc
    · unfold settle at hc
      rw [flushChanged_eq ho.proper hs.cache] at hc
      rcases hflush : flushEach (e.cache.changedBy tx) e with ⟨e₂, f | u⟩
      · have hreturned := hs.flushEach_returned ho hu hflush
        have hmoves := (flushEach_settles hflush).moves
        have hs₂ := sane_of_flushEach hs ho hu hflush hreturned
        have hd := returned_error_iff.mp hreturned
        simp only [hflush, hd, Bool.false_eq_true, if_false] at hc
        rcases hv : e₂.revertChanged tx with ⟨e₃, rest⟩
        rw [hv] at hc
        cases hc
        exact (returned_followedBy_iff hd).mpr
          (revertChanged_returned hs₂ (hmoves.orderly ho) (hmoves.uniform ho hu) hv)
      · rw [hflush] at hc
        cases hc
        exact returned_ok _
    · exact revertChanged_returned hs ho hu hc
  unfold complete at h
  rcases hc : e.conclude tx commit with ⟨e₁, f | u⟩
  · rw [hc] at h
    cases h
    exact fun g hg => hconclude hc g hg
  · rw [hc] at h
    cases h
    exact returned_ok _

theorem sane_of_complete (hs : Sane e) (ho : Orderly e) (hu : Uniform e)
    (h : e.complete tx commit = (e', r)) : Sane e' := by
  have hshort : ∀ path, e'.disk.length path < Disk.positions := fun path => by
    obtain ⟨e₁, hsettles, hend⟩ := complete_cases ho.proper h
    obtain ⟨other, hle⟩ := hsettles.length_le_some ho hu path
    have hdisk : e'.disk = e₁.disk := by
      rcases hend with ⟨-, -, rfl⟩ | ⟨-, rfl⟩ <;> rfl
    exact hdisk ▸ Nat.lt_of_le_of_lt hle (hs.disk.short other)
  obtain ⟨written, dropped, rest, e₁, _, e₂, hres, -, -, -, ⟨-, -, rfl, rfl⟩ | ⟨hn, -⟩⟩ :=
    complete_resolves ho.proper h
  · refine ⟨hres.rereads.intact (hres.writes.intact hs.cache), ?_, hshort⟩
    show e₂.disk.spoiled = []
    rw [hres.rereads.disk_eq, hres.writes.handles_eq]
    exact hs.disk.handles
  · exact absurd (hs.complete_returned ho hu h) hn

/-! ## 4. Runs -/

theorem spoiled_createTable (e : Engine) (file name : String) (schema : Schema) :
    (e.createTable file name schema).1.disk.spoiled = e.disk.spoiled := by
  unfold createTable
  split
  · rename_i d f ho
    exact (openAt_cases ho).2.1
  · rename_i d table ho
    exact (openAt_cases ho).2.1

/-- **No call spoils anything**, if tables are registered with pages of the store's size only. -/
theorem Sane.call {c : Call} (hs : Sane e) (ho : Orderly e) (hu : Uniform e)
    (h : e.call c = (e', events)) : Sane e' := by
  by_cases hrows : c.OnRows
  · obtain ⟨tx, id, hw⟩ := worked_of_call ho.proper hrows h
    exact hw.sane ho hu.roomy hs
  cases c with
  | complete tx commit =>
    cases h
    exact sane_of_complete hs ho hu rfl
  | flushPage pid =>
    cases h
    have hone : flushEach [pid] e = e.flushPage pid := by
      rcases hp : e.flushPage pid with ⟨e₁, f | u⟩ <;> simp only [flushEach, hp]
    rcases hp : e.flushPage pid with ⟨e₁, result⟩
    exact sane_of_flushEach hs ho hu (hone.trans hp) (hs.flushPage_returned ho hu hp)
  | flushChanged tx =>
    cases h
    rw [flushChanged_eq ho.proper hs.cache]
    exact sane_of_flushEach hs ho hu rfl (hs.flushEach_returned ho hu rfl)
  | flushAll =>
    cases h
    have hall : e.flushAll = flushEach e.cache.pids e := by
      unfold flushAll inCache
      simp only [hs.cache.usable, Bool.false_eq_true, if_false]
    rw [hall]
    exact sane_of_flushEach hs ho hu rfl (hs.flushEach_returned ho hu rfl)
  | removePage pid =>
    cases h
    rcases e.removePage_cases pid with he | he <;> rw [he]
    · exact hs
    · exact ⟨⟨(e.cache.spoiled_remove pid).trans hs.cache.usable,
        fun hf => hs.cache.frames (find?_of_remove hf)⟩, hs.disk⟩
  | createTable file name schema =>
    cases h
    have hopens := e.createTable_opens file name schema
    refine ⟨hopens.cache_eq ▸ hs.cache, ?_, fun path => ?_⟩
    · exact (e.spoiled_createTable file name schema).trans hs.disk.handles
    · rw [Disk.length_congr hopens.content_eq]
      exact hs.disk.short path
  | clear =>
    cases h
    rcases e.clear_cases with he | he <;> rw [he]
    · exact hs
    · exact ⟨⟨hs.cache.usable, fun hf => by cases hf⟩, hs.disk⟩
  | register | unregister | forgetTables | releasePage =>
    cases h
    exact ⟨hs.cache, hs.disk⟩
  | _ => exact absurd trivial hrows

theorem sane_new (config : Config) (h : disk.Sane) : Sane { config := config, disk := disk } :=
  ⟨⟨rfl, fun hf => by cases hf⟩, h⟩

end Engine

open Engine

/-- **Nothing is ever spoiled** in a store over sane files, as long as all tables have pages of its
own size. -/
theorem Run.sane {config : Config} {disk : Disk} {e : Engine} {log : List Event}
    (h : Run (fun e c => c.OneSize e) { config := config, disk := disk } e log) (hd : disk.Sane) :
    Sane e := by
  have ho := orderly_new config disk
  have hu := uniform_new config disk
  induction h with
  | nil => exact sane_new config hd
  | call c hr _ he ih => exact ih.call (Run.orderly ho hr) (Run.uniform ho hu hr) he

end RowStore
