import RowStore.Proofs.Sanity

/-!
# Room is made by clean pages only

A cache keeps its pages under their ids, and beside them a queue of the ids.  Every operation has to
look after both; by induction over the calls, the queue lists exactly what is cached, each page
once, and there is no more than the capacity allows (`Cache.Balanced`).

A page that is requested and not cached takes the place of the oldest clean page, when the cache is
full.  Where every page has changes the request fails, and the cache stays as it is
(`Engine.Displaces`).  A page with changes is never dropped to make room: it leaves when it is
removed by name, when the whole cache is cleared, or when its own transaction completes and it
cannot be read again (`Orderly.left`).

Main statement: `cache_never_steals`.  Whether a search for a victim meets a spoiled page on its way
does not matter there, since none is ever spoiled over sane files (`Run.sane`).
-/

namespace RowStore

/-! ## 1. The map and the queue -/

/-- **The queue and the map agree**: the queue lists exactly the ids under which pages are kept, each
once; every page is under its own id, and there are no more than the capacity. -/
structure Cache.Balanced (capacity : Nat) (c : Cache) : Prop where
  nodup : c.pids.Nodup
  mem_pids_iff : ∀ pid, pid ∈ c.pids ↔ (c.find? pid).isSome
  length_pids : c.pids.length = c.size
  keyed : ∀ {pid : PageId} {frame : Frame}, c.find? pid = some frame → frame.page.pid = pid
  size_le : c.size ≤ capacity

theorem Engine.Orderly.balanced {e : Engine} (ho : e.Orderly) : e.cache.Balanced e.config.pages where
  nodup := ho.proper.nodup
  mem_pids_iff _ := ho.proper.mem_pids_iff
  length_pids := ho.proper.size_eq_length_pids.symm
  keyed := ho.proper.keyed
  size_le := ho.fits

namespace Cache.Proper

variable {c d : Cache}

/-- **What leaves to make room** is the first page in the order that is clean; the others close
up. -/
theorem evict_displaces (h : c.Proper) (he : c.evict = .ok d) :
    ∃ before victim after, c.pids = before ++ victim :: after
      ∧ (∃ frame, c.find? victim = some frame ∧ frame.page.dirty = none)
      ∧ (∀ p ∈ before, ∃ frame, c.find? p = some frame ∧ frame.page.dirty ≠ none)
      ∧ d = c.remove victim ∧ d.pids = before ++ after := by
  have hvictim : ∃ victim, c.victim? = some victim ∧ d = c.remove victim := by
    unfold evict at he
    split at he
    · cases he
    · split at he
      · rename_i victim hv
        cases he
        exact ⟨victim, hv, rfl⟩
      · split at he <;> cases he
  obtain ⟨victim, hv, rfl⟩ := hvictim
  obtain ⟨before, after, hpids, hclean, hchanged⟩ := h.victim?_eq_some_iff.mp hv
  refine ⟨before, victim, after, hpids, hclean, hchanged, rfl, ?_⟩
  have hnodup := h.nodup
  rw [hpids, List.nodup_append] at hnodup
  obtain ⟨-, hafter, hdisjoint⟩ := hnodup
  rw [h.pids_remove, hpids, List.filter_append, List.filter_cons]
  simp only [ne_eq, not_true_eq_false, decide_false, Bool.false_eq_true, if_false]
  refine congrArg₂ _ (List.filter_eq_self.mpr fun p hp => ?_)
    (List.filter_eq_self.mpr fun p hp => ?_)
  · exact decide_eq_true (hdisjoint p hp victim List.mem_cons_self)
  · refine decide_eq_true fun he => ?_
    exact (List.nodup_cons.mp hafter).1 (he ▸ hp)

end Cache.Proper

namespace Engine

variable {e e' : Engine} {tx owner : Tx} {access : Access} {pid : PageId} {page : Page}
  {frame : Frame} {locks : LockTable} {commit : Bool} {events : List Event}

/-! ## 2. Requests that miss in a full cache -/

/-- **A page takes the place of another one**, or there is no place for it. -/
structure Displaces (e : Engine) (pid : PageId) (page : Page) (e' : Engine)
    (r : Except Failure Frame) : Prop where
  /-- The request fails exactly if no cached page is clean. -/
  fails_iff : (∃ f, r = .error f)
    ↔ ∀ p frame, e.cache.find? p = some frame → frame.page.dirty ≠ none
  /-- Then it is a failure of storage, and the cache is as it was. -/
  failed : ∀ f, r = .error f → f.kind = .storage ∧ e'.cache = e.cache
  /-- Otherwise the clean page nearest to the front has left, the page is cached at the back, and
  all others are where and what they were. -/
  displaced : ∀ frame, r = .ok frame → frame.page = page
    ∧ ∃ before victim after, e.cache.pids = before ++ victim :: after
      ∧ (∃ old, e.cache.find? victim = some old ∧ old.page.dirty = none)
      ∧ (∀ p ∈ before, ∃ old, e.cache.find? p = some old ∧ old.page.dirty ≠ none)
      ∧ e'.cache.pids = before ++ after ++ [pid]
      ∧ e'.cache.find? pid = some frame
      ∧ ∀ p ∈ before ++ after, e'.cache.find? p = e.cache.find? p

theorem bringIn_displaces {r : Except Failure Frame} (hp : e.cache.Proper) (hi : e.cache.Intact)
    (hmiss : e.cache.find? pid = none) (hread : e.readPage pid = .ok page)
    (hfull : e.config.pages ≤ e.cache.size) (h : e.bringIn pid = (e', r)) :
    Displaces e pid page e' r := by
  have hmake : e.makeRoom = e.cache.evict := if_pos hfull
  rcases bringIn_cases h with ⟨-, frame, hf, -⟩ | ⟨rfl, -, f, rfl, hfail⟩
    | ⟨-, page', cache, hread', hm, rfl, rfl⟩
  · rw [hmiss] at hf
    cases hf
  · -- the page can be read, so it is the room that is missing
    have hm : e'.makeRoom = .error f := hfail.resolve_left fun hr => by
      rw [hread] at hr
      cases hr
    obtain ⟨-, hvictim, hkind⟩ := makeRoom_eq_error hi.frames hm
    refine ⟨⟨fun _ => hp.victim?_eq_none_iff.mp hvictim, fun _ => ⟨f, rfl⟩⟩, ?_, ?_⟩
    · intro g hg
      cases hg
      exact ⟨hkind, rfl⟩
    · intro frame hframe
      cases hframe
  · obtain rfl : page = page' := Except.ok.inj (hread.symm.trans hread')
    obtain ⟨before, victim, after, hpids, hclean, hchanged, hcache, hleft⟩ :=
      hp.evict_displaces (hmake.symm.trans hm)
    have hmissing : cache.find? pid = none := by
      rw [hcache, Cache.find?_remove, hmiss]
      split <;> rfl
    have hnot : pid ∉ cache.pids := fun hin => by
      rw [(hcache ▸ hp.remove victim : cache.Proper).mem_pids_iff, hmissing] at hin
      cases hin
    refine ⟨⟨fun ⟨f, hf⟩ => (by cases hf), fun hall => ?_⟩, fun f hf => (by cases hf), ?_⟩
    · obtain ⟨old, hold, hd⟩ := hclean
      exact absurd hd (hall victim old hold)
    · intro frame hframe
      cases hframe
      refine ⟨rfl, before, victim, after, hpids, hclean, hchanged, ?order, ?loaded, ?others⟩
      case order => rw [Cache.pids_load_of_missing page hmissing, hleft]
      case loaded => simp only [Cache.find?_load, if_true]
      case others =>
        intro p hm
        have hne : p ≠ pid := by
          rintro rfl
          exact hnot (hleft.symm ▸ hm)
        have hkept : p ∈ cache.pids := hleft.symm ▸ hm
        rw [hcache, hp.pids_remove] at hkept
        have hvictim : p ≠ victim := by simpa using (List.mem_filter.mp hkept).2
        simp only [Cache.find?_load, if_neg hne, hcache, Cache.find?_remove, if_neg hvictim]

/-- **A request whose lock is granted and whose page can be read** makes room by the oldest clean
page, or fails. -/
theorem fetch_displaces {r : Except Failure Frame} (hp : e.cache.Proper) (hi : e.cache.Intact)
    (hgranted : e.locks.acquire tx access.mode pid = (locks, true))
    (hmiss : e.cache.find? pid = none) (hread : e.readPage pid = .ok page)
    (hfull : e.config.pages ≤ e.cache.size) (h : e.fetch tx access pid = (e', r)) :
    Displaces e pid page e' r := by
  rcases fetch_cases h with ⟨-, -, hdenied⟩ | ⟨locks', ha, hin⟩
  · rw [hgranted] at hdenied
    cases hdenied
  · obtain ⟨rfl, -⟩ := Prod.mk.inj (hgranted.symm.trans ha)
    have hbring : ∀ {d : Engine} {result : Except Failure Frame},
        bringIn { e with locks := locks } pid = (d, result) →
        Displaces { e with locks := locks } pid page d result :=
      fun hb => bringIn_displaces hp hi hmiss hread hfull hb
    rcases inCache_cases hin with ⟨hs, -, -⟩ | ⟨-, frame, hb, rfl⟩ | ⟨-, f, e₁, hb, rfl, he⟩
    · exact Bool.noConfusion (hi.usable.symm.trans hs)
    · have hd := hbring hb
      exact ⟨hd.fails_iff, hd.failed, hd.displaced⟩
    · have hd := hbring hb
      have hdefined := isUndefined_of_storage (hd.failed f rfl).1
      rcases he with ⟨-, rfl⟩ | ⟨hundefined, -⟩
      · exact ⟨hd.fails_iff, hd.failed, hd.displaced⟩
      · exact Bool.noConfusion (hundefined.symm.trans hdefined)

/-! ## 3. Where changed pages leave -/

/-- A flush moves no page in or out. -/
theorem flushEach_pids {pids : List PageId} {r : Except Failure Unit}
    (h : flushEach pids e = (e', r)) : e'.cache.pids = e.cache.pids := by
  obtain ⟨_, _, e₁, -, hw, hh, -, -⟩ := flushEach_written h
  exact hh.pids_eq.trans hw.pids_eq

theorem flushChanged_pids {r : Except Failure Unit} (h : e.flushChanged tx = (e', r)) :
    e'.cache.pids = e.cache.pids := by
  rcases flushChanged_cases h with ⟨hh, -⟩ | hflush
  · exact hh.pids_eq
  · exact flushEach_pids hflush

theorem flushPage_pids {r : Except Failure Unit} (h : e.flushPage pid = (e', r)) :
    e'.cache.pids = e.cache.pids := by
  rcases flushPage_cases h with ⟨rfl, -⟩ | ⟨frame, table, disk, -, -, -, rfl, -⟩ | ⟨hh, -⟩
  · rfl
  · exact e.cache.pids_update pid _
  · exact hh.pids_eq

theorem flushAll_pids {r : Except Failure Unit} (h : e.flushAll = (e', r)) :
    e'.cache.pids = e.cache.pids := by
  rcases flushAll_cases h with rfl | hflush
  · rfl
  · exact flushEach_pids hflush

/-- A call that looks at rows or changes them keeps every changed page. -/
theorem Worked.keeps {id : TableId} (h : Worked tx id e e' events) (ho : Orderly e)
    (hf : e.cache.find? pid = some frame) (hd : frame.page.dirty ≠ none) :
    (e'.cache.find? pid).isSome := by
  have hexplored : ∀ {e₁ : Engine}, Explored tx id e e₁ → e₁.cache.find? pid = some frame := by
    intro e₁ hx
    cases hx with
    | within hfetch => exact hfetch.find?_dirty ho.proper hf hd
    | beyond _ hfetch _ _ hfetch' =>
      have hproper := hfetch.proper ho.proper
      exact hfetch'.find?_dirty hproper (hfetch.find?_dirty ho.proper hf hd) hd
  cases h with
  | explored hx =>
    rw [hexplored hx]
    rfl
  | changed hx _ _ =>
    rw [find?_changePage]
    split
    · rfl
    · rw [hexplored hx]
      rfl

/-- **A completion drops a changed page only if it is its own** and cannot be read again. -/
theorem complete_left {r : Except Failure Unit} (ho : Orderly e)
    (h : e.complete tx commit = (e', r)) (hf : e.cache.find? pid = some frame)
    (hleft : e'.cache.find? pid = none) :
    pid ∈ e.cache.changedBy tx ∧ ∃ f, e'.readPage pid = .error f := by
  obtain ⟨written, dropped, rest, e₁, e₂, e₃, hres, hh, hdisk, -, hend⟩ :=
    complete_resolves ho.proper h
  have hsame : e'.cache = e₃.cache ∧ e'.catalog = e₃.catalog ∧ e'.disk = e₃.disk := by
    rcases hend with ⟨-, -, -, rfl⟩ | ⟨-, rfl⟩ <;> exact ⟨rfl, rfl, rfl⟩
  have hgone : e₂.cache.find? pid = none := by
    have hpage := hh.page_eq pid
    rw [← hsame.1, hleft] at hpage
    exact Option.map_eq_none_iff.mp hpage.symm
  have hdropped : pid ∈ dropped := by
    apply Classical.byContradiction
    intro hnot
    rw [hres.rereads.find?_eq hnot, hres.writes.find?_eq, hf] at hgone
    split at hgone <;> cases hgone
  refine ⟨?_, ?_⟩
  · rw [hres.changedBy_eq]
    exact List.mem_append_right _ (List.mem_append_left _ hdropped)
  · have hread : e'.readPage pid = e₁.readPage pid := by
      refine readPage_congr ?_ ?_ pid
      · rw [hsame.2.1, hh.catalog_eq, hres.rereads.catalog_eq]
      · rw [hsame.2.2, hdisk (List.ne_nil_of_mem hdropped), hres.rereads.disk_eq]
    rw [hread]
    rcases hres.rereads.reread hdropped with ⟨found, hfound, -⟩ | ⟨-, hfail⟩
    · rw [hgone] at hfound
      cases hfound
    · exact hfail

/-- **Where a changed page has left**, it was removed, or the cache was cleared, or its own
transaction was completed and it could not be read again. -/
theorem Orderly.left (ho : Orderly e) (c : Call) (h : e.call c = (e', events))
    (hf : e.cache.find? pid = some frame) (hd : frame.page.dirty = some owner)
    (hleft : pid ∉ e'.cache.pids) :
    c = .removePage pid ∨ c = .clear
      ∨ (∃ commit, c = .complete owner commit) ∧ ∃ f, e'.readPage pid = .error f := by
  have hm := ho.proper.mem_pids hf
  have hgone : e'.cache.find? pid = none :=
    Option.not_isSome_iff_eq_none.mp (mt (ho.call c h).proper.mem_pids_iff.mpr hleft)
  have hchanged : frame.page.dirty ≠ none := by
    rw [hd]
    exact Option.some_ne_none _
  by_cases hrows : c.OnRows
  · obtain ⟨tx, id, hw⟩ := worked_of_call ho.proper hrows h
    have hkept := hw.keeps ho hf hchanged
    rw [hgone] at hkept
    cases hkept
  cases c with
  | complete tx commit =>
    cases h
    obtain ⟨hmine, hread⟩ := complete_left ho rfl hf hgone
    obtain ⟨found, hfound, hd'⟩ := ho.proper.mem_changedBy_iff.mp hmine
    cases hf.symm.trans hfound
    obtain rfl : owner = tx := Option.some.inj (hd.symm.trans hd')
    exact Or.inr (Or.inr ⟨⟨commit, rfl⟩, hread⟩)
  | flushPage p =>
    cases h
    exact absurd ((flushPage_pids rfl).symm ▸ hm) hleft
  | flushChanged tx =>
    cases h
    exact absurd ((flushChanged_pids rfl).symm ▸ hm) hleft
  | flushAll =>
    cases h
    exact absurd ((flushAll_pids rfl).symm ▸ hm) hleft
  | removePage p =>
    cases h
    refine Or.inl (congrArg _ (Classical.byContradiction fun hne => ?_))
    have hkept : (e.removePage p).1.cache.find? pid = some frame := by
      rcases e.removePage_cases p with he | he <;> rw [he]
      · exact hf
      · rw [Cache.find?_remove, if_neg (Ne.symm hne), hf]
    rw [show (e.removePage p).1.cache.find? pid = none from hgone] at hkept
    cases hkept
  | clear => exact Or.inr (Or.inl rfl)
  | createTable file name schema =>
    cases h
    have hcache := (e.createTable_opens file name schema).cache_eq
    exact absurd (show pid ∈ (e.createTable file name schema).1.cache.pids from hcache ▸ hm) hleft
  | register | unregister | forgetTables | releasePage =>
    cases h
    exact absurd hm hleft
  | _ => exact absurd trivial hrows

end Engine

open Engine

/-- **Room is made by clean pages only.**  In every state that a new store reaches by any calls, with
any capacity and over any files:

* the queue lists exactly the ids of the cached pages, each of them once; every page is under its
  own id, and there are no more than the capacity;
* a request that misses in a full cache, whose lock is granted and whose page can be read, takes the
  place of the clean page nearest to the front, and fails only where no page is clean;
* whatever is called, a changed page leaves only when it is removed, when the cache is cleared, or
  when its own transaction completes and it cannot be read again.

The second holds where nothing is spoiled, and over sane files, with tables of the store's own page
size, nothing ever is. -/
theorem cache_never_steals {config : Config} {disk : Disk} {e : Engine} {log : List Event}
    (h : Run (fun _ _ => True) { config := config, disk := disk } e log) :
    e.cache.Balanced config.pages
      ∧ (∀ tx access pid locks page e' r, e.cache.Intact →
        e.locks.acquire tx access.mode pid = (locks, true) → e.cache.find? pid = none →
        e.readPage pid = .ok page → config.pages ≤ e.cache.size →
        e.fetch tx access pid = (e', r) → Displaces e pid page e' r)
      ∧ (∀ log', disk.Sane →
        Run (fun e c => c.OneSize e) { config := config, disk := disk } e log' → e.cache.Intact)
      ∧ ∀ c e' events pid frame owner, e.call c = (e', events) →
        e.cache.find? pid = some frame → frame.page.dirty = some owner → pid ∉ e'.cache.pids →
        c = .removePage pid ∨ c = .clear
          ∨ (∃ commit, c = .complete owner commit) ∧ ∃ f, e'.readPage pid = .error f := by
  have ho := h.orderly (orderly_new config disk)
  have hconfig : e.config = config := h.config_eq (orderly_new config disk)
  refine ⟨hconfig ▸ ho.balanced, ?full, ?intact, ?left⟩
  case full =>
    intro tx access pid locks page e' r hi hgranted hmiss hread hfull hfetch
    have hfull' : e.config.pages ≤ e.cache.size := by rwa [hconfig]
    exact fetch_displaces ho.proper hi hgranted hmiss hread hfull' hfetch
  case intact =>
    intro log' hdisk hrun
    exact (hrun.sane hdisk).cache
  case left =>
    intro c e' events pid frame owner hcall hf hd hleft
    exact ho.left c hcall hf hd hleft

namespace Sample

/-- A table with one row to a page, in a file that has three pages already. -/
def narrow : TableFile := ⟨table.id, table.path, schema, 9, 0⟩

/-- A new store over that file, with room for two pages. -/
def crowdedStart : Engine :=
  { config := { pageSize := 9, pages := 2 }
    disk := { files := [(narrow.path, .ofList (Bytes.zeros 27))] } }

/-- The store with its cache full: the first page is changed, and the second one clean. -/
def crowded : Engine :=
  let registered := (crowdedStart.call (.register narrow "t")).1
  let inserted := (registered.call (.insert ⟨1⟩ narrow.id ⟨[.int 5], none⟩)).1
  (inserted.call (.fetch ⟨2⟩ .read (narrow.pageId 1))).1

theorem run_crowded : ∃ log, Run (fun e c => c.OneSize e) crowdedStart crowded log := by
  have hsized : narrow.Sized crowdedStart.config narrow.id :=
    ⟨rfl, rfl, rfl, show 0 < PageLayout.slotCount _ _ by decide⟩
  exact ⟨_, ((Run.nil.call (.register narrow "t") hsized rfl).call
    (.insert ⟨1⟩ narrow.id ⟨[.int 5], none⟩) trivial rfl).call
    (.fetch ⟨2⟩ .read (narrow.pageId 1)) trivial rfl⟩

theorem sane_crowdedStart : crowdedStart.disk.Sane := by
  refine ⟨rfl, fun path => ?_⟩
  have hfile : crowdedStart.disk.file path
      = if narrow.path = path then .ofList (Bytes.zeros 27) else {} := by
    unfold Disk.file crowdedStart
    rw [Assoc.find?_cons]
    split <;> rfl
  unfold Disk.length
  rw [hfile]
  split <;> decide

end Sample

/-- The first page is older but changed, so it is the second one that leaves for the third. -/
theorem cache_never_steals_crowded : ∃ log e' frame,
    Run (fun _ _ => True) Sample.crowdedStart Sample.crowded log
      ∧ Sample.crowded.cache.pids = [Sample.narrow.pageId 0, Sample.narrow.pageId 1]
      ∧ Sample.crowded.fetch ⟨2⟩ .read (Sample.narrow.pageId 2) = (e', .ok frame)
      ∧ e'.cache.pids = [Sample.narrow.pageId 0, Sample.narrow.pageId 2] := by
  obtain ⟨log, hone⟩ := Sample.run_crowded
  have hrun : Run (fun _ _ => True) Sample.crowdedStart Sample.crowded log :=
    hone.mono fun _ => trivial
  obtain ⟨-, hfull, hintact, -⟩ := cache_never_steals hrun
  have hpids : Sample.crowded.cache.pids = [Sample.narrow.pageId 0, Sample.narrow.pageId 1] := by
    decide +kernel
  have hgranted : (Sample.crowded.locks.acquire ⟨2⟩ Access.read.mode
      (Sample.narrow.pageId 2)).2 = true := by decide +kernel
  have hread : (Sample.crowded.readPage (Sample.narrow.pageId 2)).toOption.isSome := by
    decide +kernel
  have hmarked : ((Sample.crowded.cache.find? (Sample.narrow.pageId 0)).bind fun frame =>
      frame.page.dirty) = some ⟨1⟩ := by decide +kernel
  have hclean : ((Sample.crowded.cache.find? (Sample.narrow.pageId 1)).map fun frame =>
      frame.page.dirty) = some none := by decide +kernel
  rcases ha : Sample.crowded.locks.acquire ⟨2⟩ Access.read.mode (Sample.narrow.pageId 2)
    with ⟨locks, granted⟩
  obtain rfl : granted = true := (congrArg Prod.snd ha).symm.trans hgranted
  rcases hr : Sample.crowded.readPage (Sample.narrow.pageId 2) with f | page
  · rw [hr] at hread
    cases hread
  rcases hf : Sample.crowded.fetch ⟨2⟩ .read (Sample.narrow.pageId 2) with ⟨e', f | frame⟩
  · -- a failure would need all pages to be changed
    have hd := hfull _ _ _ _ _ _ _ (hintact log Sample.sane_crowdedStart hone) ha
      (by decide +kernel) hr (by decide +kernel) hf
    obtain ⟨old, hold, hnone⟩ := Option.map_eq_some_iff.mp hclean
    exact absurd hnone (hd.fails_iff.mp ⟨f, rfl⟩ _ old hold)
  · have hd := hfull _ _ _ _ _ _ _ (hintact log Sample.sane_crowdedStart hone) ha
      (by decide +kernel) hr (by decide +kernel) hf
    obtain ⟨-, before, victim, after, horder, ⟨old, hold, hnone⟩, -, hpids', -⟩ :=
      hd.displaced frame rfl
    obtain ⟨first, hfirst, hdirty⟩ := Option.bind_eq_some_iff.mp hmarked
    refine ⟨log, e', frame, hrun, hpids, rfl, ?_⟩
    rw [hpids] at horder
    match before, horder with
    | [], h =>
      cases h
      cases hold.symm.trans hfirst
      rw [hdirty] at hnone
      cases hnone
    | [_], h =>
      cases h
      exact hpids'
    | _ :: _ :: rest, h =>
      simp at h

end RowStore
