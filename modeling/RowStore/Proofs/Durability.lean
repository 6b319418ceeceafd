import RowStore.Proofs.Atomicity
import RowStore.Proofs.PageBytes

/-!
# A commit is durable and touches nothing else

A commit that goes through has written every page of its transaction to its place on disk.  The
pages stay cached where they are, and are clean; no other byte of any file, no length of a file and
no other cached page has changed, and of the locks only those of the transaction are gone
(`Engine.Persists`).

`Flushed` says so of a flush of some pages, one after the other.  What makes it true of a whole
flush is that no byte belongs to two pages: a page that was written is not touched by what is
written after it.  Main statement: `commit_durable`.
-/

namespace RowStore

/-! ## 1. Pages that become clean -/

/-- The frame with its page clean, if the transaction has changed it. -/
def Frame.settled (tx : Tx) (frame : Frame) : Frame :=
  if frame.page.dirty = some tx then { frame with page := frame.page.clean } else frame

/-- **The cache with the pages of a transaction clean**, every page at its place. -/
def Cache.settled (c : Cache) (tx : Tx) : Cache :=
  { c with frames := c.frames.map fun p => (p.1, p.2.settled tx) }

namespace Cache

variable {c d : Cache} {tx : Tx}

theorem find?_settled (c : Cache) (tx : Tx) (pid : PageId) :
    (c.settled tx).find? pid = (c.find? pid).map (Frame.settled tx) :=
  Assoc.find?_map pid (Frame.settled tx) c.frames

theorem Proper.settled (h : c.Proper) (tx : Tx) : (c.settled tx).Proper where
  listed := by
    unfold Cache.settled Assoc.keys
    rw [List.map_map]
    exact h.listed
  nodup := h.nodup
  keyed hf := by
    rw [find?_settled] at hf
    obtain ⟨old, hold, rfl⟩ := Option.map_eq_some_iff.mp hf
    have hkeyed := h.keyed hold
    unfold Frame.settled
    split <;> exact hkeyed

/-- A proper cache is known by its pages and what is beside them. -/
theorem Proper.ext (hc : c.Proper) (hd : d.Proper) (hrest : d = { c with frames := d.frames })
    (hf : ∀ pid, d.find? pid = c.find? pid) : d = c := by
  have hpids : d.pids = c.pids := by rw [hrest]
  have hkeys : Assoc.keys d.frames = Assoc.keys c.frames := by
    rw [← hd.listed, hpids, hc.listed]
  have hframes : d.frames = c.frames := Assoc.ext hkeys (hd.listed ▸ hd.nodup) hf
  rw [hrest, hframes]

end Cache

namespace Engine

variable {dir : Directory} {e e' e₁ : Engine} {tx : Tx} {pid : PageId} {pids : List PageId}
  {frame : Frame}

/-! ## 2. Flushing -/

/-- **What a flush of some pages does** that goes through. -/
structure Flushed (dir : Directory) (pids : List PageId) (e e' : Engine) : Prop where
  config_eq : e'.config = e.config
  catalog_eq : e'.catalog = e.catalog
  handles_eq : e'.disk.spoiled = e.disk.spoiled
  /-- Beside the cached pages nothing in the cache changes, and no page its place. -/
  rest_eq : e'.cache = { e.cache with frames := e'.cache.frames }
  pids_eq : e'.cache.pids = e.cache.pids
  /-- The pages are clean, and all others as they were. -/
  find?_eq : ∀ pid, e'.cache.find? pid = if pid ∈ pids
    then (e.cache.find? pid).map fun frame => { frame with page := frame.page.clean }
    else e.cache.find? pid
  differs : Disk.Differs dir e.config.pageSize pids e.disk e'.disk
  /-- The pages stand on disk as they were cached; their tables are registered and in use. -/
  written : ∀ {pid : PageId} {frame : Frame}, pid ∈ pids → e.cache.find? pid = some frame →
    e'.disk.pageBytes dir e.config.pageSize pid = frame.page.image
      ∧ ∃ table, e.catalog.table? pid.table = some table
        ∧ e.disk.isUsable table.handle = true

theorem Flushed.nil (dir : Directory) (e : Engine) : Flushed dir [] e e where
  config_eq := rfl
  catalog_eq := rfl
  handles_eq := rfl
  rest_eq := rfl
  pids_eq := rfl
  find?_eq _ := rfl
  differs := .of_content [] fun _ => rfl
  written h := absurd h List.not_mem_nil

/-- A page that was written stays as it is while others are. -/
theorem Flushed.cons (hnot : pid ∉ pids) (h : Flushed dir [pid] e e₁)
    (h' : Flushed dir pids e₁ e') : Flushed dir (pid :: pids) e e' where
  config_eq := h'.config_eq.trans h.config_eq
  catalog_eq := h'.catalog_eq.trans h.catalog_eq
  handles_eq := h'.handles_eq.trans h.handles_eq
  rest_eq := by rw [h'.rest_eq, h.rest_eq]
  pids_eq := h'.pids_eq.trans h.pids_eq
  find?_eq other := by
    rw [h'.find?_eq, h.find?_eq]
    by_cases ho : other = pid
    · simp [ho, hnot]
    · simp [ho]
  differs := h.differs.cons (h.config_eq ▸ h'.differs)
  written {other found} hm hf := by
    by_cases ho : other = pid
    · subst ho
      obtain ⟨hbytes, htable⟩ := h.written List.mem_cons_self hf
      refine ⟨?_, htable⟩
      rw [← h.config_eq, h'.differs.pageBytes_eq hnot, h.config_eq, hbytes]
    · have hm' := (List.mem_cons.mp hm).resolve_left ho
      have hf' : e₁.cache.find? other = some found := by
        rw [h.find?_eq, if_neg (mt List.mem_singleton.mp ho), hf]
      obtain ⟨hbytes, table, ht, husable⟩ := h'.written hm' hf'
      refine ⟨h.config_eq ▸ hbytes, table, h.catalog_eq ▸ ht, ?_⟩
      unfold Disk.isUsable at husable ⊢
      rwa [h.handles_eq] at husable

/-- **A flush of one page** writes it if it is cached. -/
theorem flushPage_flushed (ho : Orderly e) (hu : Filed dir e)
    (h : e.flushPage pid = (e', .ok ())) : Flushed dir [pid] e e' := by
  rcases flushPage_cases h with ⟨rfl, hnone, -⟩ | ⟨frame, table, disk, hf, ht, hw, rfl, -⟩
    | ⟨-, f, hr, -⟩
  · refine ⟨rfl, rfl, rfl, rfl, rfl, ?cached, .of_content _ fun _ => rfl, ?written⟩
    case cached =>
      intro other
      split
      · rename_i hm
        rw [List.mem_singleton.mp hm, hnone]
        rfl
      · rfl
    case written =>
      intro other found hm hfound
      rw [List.mem_singleton.mp hm, hnone] at hfound
      cases hfound
  · obtain ⟨hdiffers, hbytes⟩ := hu.write ho.proper hf ht hw
    refine ⟨rfl, rfl, ?handles, ?rest, e.cache.pids_update pid _, ?cached, hdiffers, ?written⟩
    case handles =>
      rw [hw.disk_eq]
      rfl
    case rest =>
      simp only [updatePage, Cache.update, hf, Cache.insert]
      rfl
    case cached =>
      intro other
      rw [find?_write hf]
      simp only [List.mem_singleton]
      split
      · rename_i he
        rw [he, hf]
        rfl
      · rfl
    case written =>
      intro other found hm hfound
      rw [List.mem_singleton.mp hm, hf] at hfound
      cases hfound
      exact ⟨List.mem_singleton.mp hm ▸ hbytes, table, List.mem_singleton.mp hm ▸ ht, hw.usable⟩
  · cases hr

/-- **A flush of some pages** writes all of them that are cached. -/
theorem flushEach_flushed (hn : pids.Nodup) (ho : Orderly e) (hu : Filed dir e)
    (h : flushEach pids e = (e', .ok ())) : Flushed dir pids e e' := by
  induction pids generalizing e with
  | nil =>
    cases h
    exact .nil dir _
  | cons pid pids ih =>
    obtain ⟨hnot, hn⟩ := List.nodup_cons.mp hn
    rcases flushEach_cons_cases h with ⟨f, -, hr⟩ | ⟨e₁, hp, hrest⟩
    · cases hr
    · have hmoves := (flushPage_settles hp).moves
      exact (flushPage_flushed ho hu hp).cons hnot
        (ih hn (hmoves.orderly ho) (hmoves.filed ho hu) hrest)

/-- Where the pages of a transaction were flushed, they are clean and all others as they were. -/
theorem Flushed.cache_eq (hp : e.cache.Proper) (hp' : e'.cache.Proper)
    (h : Flushed dir (e.cache.changedBy tx) e e') : e'.cache = e.cache.settled tx := by
  refine (hp.settled tx).ext hp' h.rest_eq fun pid => ?_
  rw [h.find?_eq, Cache.find?_settled]
  cases hf : e.cache.find? pid with
  | none => simp
  | some frame =>
    have hm : pid ∈ e.cache.changedBy tx ↔ frame.page.dirty = some tx := by
      rw [hp.mem_changedBy_iff, hf]
      simp
    simp only [hm, Option.map_some, Frame.settled]
    split <;> rfl

/-! ## 3. An empty cache -/

theorem clear_of_usable (h : e.cache.spoiled = false) :
    e.clear = ({ e with cache := e.cache.clear, locks := e.locks.clear }, .ok ()) := by
  unfold Engine.clear inCache
  simp [h]

/-- A page that is brought into an empty cache is read from disk. -/
theorem bringIn_of_empty {r : Except Failure Frame} (hempty : e.cache.frames = [])
    (hroom : 0 < e.config.pages) (h : e.bringIn pid = (e', r)) :
    (∃ page frame, e.readPage pid = .ok page ∧ r = .ok frame ∧ frame.page = page)
      ∨ ∃ f, e.readPage pid = .error f ∧ r = .error f := by
  have hnone : e.cache.find? pid = none := by
    unfold Cache.find?
    rw [hempty]
    rfl
  have hmake : e.makeRoom = .ok e.cache := by
    unfold makeRoom Cache.size
    rw [hempty]
    exact if_neg (Nat.not_le.mpr hroom)
  rcases bringIn_cases h with ⟨-, frame, hf, -⟩ | ⟨-, -, f, hr, hread | hmade⟩
    | ⟨-, page, cache, hread, -, -, hr⟩
  · rw [hnone] at hf
    cases hf
  · exact Or.inr ⟨f, hread, hr⟩
  · rw [hmake] at hmade
    cases hmade
  · exact Or.inl ⟨page, _, hread, hr, rfl⟩

/-- **A request on an empty store is a read from disk**, whoever makes it. -/
theorem fetch_of_empty {access : Access} {r : Except Failure Frame}
    (hfree : e.locks.holders pid = []) (hempty : e.cache.frames = [])
    (husable : e.cache.spoiled = false) (hroom : 0 < e.config.pages)
    (h : e.fetch tx access pid = (e', r)) :
    (∃ page frame, e.readPage pid = .ok page ∧ r = .ok frame ∧ frame.page = page)
      ∨ ∃ f, e.readPage pid = .error f ∧ r = .error f := by
  rcases fetch_cases h with ⟨-, -, hdenied⟩ | ⟨locks, -, hin⟩
  · rw [LockTable.acquire_snd, hfree] at hdenied
    cases hdenied
  · have hbring := fun d result => @bringIn_of_empty { e with locks := locks } d pid result
      hempty hroom
    rcases inCache_cases hin with ⟨hs, -, -⟩ | ⟨-, frame, hb, rfl⟩ | ⟨-, f, e₁, hb, rfl, -⟩
    · exact Bool.noConfusion (husable.symm.trans hs)
    · exact hbring _ _ hb
    · exact hbring _ _ hb

/-! ## 4. Commits -/

/-- **What a commit does that goes through.** -/
structure Persists (dir : Directory) (tx : Tx) (e e' : Engine) : Prop where
  /-- Every page the transaction changed stands on disk as it stood in the cache. -/
  written : ∀ {pid : PageId} {frame : Frame}, e.cache.find? pid = some frame →
    frame.page.dirty = some tx → e'.disk.pageBytes dir e.config.pageSize pid = frame.page.image
  /-- No other byte of any file has changed, and no file's length. -/
  differs : Disk.Differs dir e.config.pageSize (e.cache.changedBy tx) e.disk e'.disk
  /-- These pages are cached at their places and clean; all other pages, their marks and the order
  are what they were. -/
  cache_eq : e'.cache = e.cache.settled tx
  /-- The transaction holds no lock, and all others hold theirs. -/
  locks : LockTable.Frees tx e.locks e'.locks
  /-- When the cache is dropped, whoever requests one of these pages gets the page that its table
  makes of these bytes.  The request cannot fail, unless the file has as many pages as 32 bits have
  values, for then the count that a page's index is checked against is zero. -/
  reread : ∀ {pid : PageId} {frame : Frame}, e.cache.find? pid = some frame →
    frame.page.dirty = some tx → ∃ table d, e'.catalog.table? pid.table = some table
      ∧ e'.clear = (d, .ok ())
      ∧ ∀ reader access d' r, d.fetch reader access pid = (d', r) →
        (∀ found, r = .ok found →
          Page.ofBytes pid frame.page.image table.schema = .ok found.page)
        ∧ (table.pageCount e'.disk < UInt32.size → ∃ found, r = .ok found)

/-- A commit that goes through has used the cache. -/
theorem usable_of_commit (h : e.complete tx true = (e', .ok ())) : e.cache.spoiled = false := by
  cases hs : e.cache.spoiled with
  | false => rfl
  | true =>
    unfold complete conclude settle flushChanged inCache at h
    simp only [hs, if_true] at h
    cases h

/-- A page that lies inside its table's file is counted. -/
theorem index_lt_of_stop_le {table : TableFile} {d : Disk} (hroomy : table.Roomy)
    (h : pid.offset table.pageSize + table.pageSize ≤ d.length table.path) :
    pid.index.toNat < table.pageCount d := by
  unfold PageId.offset at h
  rw [← Nat.succ_mul] at h
  exact (Nat.le_div_iff_mul_le hroomy.pageSize_pos).mpr h

/-- A page of a registered table that lies inside its file is counted. -/
theorem Filed.index_lt {table : TableFile} (hu : Filed dir e)
    (ht : e.catalog.table? pid.table = some table) (hin : e.disk.Holds dir e.config.pageSize pid) :
    pid.index.toNat < table.pageCount e.disk := by
  obtain ⟨-, -, hsize, hroomy⟩ := hu.tables ht
  obtain ⟨path, hpath, hstop⟩ := hin
  cases (hu.path?_eq ht).symm.trans hpath
  exact index_lt_of_stop_le hroomy (hsize.symm ▸ hstop)

/-- The bytes of a page are those that its table reads. -/
theorem Filed.pageBytes_eq {table : TableFile} (hu : Filed dir e)
    (ht : e.catalog.table? pid.table = some table) :
    e.disk.pageBytes dir e.config.pageSize pid
      = e.disk.read table.path (pid.offset table.pageSize) table.pageSize := by
  unfold Disk.pageBytes
  rw [hu.path?_eq ht, (hu.tables ht).pageSize_eq]

/-- **What a page's table reads** is made of the bytes at the page's place. -/
theorem Filed.readPage_eq {table : TableFile} (hu : Filed dir e)
    (ht : e.catalog.table? pid.table = some table) (husable : e.disk.isUsable table.handle = true)
    (hin : e.disk.Holds dir e.config.pageSize pid) :
    (∀ page, e.readPage pid = .ok page →
        Page.ofBytes pid (e.disk.pageBytes dir e.config.pageSize pid) table.schema = .ok page)
      ∧ (table.pageCount e.disk < UInt32.size → ∃ page, e.readPage pid = .ok page) := by
  have hid := (hu.tables ht).id_eq
  constructor
  · intro page hread
    obtain ⟨table', ht', hr⟩ := readPage_eq_ok_iff.mp hread
    obtain rfl : table = table' := Option.some.inj (ht.symm.trans ht')
    rw [hu.pageBytes_eq ht]
    exact hr.ofBytes
  · intro hcount
    have hread := TableFile.readPage_eq husable hid.symm hcount
    obtain ⟨page, hpage⟩ :=
      TableFile.pageAt_of_lt (hu.tables ht).roomy hid.symm (hu.index_lt ht hin)
    rw [hpage] at hread
    unfold readPage Catalog.lookup
    rw [ht]
    cases hr : table.readPage e.disk pid with
    | error f =>
      rw [hr] at hread
      cases hread
    | ok page => exact ⟨page, hr⟩

/-- A request for a page on an empty store hands out what the page's table makes of the bytes at the
page's place. -/
theorem Filed.fetch_of_empty {table : TableFile} {access : Access} {r : Except Failure Frame}
    (hu : Filed dir e) (ht : e.catalog.table? pid.table = some table)
    (husable : e.disk.isUsable table.handle = true)
    (hin : e.disk.Holds dir e.config.pageSize pid)
    (hfree : e.locks.holders pid = []) (hempty : e.cache.frames = [])
    (hcache : e.cache.spoiled = false) (hroom : 0 < e.config.pages)
    (h : e.fetch tx access pid = (e', r)) :
    (∀ found, r = .ok found →
        Page.ofBytes pid (e.disk.pageBytes dir e.config.pageSize pid) table.schema = .ok found.page)
      ∧ (table.pageCount e.disk < UInt32.size → ∃ found, r = .ok found) := by
  obtain ⟨hmade, hread⟩ := hu.readPage_eq ht husable hin
  rcases Engine.fetch_of_empty hfree hempty hcache hroom h with
    ⟨page, frame, hpage, rfl, rfl⟩ | ⟨f, hfail, rfl⟩
  · refine ⟨fun found hfound => ?_, fun _ => ⟨frame, rfl⟩⟩
    cases hfound
    exact hmade _ hpage
  · refine ⟨fun found hfound => (by cases hfound), fun hcount => ?_⟩
    obtain ⟨page, hpage⟩ := hread hcount
    rw [hfail] at hpage
    cases hpage

/-- **A commit that goes through persists**, in any state in which every page is in one file. -/
theorem Filed.commit (hu : Filed dir e) (ho : Orderly e)
    (h : e.complete tx true = (e', .ok ())) : Persists dir tx e e' := by
  have hcache := usable_of_commit h
  obtain ⟨e₁, hflush, rfl⟩ := commit_ok h
  have hf := flushEach_flushed (ho.proper.nodup_changedBy tx) ho hu hflush
  have hu₁ := (flushEach_settles hflush).moves.filed ho hu
  have hmem : ∀ {pid : PageId} {frame : Frame}, e.cache.find? pid = some frame →
      frame.page.dirty = some tx → pid ∈ e.cache.changedBy tx := fun hc hd =>
    ho.proper.mem_changedBy_iff.mpr ⟨_, hc, hd⟩
  have hsettled : e₁.cache = e.cache.settled tx :=
    hf.cache_eq ho.proper ((flushEach_settles hflush).proper ho.proper)
  refine ⟨fun hc hd => (hf.written (hmem hc hd) hc).1, hf.differs, hsettled, ?locks, ?reread⟩
  case locks =>
    simp only [(flushEach_settles hflush).same.2]
    exact ho.consistent.frees tx
  case reread =>
    intro pid frame hc hd
    obtain ⟨hbytes, table, ht, husable⟩ := hf.written (hmem hc hd) hc
    have hcache₁ : e₁.cache.spoiled = false := by
      rw [hsettled]
      exact hcache
    refine ⟨table, _, hf.catalog_eq ▸ ht, clear_of_usable hcache₁, ?_⟩
    intro reader access d' r hfetch
    -- dropping the cache changes neither the tables nor the disk
    have hu' : Filed dir
        { e₁ with cache := e₁.cache.clear, locks := (e₁.locks.releaseAll tx).clear } :=
      hu₁.of_cache fun hfound => by cases hfound
    have husable₁ : e₁.disk.isUsable table.handle = true := by
      unfold Disk.isUsable at husable ⊢
      rwa [hf.handles_eq]
    have hin : e₁.disk.Holds dir e₁.config.pageSize pid := by
      rw [hf.config_eq]
      exact (hu.holds hc).mono fun path => Nat.le_of_eq (hf.differs.length_eq path).symm
    have hroom : 0 < e₁.config.pages := hf.config_eq ▸ ho.pages_pos hc
    have hread := hu'.fetch_of_empty (hf.catalog_eq ▸ ht) husable₁ hin rfl rfl hcache₁ hroom hfetch
    rw [hf.config_eq, hbytes] at hread
    exact hread

end Engine

open Engine

/-- **A commit is durable and touches nothing else.**  In every state that a new store reaches, over
any files, while all tables have pages of its size and no two files have one id: if a commit goes
through, every page that its transaction changed stands on disk as it stood in the cache, where it
stays at its place and is clean; no other byte and no length of a file, no other cached page and no
place in the order has changed; the transaction holds no lock, and all others hold theirs.

When the cache is dropped, whoever requests such a page gets what its table makes of exactly these
bytes.  Only if the table's file has 2^32 pages, or more, may the request fail: the count that the
page's index is checked against has 32 bits. -/
theorem commit_durable {dir : Directory} {config : Config} {disk : Disk} {e e' : Engine}
    {log : List Event} {tx : Tx}
    (h : Run (fun e c => c.Filed dir e) { config := config, disk := disk } e log)
    (hc : e.complete tx true = (e', .ok ())) : Persists dir tx e e' :=
  (h.filed (orderly_new config disk) (filed_new dir config disk)).commit
    (h.orderly (orderly_new config disk)) hc

theorem Call.Transactional.oneSize {e : Engine} {c : Call} (h : c.Transactional e) :
    c.OneSize e := by
  cases c with
  | register => cases h
  | _ => trivial

/-- The first row of a table is on disk when its transaction has committed. -/
theorem commit_durable_first : ∃ log frame e',
    Run (fun e c => c.Filed .paths e) Sample.start Sample.inserted log
      ∧ Sample.inserted.complete ⟨1⟩ true = (e', .ok ())
      ∧ Sample.inserted.cache.find? Sample.first.page = some frame
      ∧ e'.disk.pageBytes .paths 40 Sample.first.page = frame.page.image
      ∧ e'.locks.pagesOf ⟨1⟩ = ∅ := by
  have hone : Run (fun e c => c.OneSize e) Sample.start Sample.inserted _ :=
    (Sample.run_opened.mono Call.Transactional.oneSize).call
      (.insert ⟨1⟩ Sample.table.id ⟨[.int 5], none⟩) trivial (by rw [Sample.inserted])
  have hrun := hone.on_paths (orderly_new _ _) rfl
  have hok : (Sample.inserted.complete ⟨1⟩ true).2 = .ok () := by rfl
  have hdirty : ((Sample.inserted.cache.find? Sample.first.page).bind fun frame =>
      frame.page.dirty) = some ⟨1⟩ := by decide +kernel
  obtain ⟨frame, hf, hd⟩ := Option.bind_eq_some_iff.mp hdirty
  rcases hc : Sample.inserted.complete ⟨1⟩ true with ⟨e', r⟩
  rw [hc] at hok
  obtain rfl : r = .ok () := hok
  have hp := commit_durable hrun hc
  exact ⟨_, frame, e', hrun, rfl, hf, hp.written hf hd,
    (hp.locks.pagesOf_eq ⟨1⟩).trans (if_pos rfl)⟩

end RowStore
