import RowStore.Proofs.Replies
import RowStore.Proofs.Rollback
import RowStore.Proofs.Views

/-!
# Two stores with the same calls

Two stores that differ in the capacity of their caches get the same calls, and none of them fails in
either.  What is cached differs from the first eviction on: a request that is served from one cache
reads from disk in the other store.

What the two share all the time is what does not depend on the cache: the files, what is seen, and
which pages are marked by whom (`Engine.Twins`).  Each call takes twins to twins and gets the same
reply from both, every row cut (`Twins.call`, `Twins.serve`): a request changes nothing that is
shared; an insert finds its place from what is seen and from the length of the table; a commit
writes pages that show the same, and so the same bytes.
-/

namespace RowStore.Engine

variable {e e' d d' : Engine} {c : Call} {reply : Reply} {calls : List Call}
  {replies : List Reply}

/-! ## 1. Twins -/

/-- **All that two stores share whose caches differ in capacity.** -/
structure Twins (e d : Engine) : Prop where
  pageSize_eq : d.config.pageSize = e.config.pageSize
  catalog_eq : d.catalog = e.catalog
  disk_eq : ∀ path, d.disk.content path = e.disk.content path
  content_eq : ∀ rid, d.content rid = e.content rid
  marks_iff : ∀ tx pid, d.Marks tx pid ↔ e.Marks tx pid

/-- What is known of both stores. -/
structure Regular (e : Engine) : Prop where
  orderly : Orderly e
  uniform : Uniform e
  accounted : ∃ log, Accounted e log

theorem Regular.sound (h : Regular e) : Sound e :=
  let ⟨_, ha⟩ := h.accounted
  ha.sound

theorem Regular.call {catalog : Catalog} (h : Regular e) (hc : c.OfClients catalog) :
    Regular (e.call c).1 := by
  have ht := hc.transactional e
  obtain ⟨log, ha⟩ := h.accounted
  exact ⟨h.orderly.call c rfl, h.uniform.call h.orderly ht.oneSize rfl, _, ha.call ht rfl⟩

variable {dir : Directory} {tx : Tx} {table : TableFile} {id : TableId} {row stored stored' : Row}
  {rid rid' : RecordId} {pids pids' : List PageId} {pid : PageId}

namespace Twins

theorem stored_eq (h : Twins e d) (rid : RecordId) : d.stored rid = e.stored rid :=
  stored_congr (storedPage_congr h.catalog_eq h.disk_eq rid.page)

theorem pageCount_eq (h : Twins e d) (table : TableFile) :
    table.pageCount d.disk = table.pageCount e.disk :=
  TableFile.pageCount_congr (h.disk_eq table.path)

theorem vacant_iff (h : Twins e d) : d.Vacant table rid ↔ e.Vacant table rid := by
  constructor
  · rintro ⟨hown, hindex, hslot, hfree⟩
    exact ⟨hown, h.pageCount_eq table ▸ hindex, hslot, h.content_eq rid ▸ hfree⟩
  · rintro ⟨hown, hindex, hslot, hfree⟩
    exact ⟨hown, (h.pageCount_eq table).symm ▸ hindex, hslot, (h.content_eq rid).symm ▸ hfree⟩

/-- Requests in one store and requests in the other leave them twins. -/
theorem fetches (h : Twins e d) (hs : Sound e) (hs' : Sound d) (hf : Fetches tx e e')
    (hf' : Fetches tx d d') : Twins e' d' where
  pageSize_eq := by rw [hf.moves.config_eq, hf'.moves.config_eq, h.pageSize_eq]
  catalog_eq := by rw [hf.same.1, hf'.same.1, h.catalog_eq]
  disk_eq path := by rw [hf.same.2, hf'.same.2, h.disk_eq]
  content_eq r := by
    rw [(hf.sound hs).2.content_eq, (hf'.sound hs').2.content_eq, h.content_eq]
  marks_iff owner p := by
    rw [hf.marks_iff hs.proper, hf'.marks_iff hs'.proper, h.marks_iff]

end Twins

/-! ## 2. Changes -/

/-- **What a change at a record id does** beside the change itself: its page has the mark of its
transaction. -/
structure Alters (tx : Tx) (rid : RecordId) (e e' : Engine) : Prop where
  config_eq : e'.config = e.config
  catalog_eq : e'.catalog = e.catalog
  marks_iff : ∀ owner pid,
    e'.Marks owner pid ↔ if pid = rid.page then owner = tx else e.Marks owner pid

theorem alters_changePage {e₁ : Engine} {frame : Frame} {page : Page}
    {values : Option (List Value)} (ho : Orderly e) (hx : Explored tx id e e₁)
    (hf : e₁.cache.find? pid = some frame) (hc : frame.page.Changed page rid values) :
    rid.page = pid ∧ Alters tx rid e (e₁.changePage tx pid frame page) := by
  have hmoves := hx.moves ho
  have hcatalog : e₁.catalog = e.catalog := by
    cases hx with
    | within hf => exact hf.same.1
    | beyond _ hf _ _ hf' => exact hf'.same.1.trans hf.same.1
  obtain rfl : rid.page = pid := hc.same.1.trans ((hmoves.orderly ho).proper.keyed hf)
  refine ⟨rfl, hmoves.config_eq, hcatalog, fun owner p => ?_⟩
  rw [marks_changePage, hx.marks_iff ho.proper]

theorem insert_alters (ho : Orderly e) (h : e.insert tx id row = (e', stored, .ok pids)) :
    ∃ rid, stored = { row with rid := some rid } ∧ pids = [rid.page] ∧ Alters tx rid e e' := by
  rcases insert_cases ho.proper h with ⟨-, -, f, hr⟩
    | ⟨table, pid, e₁, frame, page, rid, ht, -, hroom, hh, hi, rfl, rfl, hr⟩
  · cases hr
  · cases hr
    obtain ⟨hrid, ha⟩ := alters_changePage ho (hroom.explored ht) hh.cached
      (@Page.Changed.inserted _ row _ _ hi)
    exact ⟨rid, rfl, by rw [hrid], ha⟩

theorem delete_alters (ho : Orderly e) (h : e.delete tx row = (e', .ok pids)) :
    ∃ rid, row.rid = some rid ∧ pids = [rid.page] ∧ Alters tx rid e e' := by
  rcases delete_cases ho.proper h with ⟨-, f, hr⟩ | ⟨rid, e₁, frame, page, hrid, hf, hh, hd, rfl, hr⟩
  · cases hr
  · cases hr
    have hx : Explored tx rid.page.table e e₁ := .within hf
    obtain ⟨-, ha⟩ := alters_changePage ho hx hh.cached (.deleted hrid hd)
    exact ⟨rid, hrid, rfl, ha⟩

/-- **An insert lengthens its table** by one empty page if nothing is free there, and else writes
nothing. -/
theorem insert_disk (hs : Sound e) (ht : e.catalog.table? id = some table)
    (h : e.insert tx id row = (e', stored, .ok pids)) :
    (∃ r, e.Vacant table r) ∧ e'.disk = e.disk
      ∨ (¬ ∃ r, e.Vacant table r) ∧ table.Appends e.disk e'.disk := by
  obtain ⟨hid, hroomy⟩ := hs.tables ht
  obtain ⟨_, -, hfit, -⟩ := hs.insert ht h
  rcases insert_cases hs.proper h with ⟨-, -, f, hr⟩
    | ⟨table', pid, e₁, frame, page, rid, ht', -, hroom, -, -, rfl, -⟩
  · cases hr
  · obtain rfl : table = table' := Option.some.inj (ht.symm.trans ht')
    by_cases hv : ∃ r, e.Vacant table r
    · refine Or.inl ⟨hv, ?_⟩
      cases hroom with
      | found _ hf _ => exact hf.same.2
      | made hf hfull _ _ =>
        obtain ⟨r, hr⟩ := hv
        exact absurd hr (not_vacant_of_seenFull hs (hid.symm ▸ ht) hfull hr.index_lt hr.own)
    · refine Or.inr ⟨hv, ?_⟩
      have hcount := (hfit.appended hv).2.2.2
      cases hroom with
      | found _ hf _ =>
        rw [show (e₁.changePage tx _ frame page).disk = e₁.disk from rfl, hf.same.2] at hcount
        exact absurd hcount (Nat.ne_of_lt (Nat.lt_succ_self _))
      | made hf hfull hmade hf' =>
        have hc : table.pageCount e.disk < UInt32.size := lt_of_seenFull hs hfull
        rw [hf.same.2] at hmade
        have happ := (TableFile.appends_of_appendPage hc hmade).1
        rwa [show (e₁.changePage tx _ frame page).disk = e₁.disk from rfl, hf'.same.2]

/-- The place of the first fit is found from what is free and how long the table is. -/
theorem FirstFit.rid_eq (h : FirstFit e e' table rid) (h' : FirstFit d d' table rid')
    (hvacant : ∀ r, d.Vacant table r ↔ e.Vacant table r)
    (hcount : table.pageCount d.disk = table.pageCount e.disk) : rid' = rid := by
  by_cases hv : ∃ r, e.Vacant table r
  · obtain ⟨hrid, hfirst, -⟩ := h.reused hv
    obtain ⟨hrid', hfirst', -⟩ := h'.reused (hv.imp fun r => (hvacant r).mpr)
    rcases hfirst rid' ((hvacant _).mp hrid') with he | hbefore
    · exact he
    · rcases hfirst' rid ((hvacant _).mpr hrid) with he | hbefore'
      · exact he.symm
      · exact absurd hbefore' (not_before hbefore)
  · obtain ⟨hown, hindex, hslot, -⟩ := h.appended hv
    obtain ⟨hown', hindex', hslot', -⟩ := h'.appended fun hv' =>
      hv (hv'.imp fun r => (hvacant r).mp)
    have hindex := UInt32.toNat_inj.mp (hindex'.trans (hcount.trans hindex.symm))
    rcases rid with ⟨⟨t, i⟩, s⟩
    rcases rid' with ⟨⟨t', i'⟩, s'⟩
    simp only at hown hown' hindex hslot hslot'
    rw [hown, hown', hindex, hslot, hslot']

theorem Twins.alters (h : Twins e d) (ha : Alters tx rid e e') (ha' : Alters tx rid d d')
    (hdisk : ∀ path, d'.disk.content path = e'.disk.content path)
    (hcontent : ∀ r, d'.content r = e'.content r) : Twins e' d' where
  pageSize_eq := by rw [ha.config_eq, ha'.config_eq, h.pageSize_eq]
  catalog_eq := by rw [ha.catalog_eq, ha'.catalog_eq, h.catalog_eq]
  disk_eq := hdisk
  content_eq := hcontent
  marks_iff owner p := by rw [ha.marks_iff, ha'.marks_iff, h.marks_iff]

theorem Twins.insert (h : Twins e d) (hr : Regular e) (hr' : Regular d)
    (hi : e.insert tx id row = (e', stored, .ok pids))
    (hi' : d.insert tx id row = (d', stored', .ok pids')) :
    Twins e' d' ∧ stored' = stored ∧ pids' = pids := by
  obtain ⟨table, ht⟩ : ∃ table, e.catalog.table? id = some table := by
    rcases insert_cases hr.orderly.proper hi with ⟨-, -, f, hf⟩ | ⟨table, _, _, _, _, _, ht, -⟩
    · cases hf
    · exact ⟨table, ht⟩
  have ht' : d.catalog.table? id = some table := h.catalog_eq ▸ ht
  obtain ⟨rid, hstored, hfit, -, hcontent⟩ := hr.sound.insert ht hi
  obtain ⟨rid', hstored', hfit', -, hcontent'⟩ := hr'.sound.insert ht' hi'
  obtain rfl : rid' = rid := hfit.rid_eq hfit' (fun _ => h.vacant_iff) (h.pageCount_eq table)
  obtain ⟨r, hplace, hpids, ha⟩ := insert_alters hr.orderly hi
  obtain ⟨r', hplace', hpids', ha'⟩ := insert_alters hr'.orderly hi'
  have he : rid' = r := by simpa using hstored.symm.trans hplace
  have he' : rid' = r' := by simpa using hstored'.symm.trans hplace'
  subst he he'
  refine ⟨h.alters ha ha' (fun path => ?_) (fun r => ?_), hstored'.trans hstored.symm,
    hpids'.trans hpids.symm⟩
  · rcases insert_disk hr.sound ht hi with ⟨hv, hd⟩ | ⟨hv, happ⟩
    · rcases insert_disk hr'.sound ht' hi' with ⟨-, hd'⟩ | ⟨hv', -⟩
      · rw [hd, hd', h.disk_eq]
      · exact absurd (hv.imp fun _ => h.vacant_iff.mpr) hv'
    · rcases insert_disk hr'.sound ht' hi' with ⟨hv', -⟩ | ⟨-, happ'⟩
      · exact absurd (hv'.imp fun _ => h.vacant_iff.mp) hv
      · by_cases hp : path = table.path
        · rw [hp, happ.disk_eq, happ'.disk_eq, Disk.content_writeAt_self,
            Disk.content_writeAt_self, h.disk_eq, h.pageCount_eq]
        · rw [happ.content_of_ne hp, happ'.content_of_ne hp, h.disk_eq]
  · rw [hcontent, hcontent', h.content_eq]

theorem Twins.delete (h : Twins e d) (hr : Regular e) (hr' : Regular d)
    (hd : e.delete tx row = (e', .ok pids)) (hd' : d.delete tx row = (d', .ok pids')) :
    Twins e' d' ∧ pids' = pids := by
  obtain ⟨rid, hrid, -, hdisk, hcontent⟩ := hr.sound.delete hd
  obtain ⟨rid', hrid', -, hdisk', hcontent'⟩ := hr'.sound.delete hd'
  obtain rfl : rid = rid' := Option.some.inj (hrid.symm.trans hrid')
  obtain ⟨r, hplace, hpids, ha⟩ := delete_alters hr.orderly hd
  obtain ⟨r', hplace', hpids', ha'⟩ := delete_alters hr'.orderly hd'
  obtain rfl : rid = r := Option.some.inj (hrid.symm.trans hplace)
  obtain rfl : rid = r' := Option.some.inj (hrid.symm.trans hplace')
  refine ⟨h.alters ha ha' (fun path => ?_) (fun r => ?_), hpids'.trans hpids.symm⟩
  · rw [hdisk, hdisk', h.disk_eq]
  · rw [hcontent, hcontent', h.content_eq]

/-! ## 3. Completions -/

/-- A byte that belongs to a page is one of the page's bytes. -/
theorem getElem?_of_covers {disk : Disk} {size i : Nat} {path : Path}
    (h : pid.Covers dir size path i) :
    (disk.content path)[i]? = (disk.pageBytes dir size pid)[i - pid.offset size]? := by
  obtain ⟨hpath, hle, hlt⟩ := h
  rw [Disk.pageBytes_of_path hpath, Bytes.slice, List.getElem?_take_of_lt (by omega),
    List.getElem?_drop, Nat.add_sub_cancel' hle]

/-- **In a sound store every page is in one file**: the files of the registered tables make a
directory. -/
def Sound.directory (hs : Sound e) : Directory where
  path? id := (e.catalog.table? id).map TableFile.path
  unique ha hb := by
    obtain ⟨t, ht, rfl⟩ := Option.map_eq_some_iff.mp ha
    obtain ⟨u, hu, hpath⟩ := Option.map_eq_some_iff.mp hb
    rw [← hs.idOf ht, ← hs.idOf hu, hpath]

theorem Sound.path?_directory (hs : Sound e) (ht : e.catalog.table? id = some table) :
    hs.directory.path? id = some table.path :=
  congrArg (Option.map TableFile.path) ht

theorem Regular.filed (hr : Regular e) (hs : Sound d) (hcat : d.catalog = e.catalog) :
    Filed hs.directory e where
  toUniform := hr.uniform
  path?_eq ht := hs.path?_directory (hcat ▸ ht)
  holds {pid frame} hf := by
    obtain ⟨table, ht, -, hlt, -⟩ := hr.sound.lodged hf
    have hstop := TableFile.stop_le_length hlt
    rw [(hr.uniform.tables ht).pageSize_eq] at hstop
    exact ⟨table.path, hs.path?_directory (hcat ▸ ht), hstop⟩

/-- A page that is cached in both stores is stored as the same page. -/
theorem Twins.asStored_eq (h : Twins e d) (hs : Sound e) (hs' : Sound d) {frame frame' : Frame}
    (hf : e.cache.find? pid = some frame) (hf' : d.cache.find? pid = some frame') :
    frame'.page.asStored = frame.page.asStored := by
  obtain ⟨table, ht, hshown⟩ := hs.shown hf
  obtain ⟨table', ht', hshown'⟩ := hs'.shown hf'
  obtain rfl : table = table' := Option.some.inj (ht.symm.trans (h.catalog_eq ▸ ht'))
  exact hshown.asStored_congr hshown' h.content_eq

theorem Twins.mem_changedBy_iff (h : Twins e d) (hr : Regular e) (hr' : Regular d) (tx : Tx)
    (pid : PageId) : pid ∈ d.cache.changedBy tx ↔ pid ∈ e.cache.changedBy tx :=
  (hr'.orderly.proper.mem_changedBy_iff.trans (h.marks_iff tx pid)).trans
    hr.orderly.proper.mem_changedBy_iff.symm

/-- **A commit writes the same bytes in both stores.**  A byte of a page that the transaction changed
is one of the page's image, and any other is what it was. -/
theorem Twins.flushed_content {e₁ d₁ : Engine} (h : Twins e d) (hr : Regular e) (hr' : Regular d)
    (hf : Flushed dir (e.cache.changedBy tx) e e₁) (hf' : Flushed dir (d.cache.changedBy tx) d d₁)
    (path : Path) : d₁.disk.content path = e₁.disk.content path := by
  have hmem := h.mem_changedBy_iff hr hr' tx
  apply List.ext_getElem?
  intro i
  by_cases hcovered : ∃ p ∈ e.cache.changedBy tx, p.Covers dir e.config.pageSize path i
  · obtain ⟨p, hm, hcovers⟩ := hcovered
    obtain ⟨frame, hcached, -⟩ := hr.orderly.proper.mem_changedBy_iff.mp hm
    obtain ⟨frame', hcached', -⟩ := hr'.orderly.proper.mem_changedBy_iff.mp ((hmem p).mpr hm)
    have himage : frame'.page.image = frame.page.image := by
      rw [← Page.image_asStored, h.asStored_eq hr.sound hr'.sound hcached hcached',
        Page.image_asStored]
    have hbytes := (hf.written hm hcached).1
    have hbytes' := (hf'.written ((hmem p).mpr hm) hcached').1
    rw [h.pageSize_eq] at hbytes'
    rw [getElem?_of_covers hcovers, getElem?_of_covers hcovers, hbytes, hbytes', himage]
  · have hout : ∀ p ∈ e.cache.changedBy tx, ¬ p.Covers dir e.config.pageSize path i :=
      fun p hm hc => hcovered ⟨p, hm, hc⟩
    rw [hf.differs.byte_eq path i hout, hf'.differs.byte_eq path i fun p hm hc =>
      hout p ((hmem p).mp hm) (h.pageSize_eq ▸ hc), h.disk_eq]

/-- A completion takes the marks of its transaction away, and no others. -/
theorem Twins.cleans {e₁ d₁ : Engine} (h : Twins e d) (hr : Regular e) (hr' : Regular d)
    (hc : Cleans (e.cache.changedBy tx) e e₁) (hc' : Cleans (d.cache.changedBy tx) d d₁)
    (owner : Tx) (p : PageId) : d₁.Marks owner p ↔ e₁.Marks owner p := by
  rw [hc.marks_iff hr.orderly.proper, hc'.marks_iff hr'.orderly.proper, h.marks_iff]

theorem Twins.commit (h : Twins e d) (hr : Regular e) (hr' : Regular d)
    (hc : e.complete tx true = (e', .ok ())) (hc' : d.complete tx true = (d', .ok ())) :
    Twins e' d' := by
  obtain ⟨e₁, hflush, rfl⟩ := commit_ok hc
  obtain ⟨d₁, hflush', rfl⟩ := commit_ok hc'
  have hf := flushEach_flushed (hr.orderly.proper.nodup_changedBy tx) hr.orderly
    (hr.filed hr.sound rfl) hflush
  have hf' := flushEach_flushed (hr'.orderly.proper.nodup_changedBy tx) hr'.orderly
    (hr'.filed hr.sound h.catalog_eq.symm) hflush'
  have hcontent := (flushEach_rows hr.sound hflush).2.2
  have hcontent' := (flushEach_rows hr'.sound hflush').2.2
  have ht : Twins e₁ d₁ :=
    { pageSize_eq := by rw [hf.config_eq, hf'.config_eq, h.pageSize_eq]
      catalog_eq := by rw [hf.catalog_eq, hf'.catalog_eq, h.catalog_eq]
      disk_eq := h.flushed_content hr hr' hf hf'
      content_eq := fun r => by rw [hcontent, hcontent', h.content_eq]
      marks_iff := h.cleans hr hr' (flushEach_cleans hflush) (flushEach_cleans hflush') }
  exact ⟨ht.pageSize_eq, ht.catalog_eq, ht.disk_eq, ht.content_eq, ht.marks_iff⟩

theorem Twins.abort (h : Twins e d) (hr : Regular e) (hr' : Regular d)
    (hc : e.complete tx false = (e', .ok ())) (hc' : d.complete tx false = (d', .ok ())) :
    Twins e' d' := by
  obtain ⟨e₁, hrevert, rfl⟩ := abort_returned hc (returned_ok _)
  obtain ⟨d₁, hrevert', rfl⟩ := abort_returned hc' (returned_ok _)
  have hmoves := (revertEach_changed_settles hr.orderly.proper hrevert).moves
  have hmoves' := (revertEach_changed_settles hr'.orderly.proper hrevert').moves
  have hcatalog := (revertEach_changed_settles hr.orderly.proper hrevert).same.1
  have hcatalog' := (revertEach_changed_settles hr'.orderly.proper hrevert').same.1
  have hcontent := (revertEach_rows hr.sound hrevert (returned_ok _)).2.2
  have hcontent' := (revertEach_rows hr'.sound hrevert' (returned_ok _)).2.2
  have hmem := h.mem_changedBy_iff hr hr' tx
  have ht : Twins e₁ d₁ :=
    { pageSize_eq := by rw [hmoves.config_eq, hmoves'.config_eq, h.pageSize_eq]
      catalog_eq := by rw [hcatalog, hcatalog', h.catalog_eq]
      disk_eq := fun path => by rw [revertEach_disk hrevert, revertEach_disk hrevert', h.disk_eq]
      content_eq := fun r => by
        rw [hcontent, hcontent', h.content_eq, h.stored_eq]
        simp only [hmem]
      marks_iff := h.cleans hr hr' (revertEach_cleans hrevert (returned_ok _))
        (revertEach_cleans hrevert' (returned_ok _)) }
  exact ⟨ht.pageSize_eq, ht.catalog_eq, ht.disk_eq, ht.content_eq, ht.marks_iff⟩

/-! ## 4. Calls -/

/-- **Every call takes twins to twins**, and gets the same reply from both, every row cut. -/
theorem Twins.call {reply' : Reply} (h : Twins e d) (hr : Regular e) (hr' : Regular d)
    (hc : c.OfClients e.catalog) (he : Replies e c e' reply) (hd : Replies d c d' reply') :
    Twins e' d' ∧ reply'.cut = reply.cut := by
  cases he with
  | fetched hf =>
    cases hd with
    | fetched hf' =>
      have ht := h.fetches hr.sound hr'.sound (fetch_fetches hf) (fetch_fetches hf')
      have hs := ((fetch_fetches hf).sound hr.sound).1
      have hs' := ((fetch_fetches hf').sound hr'.sound).1
      have hpage := ht.asStored_eq hs hs' (fetch_ok hf).cached (fetch_ok hf').cached
      refine ⟨ht, ?_⟩
      simp only [Reply.cut, ← Page.rows_asStored, hpage, Reply.rows.injEq, and_true]
      rw [← Page.asStored_schema, hpage, Page.asStored_schema]
  | inserted hi =>
    cases hd with
    | inserted hi' =>
      obtain ⟨ht, rfl, rfl⟩ := h.insert hr hr' hi hi'
      exact ⟨ht, rfl⟩
  | deleted hdel =>
    cases hd with
    | deleted hdel' =>
      obtain ⟨ht, rfl⟩ := h.delete hr hr' hdel hdel'
      exact ⟨ht, rfl⟩
  | scanned hscan =>
    cases hd with
    | scanned hscan' =>
      refine ⟨h.fetches hr.sound hr'.sound (scan_cases hscan).1 (scan_cases hscan').1, ?_⟩
      have hlist := (hr.sound.scan hc hscan).1
      have hlist' := (hr'.sound.scan (h.catalog_eq ▸ hc) hscan').1
      simp only [Reply.cut, hlist.rows_eq hlist' fun r _ => h.content_eq r]
  | @completed tx commit _ hcomp =>
    cases hd with
    | completed hcomp' =>
      cases commit with
      | true => exact ⟨h.commit hr hr' hcomp hcomp', rfl⟩
      | false => exact ⟨h.abort hr hr' hcomp hcomp', rfl⟩

theorem Replies.catalog_eq (h : Replies e c e' reply) (ho : Orderly e) :
    e'.catalog = e.catalog := by
  cases h with
  | fetched hf => exact (fetch_fetches hf).same.1
  | inserted hi =>
    obtain ⟨_, -, -, ha⟩ := insert_alters ho hi
    exact ha.catalog_eq
  | deleted hd =>
    obtain ⟨_, -, -, ha⟩ := delete_alters ho hd
    exact ha.catalog_eq
  | scanned hs => exact (scan_cases hs).1.same.1
  | completed hc =>
    obtain ⟨e₁, hs, ⟨-, -, rfl⟩ | ⟨-, rfl⟩⟩ := complete_cases ho.proper hc
    · exact hs.same.1
    · exact hs.same.1

/-- **Twins stay twins**, whatever clients call. -/
theorem Twins.serve {replies' : List Reply} (h : Twins e d) (hr : Regular e) (hr' : Regular d)
    (hc : ∀ c ∈ calls, c.OfClients e.catalog) (he : serve calls e = some (e', replies))
    (hd : serve calls d = some (d', replies')) :
    Twins e' d' ∧ replies'.map Reply.cut = replies.map Reply.cut := by
  induction calls generalizing e d replies replies' with
  | nil =>
    cases he
    cases hd
    exact ⟨h, rfl⟩
  | cons c calls ih =>
    obtain ⟨e₁, reply, rest, hone, rfl, hrest, rfl⟩ := serve_cons he
    obtain ⟨d₁, reply', rest', hone', rfl, hrest', rfl⟩ := serve_cons hd
    obtain ⟨hfirst, hcalls⟩ := List.forall_mem_cons.mp hc
    obtain ⟨ht, hreply⟩ := h.call hr hr' hfirst hone hone'
    rw [← hone.catalog_eq hr.orderly] at hcalls
    obtain ⟨ht', hreplies⟩ := ih ht (hr.call hfirst) (hr'.call (h.catalog_eq ▸ hfirst)) hcalls
      hrest hrest'
    exact ⟨ht', by rw [List.map_cons, List.map_cons, hreply, hreplies]⟩

end RowStore.Engine
