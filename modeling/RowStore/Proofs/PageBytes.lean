import RowStore.Proofs.Reachable

/-!
# The bytes of a page

Where all tables have pages of one size, a cached page is as large as they are, and some file
reaches as far as it does (`Engine.Uniform`).  That is little, but it holds whatever ids tables have.

Where moreover no two files have one id, which a directory of the files says (`Directory`), a page id
names a stretch of bytes of one file, whatever table is registered for the file at the moment: pages
of one file do not meet, and a cached page lies inside its file (`Engine.Filed`).  So a write of a
cached page changes the bytes of this page and neither any other byte nor the length of a file
(`Disk.Differs`, `Filed.write`).

Main statements: `Run.uniform` and `Run.filed`, for every run in which tables are registered with
pages of the store's own size; tables may be created again, taken out of the catalog and put back.
-/

namespace RowStore

/-! ## 1. Places on disk -/

/-- **To which file an id belongs.**  Ids are made from paths in some way, and nothing keeps two
paths from making one id.  Among the files of a directory no two do: an id belongs to one of them at
most, and none of them has two ids. -/
structure Directory where
  path? : TableId → Option Path
  unique : ∀ {a b : TableId} {path : Path}, path? a = some path → path? b = some path → a = b

/-- The directory of all files, where their ids are their paths. -/
def Directory.paths : Directory where
  path?
    | .file path => some path
    | .number _ => none
  unique {a b path} ha hb := by
    cases a <;> cases b <;> simp_all

/-- A byte of a file belongs to the page, pages being of this size. -/
def PageId.Covers (pid : PageId) (dir : Directory) (size : Nat) (path : Path) (i : Nat) : Prop :=
  dir.path? pid.table = some path ∧ pid.offset size ≤ i ∧ i < pid.offset size + size

/-- No byte belongs to two pages. -/
theorem PageId.eq_of_covers {pid other : PageId} {dir : Directory} {size : Nat} {path : Path}
    {i : Nat} (h : pid.Covers dir size path i) (h' : other.Covers dir size path i) :
    pid = other := by
  obtain ⟨ht, hle, hlt⟩ := h
  obtain ⟨ht', hle', hlt'⟩ := h'
  apply Classical.byContradiction
  intro hne
  have hindex := TableFile.index_ne_of_ne (dir.unique ht' ht) (Ne.symm hne)
  unfold PageId.offset at hle hlt hle' hlt'
  rcases @TableFile.disjoint_of_index_ne other.index.toNat pid.index.toNat size hindex with hd | hd
    <;> omega

namespace Bytes

variable {content data : List UInt8} {offset i : Nat}

/-- What stands before the written part stays. -/
theorem getElem?_writeAt_of_lt (h : i < offset) (hc : offset ≤ content.length) :
    (writeAt content offset data)[i]? = content[i]? := by
  rw [← List.getElem?_take_of_lt h, take_writeAt, List.getElem?_take_of_lt h,
    List.getElem?_append_left (Nat.lt_of_lt_of_le h hc)]

/-- What stands behind the written part stays. -/
theorem getElem?_writeAt_of_ge (h : offset + data.length ≤ i) :
    (writeAt content offset data)[i]? = content[i]? := by
  have hi : i = offset + (i - offset) := by omega
  have hd : i - offset = data.length + (i - (offset + data.length)) := by omega
  rw [hi, ← List.getElem?_drop, drop_writeAt, hd, List.getElem?_append_right (Nat.le_add_right ..),
    Nat.add_sub_cancel_left, List.getElem?_drop]
  congr 1
  omega

/-- A stretch of bytes is the same if every byte in it is. -/
theorem slice_congr {content' : List UInt8} {size : Nat}
    (h : ∀ i, offset ≤ i → i < offset + size → content'[i]? = content[i]?) :
    slice content' offset size = slice content offset size := by
  apply List.ext_getElem?
  intro i
  simp only [slice, List.getElem?_take, List.getElem?_drop]
  split
  · exact h _ (by omega) (by omega)
  · rfl

end Bytes

namespace Disk

variable {d d' d₁ : Disk} {dir : Directory} {size : Nat} {pid : PageId} {pids : List PageId}
  {path : Path}

/-- **The bytes of a page**, pages being of this size.  A page of no file has none. -/
def pageBytes (d : Disk) (dir : Directory) (size : Nat) (pid : PageId) : List UInt8 :=
  match dir.path? pid.table with
  | some path => d.read path (pid.offset size) size
  | none => []

/-- The page lies inside its file. -/
def Holds (d : Disk) (dir : Directory) (size : Nat) (pid : PageId) : Prop :=
  ∃ path, dir.path? pid.table = some path ∧ pid.offset size + size ≤ d.length path

theorem Holds.mono (h : d.Holds dir size pid) (hle : ∀ path, d.length path ≤ d'.length path) :
    d'.Holds dir size pid := by
  obtain ⟨path, ht, hin⟩ := h
  exact ⟨path, ht, Nat.le_trans hin (hle path)⟩

theorem length_congr (h : ∀ path, d'.content path = d.content path) (path : Path) :
    d'.length path = d.length path := by
  rw [← length_content, h, length_content]

theorem length_le_congr (h : ∀ path, d'.content path = d.content path) (path : Path) :
    d.length path ≤ d'.length path :=
  Nat.le_of_eq (length_congr h path).symm

/-- A write makes no file shorter. -/
theorem length_le_writeAt (d : Disk) (path : Path) (offset : Nat) (bytes : List UInt8) (p : Path) :
    d.length p ≤ (d.writeAt path offset bytes).length p := by
  by_cases hp : p = path
  · rw [hp, length_writeAt_self]
    exact Nat.le_max_left _ _
  · refine Nat.le_of_eq ?_
    rw [← length_content, ← length_content, content_writeAt_of_ne d _ _ hp]

theorem pageBytes_of_path (ht : dir.path? pid.table = some path) :
    d.pageBytes dir size pid = Bytes.slice (d.content path) (pid.offset size) size := by
  unfold pageBytes
  rw [ht]
  exact d.read_eq_slice path _ _

/-- A page's bytes are the same if all bytes that belong to it are. -/
theorem pageBytes_congr (h : ∀ path i, pid.Covers dir size path i →
    (d'.content path)[i]? = (d.content path)[i]?) :
    d'.pageBytes dir size pid = d.pageBytes dir size pid := by
  cases ht : dir.path? pid.table with
  | none =>
    unfold pageBytes
    rw [ht]
  | some path =>
    rw [pageBytes_of_path ht, pageBytes_of_path ht]
    exact Bytes.slice_congr fun i hle hlt => h path i ⟨ht, hle, hlt⟩

/-- **At most these pages differ**, and no other byte and no length does. -/
structure Differs (dir : Directory) (size : Nat) (pids : List PageId) (d d' : Disk) : Prop where
  byte_eq : ∀ path i, (∀ pid ∈ pids, ¬pid.Covers dir size path i) →
    (d'.content path)[i]? = (d.content path)[i]?
  length_eq : ∀ path, d'.length path = d.length path

theorem Differs.of_content (pids : List PageId) (h : ∀ path, d'.content path = d.content path) :
    Differs dir size pids d d' :=
  ⟨fun path i _ => by rw [h], length_congr h⟩

theorem Differs.cons (h : Differs dir size [pid] d d₁) (h' : Differs dir size pids d₁ d') :
    Differs dir size (pid :: pids) d d' where
  byte_eq path i hno := by
    obtain ⟨hpid, hpids⟩ := List.forall_mem_cons.mp hno
    rw [h'.byte_eq path i hpids, h.byte_eq path i (List.forall_mem_singleton.mpr hpid)]
  length_eq path := (h'.length_eq path).trans (h.length_eq path)

theorem Differs.trans (h : Differs dir size pids d d₁) (h' : Differs dir size pids d₁ d') :
    Differs dir size pids d d' where
  byte_eq path i hno := (h'.byte_eq path i hno).trans (h.byte_eq path i hno)
  length_eq path := (h'.length_eq path).trans (h.length_eq path)

/-- Any other page is as it was. -/
theorem Differs.pageBytes_eq (h : Differs dir size pids d d') (hnot : pid ∉ pids) :
    d'.pageBytes dir size pid = d.pageBytes dir size pid := by
  refine pageBytes_congr fun path i hc => h.byte_eq path i ?_
  intro other hm ho
  exact hnot (PageId.eq_of_covers hc ho ▸ hm)

/-- **A write of a page inside its file** changes this page only. -/
theorem differs_writeAt {bytes : List UInt8} (ht : dir.path? pid.table = some path)
    (hin : pid.offset size + size ≤ d.length path) (hlen : bytes.length = size) :
    Differs dir size [pid] d (d.writeAt path (pid.offset size) bytes)
      ∧ (d.writeAt path (pid.offset size) bytes).pageBytes dir size pid = bytes := by
  refine ⟨⟨fun p i hno => ?_, fun p => ?_⟩, ?_⟩
  · by_cases hp : p = path
    · subst hp
      rw [content_writeAt_self]
      have hout : i < pid.offset size ∨ pid.offset size + size ≤ i := by
        apply Classical.byContradiction
        intro hc
        rw [not_or, Nat.not_lt, Nat.not_le] at hc
        exact hno pid List.mem_cons_self ⟨ht, hc.1, hc.2⟩
      rcases hout with hlt | hge
      · refine Bytes.getElem?_writeAt_of_lt hlt ?_
        rw [length_content]
        omega
      · exact Bytes.getElem?_writeAt_of_ge (hlen.symm ▸ hge)
    · rw [content_writeAt_of_ne d _ _ hp]
  · by_cases hp : p = path
    · subst hp
      rw [length_writeAt_self, hlen, Nat.max_eq_left hin]
    · rw [← length_content, content_writeAt_of_ne d _ _ hp, length_content]
  · rw [pageBytes_of_path ht, content_writeAt_self]
    have hslice := Bytes.slice_writeAt_self (d.content path) (pid.offset size) bytes
    rwa [hlen] at hslice

/-- An empty page behind the last one shortens no file, and every page that lay inside its file is
as it was. -/
theorem pageBytes_append {t : TableFile} (ha : t.Appends d d') :
    (∀ path, d.length path ≤ d'.length path)
      ∧ ∀ dir pid, d.Holds dir t.pageSize pid →
        d'.pageBytes dir t.pageSize pid = d.pageBytes dir t.pageSize pid := by
  have hstart : t.pageCount d * t.pageSize ≤ d.length t.path := Nat.div_mul_le_self _ _
  refine ⟨fun path => ?_, fun dir pid hin => pageBytes_congr fun path i hc => ?_⟩
  · by_cases hp : path = t.path
    · rw [hp, ha.disk_eq, length_writeAt_self]
      exact Nat.le_max_left _ _
    · refine Nat.le_of_eq ?_
      rw [← length_content, ← length_content, ha.content_of_ne hp]
  · by_cases hp : path = t.path
    · subst hp
      obtain ⟨path, ht, hstop⟩ := hin
      obtain ⟨ht', -, hlt⟩ := hc
      cases ht.symm.trans ht'
      -- the page ends before the last whole page of the file does
      have hle : pid.offset t.pageSize + t.pageSize ≤ t.pageCount d * t.pageSize := by
        rcases Nat.eq_zero_or_pos t.pageSize with hz | hpos
        · simp [PageId.offset, hz]
        · unfold PageId.offset at hstop ⊢
          rw [← Nat.succ_mul] at hstop ⊢
          exact Nat.mul_le_mul_right _ ((Nat.le_div_iff_mul_le hpos).mpr hstop)
      rw [ha.disk_eq, content_writeAt_self]
      refine Bytes.getElem?_writeAt_of_lt (Nat.lt_of_lt_of_le hlt hle) ?_
      rwa [length_content]
    · rw [ha.content_of_ne hp]

end Disk

/-! ## 2. The invariants -/

/-- The table has pages of the store's size, with room for a row, and is registered under its own
id, which is that of its file. -/
structure TableFile.Sized (t : TableFile) (config : Config) (id : TableId) : Prop where
  id_eq : t.id = id
  idOf_eq : config.idOf t.path = id
  pageSize_eq : t.pageSize = config.pageSize
  roomy : t.Roomy

namespace Engine

variable {e e' : Engine} {dir : Directory} {tx : Tx} {pid : PageId} {frame : Frame} {page : Page}
  {table : TableFile} {id : TableId} {disk : Disk} {events : List Event}

/-- The page is as large as all pages are, and some file reaches as far as it does. -/
def Fits (e : Engine) (pid : PageId) (page : Page) : Prop :=
  page.size = e.config.pageSize
    ∧ ∃ path, pid.offset e.config.pageSize + e.config.pageSize ≤ e.disk.length path

/-- **All pages have one size**: those of every registered table, and those that are cached. -/
structure Uniform (e : Engine) : Prop where
  tables : ∀ {id : TableId} {table : TableFile}, e.catalog.table? id = some table →
    table.Sized e.config id
  cached : ∀ {pid : PageId} {frame : Frame}, e.cache.find? pid = some frame →
    e.Fits pid frame.page

/-- **Every page is in one file**: all pages have one size, every registered table is in the file of
its id, and every cached page lies inside its file. -/
structure Filed (dir : Directory) (e : Engine) : Prop extends Uniform e where
  path?_eq : ∀ {id : TableId} {table : TableFile}, e.catalog.table? id = some table →
    dir.path? id = some table.path
  holds : ∀ {pid : PageId} {frame : Frame}, e.cache.find? pid = some frame →
    e.disk.Holds dir e.config.pageSize pid

theorem uniform_new (config : Config) (disk : Disk) :
    Uniform { config := config, disk := disk } where
  tables h := by cases h
  cached h := by cases h

theorem filed_new (dir : Directory) (config : Config) (disk : Disk) :
    Filed dir { config := config, disk := disk } where
  toUniform := uniform_new config disk
  path?_eq h := by cases h
  holds h := by cases h

/-- A page that is read from disk lies inside the file of its table, and is as large as its pages. -/
theorem Uniform.of_readPage (hu : Uniform e) (h : e.readPage pid = .ok page) :
    page.size = e.config.pageSize ∧ ∃ table, e.catalog.table? pid.table = some table
      ∧ pid.offset e.config.pageSize + e.config.pageSize ≤ e.disk.length table.path := by
  obtain ⟨table, ht, hr⟩ := readPage_eq_ok_iff.mp h
  have hsize := (hu.tables ht).pageSize_eq
  obtain ⟨hshape, -, -⟩ := TableFile.shapes_of_pageAt hr.pageAt.1
  obtain ⟨⟨-, hlt⟩, -⟩ := TableFile.pageAt_eq_some_iff.mp hr.pageAt.1
  have hstop := TableFile.stop_le_length hlt
  rw [hsize] at hstop
  exact ⟨hshape.size_eq.trans hsize, table, ht, hstop⟩

/-- **Writing a cached page** changes the bytes of this page, to its image, and nothing else on
disk. -/
theorem Filed.write (hu : Filed dir e) (hp : e.cache.Proper) (hf : e.cache.find? pid = some frame)
    (ht : e.catalog.table? pid.table = some table) (hw : table.Writes e.disk frame.page disk) :
    Disk.Differs dir e.config.pageSize [pid] e.disk disk
      ∧ disk.pageBytes dir e.config.pageSize pid = frame.page.image := by
  have hpath := hu.path?_eq ht
  have hsize := (hu.cached hf).1
  obtain ⟨path, hpath', hin⟩ := hu.holds hf
  cases hpath.symm.trans hpath'
  rw [hw.disk_eq, hp.keyed hf, (hu.tables ht).pageSize_eq]
  exact Disk.differs_writeAt hpath hin ((Page.length_image _).trans hsize)

/-- **Where cached pages come from**: every one was cached before, with the same size, or was just
read.  No file gets shorter. -/
structure Derives (e e' : Engine) : Prop where
  config_eq : e'.config = e.config
  catalog_eq : e'.catalog = e.catalog
  length_le : ∀ path, e.disk.length path ≤ e'.disk.length path
  page : ∀ {pid : PageId} {frame : Frame}, e'.cache.find? pid = some frame →
    (∃ old, e.cache.find? pid = some old ∧ frame.page.size = old.page.size)
      ∨ e.readPage pid = .ok frame.page

theorem Derives.uniform (h : Derives e e') (hu : Uniform e) : Uniform e' where
  tables ht := h.config_eq ▸ hu.tables (h.catalog_eq ▸ ht)
  cached {pid frame} hf := by
    unfold Fits
    rw [h.config_eq]
    rcases h.page hf with ⟨old, hold, hsize⟩ | hread
    · obtain ⟨hfits, path, hin⟩ := hu.cached hold
      exact ⟨hsize.trans hfits, path, Nat.le_trans hin (h.length_le path)⟩
    · obtain ⟨hfits, table, -, hin⟩ := hu.of_readPage hread
      exact ⟨hfits, table.path, Nat.le_trans hin (h.length_le table.path)⟩

theorem Derives.filed (h : Derives e e') (hu : Filed dir e) : Filed dir e' where
  toUniform := h.uniform hu.toUniform
  path?_eq ht := hu.path?_eq (h.catalog_eq ▸ ht)
  holds {pid frame} hf := by
    rw [h.config_eq]
    rcases h.page hf with ⟨old, hold, -⟩ | hread
    · exact (hu.holds hold).mono h.length_le
    · obtain ⟨-, table, ht, hin⟩ := hu.of_readPage hread
      exact ⟨table.path, hu.path?_eq ht, Nat.le_trans hin (h.length_le table.path)⟩

/-! ## 3. Steps -/

theorem Recached.derives (h : Recached e e') : Derives e e' :=
  ⟨h.config_eq, h.catalog_eq, fun _ => Nat.le_of_eq (by rw [h.disk_eq]),
    fun hf => (h.find? hf).imp_left fun hold => ⟨_, hold, rfl⟩⟩

/-- How an empty page is written behind the last one, or is not. -/
theorem appends_or_same {r : Except Failure PageId} (hc : table.pageCount e.disk < UInt32.size)
    (h : table.appendPage e.disk = (disk, r)) :
    table.Appends e.disk disk ∨ ∀ path, disk.content path = e.disk.content path := by
  cases r with
  | ok pid => exact Or.inl (TableFile.appends_of_appendPage hc h).1
  | error f =>
    rcases TableFile.appendPage_cases h with ⟨hr, -⟩ | ⟨rfl | rfl, -⟩
    · cases hr
    · exact Or.inr fun _ => rfl
    · exact Or.inr (content_of_files rfl)

/-- Whether an empty page is written or not, no file gets shorter and no page inside its file
changes. -/
theorem pageBytes_appendPage {r : Except Failure PageId}
    (hc : table.pageCount e.disk < UInt32.size) (h : table.appendPage e.disk = (disk, r)) :
    (∀ path, e.disk.length path ≤ disk.length path)
      ∧ ∀ dir pid, e.disk.Holds dir table.pageSize pid →
        disk.pageBytes dir table.pageSize pid = e.disk.pageBytes dir table.pageSize pid := by
  rcases appends_or_same hc h with ha | hsame
  · exact Disk.pageBytes_append ha
  · exact ⟨Disk.length_le_congr hsame,
      fun _ pid _ => Disk.pageBytes_congr fun path i _ => by rw [hsame]⟩

theorem SettleStep.derives (h : SettleStep e e') : Derives e e' := by
  cases h with
  | @write pid frame table disk hf ht hw =>
    refine ⟨rfl, rfl, fun path => hw.disk_eq ▸ e.disk.length_le_writeAt _ _ _ path,
      fun {p found} hfound => ?_⟩
    rw [find?_write hf] at hfound
    split at hfound
    · rename_i he
      cases hfound
      exact Or.inl ⟨frame, he ▸ hf, rfl⟩
    · exact Or.inl ⟨found, hfound, rfl⟩
  | revert hr _ => exact (revertPage_recached hr).derives
  | halt hh =>
    refine ⟨hh.config_eq, hh.catalog_eq, Disk.length_le_congr (content_of_files hh.files_eq),
      fun hf => ?_⟩
    obtain ⟨old, hold, he⟩ := hh.find? hf
    exact Or.inl ⟨old, hold, by rw [he]⟩

/-- **In every step pages come from pages of the same size.** -/
theorem Move.derives (h : Move e e') (hp : e.cache.Proper) : Derives e e' := by
  cases h with
  | fetch hf => exact (hf.recached hp).derives
  | append _ hc ha =>
    exact ⟨rfl, rfl, (pageBytes_appendPage hc ha).1, fun hf => Or.inl ⟨_, hf, rfl⟩⟩
  | @change _ tx pid frame page rid values hh hpage =>
    refine ⟨rfl, rfl, fun _ => Nat.le_refl _, fun {p found} hf => ?_⟩
    rw [find?_changePage] at hf
    split at hf
    · rename_i he
      cases hf
      exact Or.inl ⟨frame, he ▸ hh.cached, hpage.same.2.size_eq⟩
    · exact Or.inl ⟨found, hf, rfl⟩
  | settle hs => exact hs.derives
  | releaseAll _ => exact ⟨rfl, rfl, fun _ => Nat.le_refl _, fun hf => Or.inl ⟨_, hf, rfl⟩⟩

theorem Moves.uniform (h : Moves e e') (ho : Orderly e) (hu : Uniform e) : Uniform e' := by
  induction h with
  | refl => exact hu
  | tail hm hs ih => exact (hs.derives (Moves.orderly hm ho).proper).uniform ih

theorem Moves.filed (h : Moves e e') (ho : Orderly e) (hu : Filed dir e) : Filed dir e' := by
  induction h with
  | refl => exact hu
  | tail hm hs ih => exact (hs.derives (Moves.orderly hm ho).proper).filed ih

/-- **No file gets shorter.** -/
theorem Moves.length_le (h : Moves e e') (ho : Orderly e) (path : Path) :
    e.disk.length path ≤ e'.disk.length path := by
  induction h with
  | refl => exact Nat.le_refl _
  | tail hm hs ih =>
    exact Nat.le_trans ih ((hs.derives (Moves.orderly hm ho).proper).length_le path)

/-! ## 4. Runs -/

/-- With fewer pages cached, every page still is in one file. -/
theorem Filed.of_cache (hu : Filed dir e) {cache : Cache} {locks : LockTable}
    (h : ∀ {pid : PageId} {frame : Frame}, cache.find? pid = some frame →
      e.cache.find? pid = some frame) : Filed dir { e with cache := cache, locks := locks } :=
  ⟨⟨hu.tables, fun hf => hu.cached (h hf)⟩, hu.path?_eq, fun hf => hu.holds (h hf)⟩

end Engine

/-- **The calls that know one size of pages**: all but the registration of a table with pages of
another size, or with no room for a row, or with an id that its file does not have. -/
def Call.OneSize (e : Engine) : Call → Prop
  | register table _ => table.Sized e.config table.id
  | _ => True

/-- **The calls on the files of a directory**: they know one size of pages, and every table that they
register is in the file that the directory has for its id.  So no two files have one id. -/
structure Call.Filed (dir : Directory) (e : Engine) (c : Call) : Prop where
  oneSize : c.OneSize e
  path?_eq : ∀ {table : TableFile}, c.Registers e table → dir.path? table.id = some table.path

/-- A table that such a call registers has pages of the store's size. -/
theorem Call.OneSize.sized {e : Engine} {c : Call} {table : TableFile} (h : c.OneSize e)
    (hr : c.Registers e table) : table.Sized e.config table.id := by
  cases c with
  | createTable file name schema =>
    obtain ⟨e', hcreate⟩ := hr
    have hnew := Engine.asked_of_createTable hcreate
    exact ⟨rfl, hnew.idOf_eq, hnew.pageSize_eq, hnew.roomy⟩
  | register new name =>
    obtain rfl : new = table := hr
    exact h
  | _ => exact hr.elim

/-- Where ids are paths, these are the calls on the files of the directory of all paths. -/
theorem Call.OneSize.filed {e : Engine} {c : Call} (h : c.OneSize e) (hid : e.config.idOf = .file) :
    c.Filed .paths e := by
  refine ⟨h, fun {table} hr => ?_⟩
  have hpath := (h.sized hr).idOf_eq
  rw [hid] at hpath
  rw [← hpath]
  rfl

namespace Engine

variable {e e' : Engine} {dir : Directory} {c : Call} {events : List Event}

theorem Administers.uniform (h : Administers c e e') (hc : c.OneSize e) (hu : Uniform e) :
    Uniform e' where
  tables {id table} ht := by
    rw [h.config_eq]
    rcases h.registered ht with hold | ⟨rfl, hr⟩
    · exact hu.tables hold
    · exact hc.sized hr
  cached {pid frame} hf := by
    obtain ⟨hsize, path, hin⟩ := hu.cached (h.cached hf)
    unfold Fits
    rw [h.config_eq]
    exact ⟨hsize, path, (Disk.length_congr h.content_eq path).symm ▸ hin⟩

theorem Administers.filed (h : Administers c e e') (hc : c.Filed dir e) (hu : Filed dir e) :
    Filed dir e' where
  toUniform := h.uniform hc.oneSize hu.toUniform
  path?_eq {id table} ht := by
    rcases h.registered ht with hold | ⟨rfl, hr⟩
    · exact hu.path?_eq hold
    · exact hc.path?_eq hr
  holds hf := h.config_eq ▸ (hu.holds (h.cached hf)).mono (Disk.length_le_congr h.content_eq)

/-- **Every such call leaves pages of one size.** -/
theorem Uniform.call (hu : Uniform e) (ho : Orderly e) (hc : c.OneSize e)
    (h : e.call c = (e', events)) : Uniform e' := by
  by_cases hp : c.UsesPages
  · exact ((did_of_call ho.proper hp h).moves ho).uniform ho hu
  · exact (administers_of_call hp h).uniform hc hu

/-- **Every call on the files of the directory leaves every page in one file.** -/
theorem Filed.call (hu : Filed dir e) (ho : Orderly e) (hc : c.Filed dir e)
    (h : e.call c = (e', events)) : Filed dir e' := by
  by_cases hp : c.UsesPages
  · exact ((did_of_call ho.proper hp h).moves ho).filed ho hu
  · exact (administers_of_call hp h).filed hc hu

end Engine

open Engine

/-- **All pages have one size** in every state that is reached without registering another one. -/
theorem Run.uniform {start e : Engine} {log : List Event} (ho : Orderly start)
    (hu : Uniform start) (h : Run (fun e c => c.OneSize e) start e log) : Uniform e := by
  induction h with
  | nil => exact hu
  | call c hr hc he ih => exact ih.call (Run.orderly ho hr) hc he

/-- **Every page is in one file** in every state that is reached on the files of a directory. -/
theorem Run.filed {dir : Directory} {start e : Engine} {log : List Event} (ho : Orderly start)
    (hu : Filed dir start) (h : Run (fun e c => c.Filed dir e) start e log) : Filed dir e := by
  induction h with
  | nil => exact hu
  | call c hr hc he ih => exact ih.call (Run.orderly ho hr) hc he

/-- Where ids are paths, a run with pages of one size is a run on the files of one directory. -/
theorem Run.on_paths {start e : Engine} {log : List Event} (ho : Orderly start)
    (hid : start.config.idOf = .file) (h : Run (fun e c => c.OneSize e) start e log) :
    Run (fun e c => c.Filed .paths e) start e log := by
  induction h with
  | nil => exact .nil
  | call c hr hc he ih =>
    have hconfig := Run.config_eq ho hr
    exact .call c ih (hc.filed (by rw [hconfig, hid])) he

end RowStore
