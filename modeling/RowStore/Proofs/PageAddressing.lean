import RowStore.Proofs.FailedChange
import RowStore.Proofs.PageArray

/-!
# Counting pages and naming them

The number of pages of a table is a number of any size, but the position in a page's id has 32 bits,
and a page that is read or appended is checked against, or named by, the number of pages cut to 32
bits.  So the count and the ids agree exactly as long as there are fewer than 2^32 pages
(`TableFile.readable_iff_lt_iff`); with more, pages behind the cut count cannot be read, and the
page that is appended is written over one that is there.

Main statement: `TableFile.page_addressing`, for every file that can be opened as a table, whatever
its bytes are.  A file of 2^32 pages stands behind it: none of them can be read
(`page_unreadable`).
-/

namespace RowStore

namespace TableFile

variable {t : TableFile} {d d' : Disk} {pid : PageId}

/-- **The pages that can be read**, as far as the number of pages cut to 32 bits goes. -/
theorem readable_iff (hroomy : t.Roomy) (hu : d.isUsable t.handle = true)
    (hown : pid.table = t.id) :
    (∃ page, t.readPage d pid = .ok page)
      ↔ pid.index.toNat < t.pageCount d % UInt32.size := by
  have hlt : pid.index < UInt32.ofNat (t.pageCount d)
      ↔ pid.index.toNat < t.pageCount d % UInt32.size := by
    rw [UInt32.lt_iff_toNat_lt, UInt32.toNat_ofNat', UInt32.size]
  unfold readPage own countPages
  simp only [hown, hu, if_true, hlt]
  by_cases hi : pid.index.toNat < t.pageCount d % UInt32.size
  · have hcounted : pid.index.toNat < t.pageCount d := Nat.lt_of_lt_of_le hi (Nat.mod_le _ _)
    obtain ⟨page, hpage, -⟩ := @Page.ofBytes_of_pos pid
      (d.read t.path (pid.offset t.pageSize) t.pageSize) t.schema
      (by rwa [length_read hcounted])
    rw [if_pos hi]
    exact ⟨fun _ => hi, fun _ => ⟨page, hpage⟩⟩
  · rw [if_neg hi]
    constructor
    · rintro ⟨page, h⟩
      cases h
    · intro h
      exact absurd h hi

/-- **No page can be read** where there are as many as 32 bits have values, for then 32 bits count
none. -/
theorem unreadable_of_size (hroomy : t.Roomy) (hu : d.isUsable t.handle = true)
    (hown : pid.table = t.id) (hcount : t.pageCount d = UInt32.size) :
    ¬ ∃ page, t.readPage d pid = .ok page := by
  rw [readable_iff hroomy hu hown, hcount, Nat.mod_self]
  exact Nat.not_lt_zero _

/-- **The pages that can be read are those that are counted** exactly if 32 bits can count them. -/
theorem readable_iff_lt_iff (hroomy : t.Roomy) (hu : d.isUsable t.handle = true) :
    (∀ pid, pid.table = t.id →
        ((∃ page, t.readPage d pid = .ok page) ↔ pid.index.toNat < t.pageCount d))
      ↔ t.pageCount d < UInt32.size := by
  constructor
  · intro h
    refine Nat.lt_of_not_le fun hmany => ?_
    -- the first page behind the cut count is counted and cannot be read
    have hcut := Nat.mod_lt (t.pageCount d) (show 0 < UInt32.size by decide)
    have hindex := t.index_pageId hcut
    have hread := (h (t.pageId (t.pageCount d % UInt32.size)) rfl).mpr
      (by rw [hindex]; exact Nat.lt_of_lt_of_le hcut hmany)
    have hlt := (readable_iff hroomy hu rfl).mp hread
    rw [hindex] at hlt
    exact Nat.lt_irrefl _ hlt
  · intro hfew pid hown
    rw [readable_iff hroomy hu hown, Nat.mod_eq_of_lt hfew]

/-- **What appending does**, whatever number of pages there is: the block goes where the number of
pages cut to 32 bits says. -/
structure AppendsAt (t : TableFile) (d : Disk) (pid : PageId) (d' : Disk) : Prop where
  pid_eq : pid = t.pageId (t.pageCount d)
  index_eq : pid.index.toNat = t.pageCount d % UInt32.size
  blocks_eq : t.blocks d'
    = putBlock t.pageSize (t.blocks d) (t.pageCount d % UInt32.size) (Bytes.zeros t.pageSize)
  /-- The bytes that are there stay as long as 32 bits can count the pages. -/
  behind : t.pageCount d < UInt32.size →
    d'.content t.path = d.content t.path ++ Bytes.zeros t.pageSize
  /-- Otherwise the file does not grow, and the page is one that was there. -/
  wraps : UInt32.size ≤ t.pageCount d → t.pageCount d' = t.pageCount d
    ∧ t.blocks d' = (t.blocks d).set (t.pageCount d % UInt32.size) (Bytes.zeros t.pageSize)
  files : ∀ path, path ≠ t.path → d'.content path = d.content path
  usable : d.isUsable t.handle = true → d'.isUsable t.handle = true

theorem appendsAt_of_appendPage (hroomy : t.Roomy) (hwhole : t.pageSize ∣ d.length t.path)
    (h : t.appendPage d = (d', .ok pid)) : t.AppendsAt d pid d' := by
  rcases appendPage_cases h with ⟨hr, hd, -⟩ | ⟨-, f, hr⟩
  · cases hr
    have hindex : (t.pageId (t.pageCount d)).index.toNat = t.pageCount d % UInt32.size := by
      rw [pageId, UInt32.toNat_ofNat', UInt32.size]
    rw [PageId.offset, hindex] at hd
    have hblocks := blocks_writeAt hroomy.pageSize_pos hwhole (Bytes.length_zeros t.pageSize)
      (t.pageCount d % UInt32.size)
    rw [← hd] at hblocks
    refine ⟨rfl, hindex, hblocks, ?behind, ?wraps, ?files, ?usable⟩
    case behind =>
      intro hfew
      rw [hd, Nat.mod_eq_of_lt hfew]
      exact content_writeAt_end hwhole _
    case wraps =>
      intro hmany
      have hcut : t.pageCount d % UInt32.size < t.pageCount d :=
        Nat.lt_of_lt_of_le (Nat.mod_lt _ (by decide)) hmany
      constructor
      · rw [hd, pageCount_writeAt hroomy.pageSize_pos hwhole (Bytes.length_zeros _),
          Nat.max_eq_left hcut]
      · rw [hblocks, putBlock, if_pos (by rwa [length_blocks])]
    case files =>
      intro path hne
      rw [hd, Disk.content_writeAt_of_ne d _ _ hne]
    case usable =>
      intro hu
      rw [hd]
      exact hu
  · cases hr

/-- **Counting pages and naming them.**  Whatever file a table was opened in, its pages can be read
up to the number of pages cut to 32 bits; that is all pages that are counted, and no others, exactly
if 32 bits can count them.  Appending names the page by that number too: it leaves every byte that
is there, and the page can be read, as long as there are fewer than 2^32 - 1 pages.  The page that
makes it 2^32 leaves no page of the table that can be read, and behind that appending writes over a
page. -/
theorem page_addressing {idOf : Path → TableId} {name : String} {schema : Schema} {pageSize : Nat}
    (hopen : TableFile.openAt idOf d name schema pageSize = (d', .ok t))
    (hu : d'.isUsable t.handle = true) :
    (∀ pid, pid.table = t.id → ((∃ page, t.readPage d' pid = .ok page)
      ↔ pid.index.toNat < t.pageCount d' % UInt32.size))
    ∧ ((∀ pid, pid.table = t.id →
        ((∃ page, t.readPage d' pid = .ok page) ↔ pid.index.toNat < t.pageCount d'))
      ↔ t.pageCount d' < UInt32.size)
    ∧ ∀ pid d'', t.appendPage d' = (d'', .ok pid) →
      t.AppendsAt d' pid d''
      ∧ (t.pageCount d' + 1 < UInt32.size → t.Extended d' pid d'')
      ∧ (t.pageCount d' + 1 = UInt32.size →
        ∀ other, other.table = t.id → ¬ ∃ page, t.readPage d'' other = .ok page) := by
  obtain ⟨-, -, -, hroomy, hwhole⟩ := (Engine.openAt_cases hopen).2.2 t rfl
  refine ⟨fun pid hown => readable_iff hroomy hu hown, readable_iff_lt_iff hroomy hu, ?_⟩
  intro pid d'' h
  have happends := appendsAt_of_appendPage hroomy hwhole h
  refine ⟨happends, ?few, ?last⟩
  case few =>
    intro hfew
    obtain ⟨hadds, rfl⟩ := appends_of_appendPage (by omega) h
    exact hadds.extended hroomy hu hwhole hfew
  case last =>
    intro hlast other hown
    have hadds := (appends_of_appendPage (by omega) h).1
    exact unreadable_of_size hroomy (happends.usable hu) hown
      (by rw [hadds.pageCount_eq hroomy, hlast])

end TableFile

namespace Sample

/-- A file of two pages that no table has written. -/
def scribbled : Disk :=
  { files := [(table.path, .ofList (List.replicate 40 0xA5 ++ List.replicate 40 0xFF))] }

/-- The file after a table was opened in it. -/
def scribbledOpened : Disk := { scribbled with opened := 1 }

theorem openAt_scribbled :
    TableFile.openAt .file scribbled "t" schema 40 = (scribbledOpened, .ok table) :=
  openAt_t (by decide) (openFile_there rfl rfl) (by decide +kernel)

end Sample

open Sample in
/-- Of a file of two pages the second can be read and a third cannot, until it is appended; what the
file was made of is still there then. -/
theorem TableFile.page_addressing_two : ∃ d,
    TableFile.openAt .file scribbled "t" Sample.schema 40 = (scribbledOpened, .ok table)
    ∧ table.pageCount scribbledOpened = 2
    ∧ (∃ page, table.readPage scribbledOpened (table.pageId 1) = .ok page)
    ∧ (¬ ∃ page, table.readPage scribbledOpened (table.pageId 2) = .ok page)
    ∧ table.appendPage scribbledOpened = (d, .ok (table.pageId 2))
    ∧ d.content table.path = scribbledOpened.content table.path ++ Bytes.zeros 40
    ∧ (∃ page, table.readPage d (table.pageId 2) = .ok page)
    ∧ table.readPage d (table.pageId 1) = table.readPage scribbledOpened (table.pageId 1) := by
  have hu : scribbledOpened.isUsable table.handle = true := by decide
  have hcount : table.pageCount scribbledOpened = 2 := by decide +kernel
  obtain ⟨-, hagree, happend⟩ := TableFile.page_addressing openAt_scribbled hu
  have hreadable := hagree.mpr (by rw [hcount]; decide)
  rcases ha : table.appendPage scribbledOpened with ⟨d, r⟩
  have hok : r.toOption = some (table.pageId 2) := by
    rw [show r = (table.appendPage scribbledOpened).2 from congrArg Prod.snd ha.symm]
    decide +kernel
  cases r with
  | error f => cases hok
  | ok pid =>
    cases hok
    obtain ⟨-, hextended, -⟩ := happend _ _ ha
    have hadded := hextended (by rw [hcount]; decide)
    obtain ⟨page, hpage, -⟩ := hadded.added
    refine ⟨d, openAt_scribbled, hcount, (hreadable _ rfl).mpr ?_, fun hread => ?_, rfl,
      hadded.content_eq, ⟨page, hpage⟩, hadded.old _ rfl ?_⟩
    · rw [hcount]
      decide
    · have hlt := (hreadable _ rfl).mp hread
      rw [hcount] at hlt
      exact absurd hlt (by decide)
    · rw [hcount]
      decide

open Sample in
/-- **A page that is counted cannot be read** in a file of 2^32 pages, whose number cut to 32 bits
is zero. -/
theorem page_unreadable :
    TableFile.openAt .file vast.disk "t" flags 2 = (vastOpened.disk, .ok flagTable)
    ∧ flagTable.pageCount vastOpened.disk = 0x100000000
    ∧ (flagTable.pageId 0).index.toNat < flagTable.pageCount vastOpened.disk
    ∧ flagTable.readPage vastOpened.disk (flagTable.pageId 0)
      = .error (.pageOutOfRange (flagTable.pageId 0) 0) := by
  exact ⟨openAt_t (by decide) (openFile_there rfl rfl) (by decide +kernel), by decide +kernel,
    by decide +kernel, rfl⟩

end RowStore
