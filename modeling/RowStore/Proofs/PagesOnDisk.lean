import RowStore.Disk.Lemmas
import RowStore.Proofs.Engine.Completing

/-!
# A table's file as pages

What stands in a table's file is its pages, each read off its own stretch of bytes
(`TableFile.pageAt`).  Writing a page of the table's shape changes that page and no other
(`pageAt_writes`); writing an empty page behind the last one adds one page without rows
(`pageAt_appends`).  Nothing here depends on handles or on what is cached.

Reading a page through its table gives the page that stands there, as long as the pages can be
counted with 32 bits (`readPage_eq`).
-/

namespace RowStore

/-! ## 1. Bytes -/

/-- What lies beside the written part reads as before. -/
theorem Bytes.slice_writeAt_of_disjoint {content : List UInt8} {offset from_ size : Nat}
    {data : List UInt8} (hin : from_ + size ≤ content.length)
    (h : from_ + size ≤ offset ∨ offset + data.length ≤ from_) :
    slice (writeAt content offset data) from_ size = slice content from_ size := by
  rcases h with h | h
  · rw [slice_writeAt_of_le data h, slice, List.drop_append_of_le_length (by omega),
      List.take_append_of_le_length (by rw [List.length_drop]; omega), slice]
  · exact slice_writeAt_of_ge size h

theorem Disk.length_writeAt_self (d : Disk) (path : Path) (offset : Nat) (bytes : List UInt8) :
    (d.writeAt path offset bytes).length path = max (d.length path) (offset + bytes.length) := by
  rw [← Disk.length_content, Disk.content_writeAt_self, Bytes.length_writeAt, Disk.length_content]

/-! ## 2. Pages without rows -/

namespace Page

theorem bitsOf_zeros {schema : Schema} {n : Nat} {b : Bool}
    (h : b ∈ bitsOf schema (Bytes.zeros n)) : b = false := by
  obtain ⟨byte, hbyte, hb⟩ := List.mem_flatMap.mp (List.mem_of_mem_take h)
  have hzero : byte = 0 := List.eq_of_mem_replicate (List.mem_of_mem_take hbyte)
  have hclear : ∀ bit ∈ Bytes.bitsOfByte 0, bit = false := by decide
  exact hclear b (hzero ▸ hb)

/-- **A page of zeros has no row.** -/
theorem row?_of_zeros {pid : PageId} {n : Nat} {schema : Schema} {p : Page}
    (h : ofBytes pid (Bytes.zeros n) schema = .ok p) (slot : Nat) : p.row? slot = none := by
  have hread := of_ofBytes h
  cases hr : p.row? slot with
  | none => rfl
  | some row =>
    have hused := (hread.wellFormed.isUsed_iff slot).mpr ⟨row, hr⟩
    rw [isUsed, hread.bitmap_eq] at hused
    cases hb : (bitsOf schema (Bytes.zeros n))[slot]? with
    | none => simp [hb] at hused
    | some b =>
      rw [hb, bitsOf_zeros (List.mem_of_getElem? hb)] at hused
      simp at hused

end Page

namespace TableFile

variable {t : TableFile} {disk disk' : Disk} {pid : PageId} {page : Page}

/-! ## 3. The page at a position -/

/-- The pages have room for a row. -/
def Roomy (t : TableFile) : Prop := 0 < PageLayout.slotCount t.schema t.pageSize

theorem Roomy.pageSize_pos (h : t.Roomy) : 0 < t.pageSize := by
  apply Nat.pos_of_ne_zero
  intro hz
  simp [Roomy, PageLayout.slotCount, hz] at h

/-- **The page that stands in the table's file** at the position a page id names. -/
def pageAt (t : TableFile) (disk : Disk) (pid : PageId) : Option Page :=
  if pid.table = t.id ∧ pid.index.toNat < t.pageCount disk then
    (Page.ofBytes pid (disk.read t.path (pid.offset t.pageSize) t.pageSize) t.schema).toOption
  else none

/-- The page is one that could stand in the table's file. -/
structure Shapes (t : TableFile) (page : Page) : Prop where
  wellFormed : page.WellFormed
  schema_eq : page.schema = t.schema
  size_eq : page.size = t.pageSize

theorem pageAt_eq_some_iff : t.pageAt disk pid = some page
    ↔ (pid.table = t.id ∧ pid.index.toNat < t.pageCount disk)
      ∧ Page.ofBytes pid (disk.read t.path (pid.offset t.pageSize) t.pageSize) t.schema
        = .ok page := by
  unfold pageAt
  split
  · rename_i h
    cases Page.ofBytes pid (disk.read t.path (pid.offset t.pageSize) t.pageSize) t.schema with
    | error f => simp [Except.toOption]
    | ok p => simp [Except.toOption, h]
  · rename_i h
    simp [h]

/-- A page that is counted ends inside the file. -/
theorem stop_le_length (hi : pid.index.toNat < t.pageCount disk) :
    pid.offset t.pageSize + t.pageSize ≤ disk.length t.path := by
  have hm := Nat.mul_le_mul_right t.pageSize (Nat.succ_le_of_lt hi)
  have hd := Nat.div_mul_le_self (disk.length t.path) t.pageSize
  rw [Nat.succ_mul] at hm
  unfold pageCount at hm
  unfold PageId.offset
  omega

theorem length_read (hi : pid.index.toNat < t.pageCount disk) :
    (disk.read t.path (pid.offset t.pageSize) t.pageSize).length = t.pageSize := by
  have hs := stop_le_length hi
  rw [Disk.read_eq_slice, Bytes.length_slice, Disk.length_content]
  omega

theorem shapes_of_pageAt (h : t.pageAt disk pid = some page) :
    t.Shapes page ∧ page.pid = pid ∧ page.dirty = none := by
  obtain ⟨⟨_, hi⟩, hb⟩ := pageAt_eq_some_iff.mp h
  have hread := Page.of_ofBytes hb
  exact ⟨⟨hread.wellFormed, hread.schema_eq, hread.size_eq.trans (length_read hi)⟩, hread.pid_eq,
    hread.clean⟩

/-- **At every position that is counted there is a page.** -/
theorem pageAt_of_lt (hr : t.Roomy) (hown : pid.table = t.id)
    (hi : pid.index.toNat < t.pageCount disk) : ∃ page, t.pageAt disk pid = some page := by
  obtain ⟨page, hp, -⟩ := @Page.ofBytes_of_pos pid
    (disk.read t.path (pid.offset t.pageSize) t.pageSize) t.schema (by rwa [length_read hi])
  exact ⟨page, pageAt_eq_some_iff.mpr ⟨⟨hown, hi⟩, hp⟩⟩

/-- Behind the last page there is none. -/
theorem pageAt_of_le (h : t.pageCount disk ≤ pid.index.toNat) : t.pageAt disk pid = none := by
  unfold pageAt
  rw [if_neg fun hc => Nat.not_lt.mpr h hc.2]

/-! ## 4. Reading through the table -/

/-- **A page that is read is the one that stands there**, and never the last that 32 bits can
name. -/
theorem Reads.pageAt (h : t.Reads disk pid page) :
    t.pageAt disk pid = some page ∧ pid.index.toNat + 1 < UInt32.size := by
  have hlt := UInt32.lt_iff_toNat_lt.mp h.index_lt
  rw [UInt32.toNat_ofNat'] at hlt
  have hle := Nat.mod_le (t.pageCount disk) (2 ^ 32)
  have hmod := Nat.mod_lt (t.pageCount disk) (show 0 < 2 ^ 32 by decide)
  refine ⟨pageAt_eq_some_iff.mpr ⟨⟨h.own, by omega⟩, h.ofBytes⟩, ?_⟩
  rw [UInt32.size]
  omega

/-- **Where pages can be counted with 32 bits, every page that stands there can be read** through a
handle that can be used, and no other. -/
theorem readPage_eq (hu : disk.isUsable t.handle = true) (hown : pid.table = t.id)
    (hc : t.pageCount disk < UInt32.size) :
    (t.readPage disk pid).toOption = t.pageAt disk pid := by
  have hlt : pid.index < UInt32.ofNat (t.pageCount disk)
      ↔ pid.index.toNat < t.pageCount disk := by
    rw [UInt32.lt_iff_toNat_lt, UInt32.toNat_ofNat', Nat.mod_eq_of_lt hc]
  unfold readPage own countPages TableFile.pageAt
  simp only [hown, hu, if_true, true_and, hlt]
  split <;> rfl

/-! ## 5. Writing -/

theorem pageCount_congr (h : disk'.content t.path = disk.content t.path) :
    t.pageCount disk' = t.pageCount disk := by
  rw [pageCount, ← Disk.length_content, h, Disk.length_content, pageCount]

/-- A table's pages depend on the bytes of its file only. -/
theorem pageAt_congr (h : disk'.content t.path = disk.content t.path) (pid : PageId) :
    t.pageAt disk' pid = t.pageAt disk pid := by
  unfold pageAt
  rw [pageCount_congr h, Disk.read_eq_slice, Disk.read_eq_slice, h]

/-- Two stretches of a page's size at different positions do not meet. -/
theorem disjoint_of_index_ne {i j size : Nat} (h : i ≠ j) :
    i * size + size ≤ j * size ∨ j * size + size ≤ i * size := by
  rcases Nat.lt_or_gt_of_ne h with h | h
  · have hm := Nat.mul_le_mul_right size (Nat.succ_le_of_lt h)
    rw [Nat.succ_mul] at hm
    exact Or.inl hm
  · have hm := Nat.mul_le_mul_right size (Nat.succ_le_of_lt h)
    rw [Nat.succ_mul] at hm
    exact Or.inr hm

/-- A write of one page leaves the bytes of all pages at other positions alone. -/
theorem read_writeAt_of_ne {bytes : List UInt8} {other : PageId} (hlen : bytes.length = t.pageSize)
    (hi : other.index.toNat < t.pageCount disk) (hne : other.index.toNat ≠ pid.index.toNat) :
    (disk.writeAt t.path (pid.offset t.pageSize) bytes).read t.path (other.offset t.pageSize)
        t.pageSize
      = disk.read t.path (other.offset t.pageSize) t.pageSize := by
  rw [Disk.read_eq_slice, Disk.read_eq_slice, Disk.content_writeAt_self,
    Bytes.slice_writeAt_of_disjoint]
  · rw [Disk.length_content]
    exact stop_le_length hi
  · rw [hlen]
    exact disjoint_of_index_ne hne

theorem index_ne_of_ne {pid other : PageId} (ht : other.table = pid.table) (h : other ≠ pid) :
    other.index.toNat ≠ pid.index.toNat := by
  intro he
  apply h
  cases other
  cases pid
  simp only [PageId.mk.injEq]
  exact ⟨ht, UInt32.toNat_inj.mp he⟩

/-- The file of a table in which a page was written over another has as many pages as before. -/
theorem Writes.pageCount_eq (h : t.Writes disk page disk') (hs : t.Shapes page)
    (hi : page.pid.index.toNat < t.pageCount disk) : t.pageCount disk' = t.pageCount disk := by
  have hstop := stop_le_length hi
  unfold pageCount
  rw [h.disk_eq, Disk.length_writeAt_self, Page.length_image, hs.size_eq, Nat.max_eq_left hstop]

/-- **Writing a page changes that page** to what it is stored as, **and no other.** -/
theorem Writes.pageAt (h : t.Writes disk page disk') (hs : t.Shapes page)
    (hi : page.pid.index.toNat < t.pageCount disk) (pid : PageId) :
    t.pageAt disk' pid = if pid = page.pid then some page.asStored else t.pageAt disk pid := by
  have hcount := h.pageCount_eq hs hi
  have hlen : page.image.length = t.pageSize := (Page.length_image page).trans hs.size_eq
  split
  · rename_i he
    subst he
    rw [pageAt_eq_some_iff]
    refine ⟨⟨h.own, by rwa [hcount]⟩, ?_⟩
    rw [h.disk_eq, Disk.read_eq_slice, Disk.content_writeAt_self, ← hlen,
      Bytes.slice_writeAt_self, ← hs.schema_eq]
    exact Page.ofBytes_image hs.wellFormed
  · rename_i hne
    unfold TableFile.pageAt
    rw [hcount]
    split
    · rename_i hp
      have hindex := index_ne_of_ne (hp.1.trans h.own.symm) hne
      rw [h.disk_eq, read_writeAt_of_ne hlen hp.2 hindex]
    · rfl

/-- Other files keep their bytes. -/
theorem Writes.content_of_ne (h : t.Writes disk page disk') {path : Path} (hne : path ≠ t.path) :
    disk'.content path = disk.content path := by
  rw [h.disk_eq, Disk.content_writeAt_of_ne disk _ _ hne]

/-! ## 6. Appending -/

/-- **An empty page was written behind the last one**, at a position that 32 bits can name. -/
structure Appends (t : TableFile) (disk disk' : Disk) : Prop where
  disk_eq : disk' = disk.writeAt t.path (t.pageCount disk * t.pageSize) (Bytes.zeros t.pageSize)
  lt : t.pageCount disk * t.pageSize + t.pageSize < Disk.positions
  count_lt : t.pageCount disk < UInt32.size

theorem index_pageId {i : Nat} (h : i < UInt32.size) : (t.pageId i).index.toNat = i := by
  rw [pageId, UInt32.toNat_ofNat']
  exact Nat.mod_eq_of_lt h

theorem appends_of_appendPage (hc : t.pageCount disk < UInt32.size)
    (h : t.appendPage disk = (disk', .ok pid)) :
    t.Appends disk disk' ∧ pid = t.pageId (t.pageCount disk) := by
  have hoffset : (t.pageId (t.pageCount disk)).offset t.pageSize = t.pageCount disk * t.pageSize := by
    rw [PageId.offset, index_pageId hc]
  rcases appendPage_cases h with ⟨hr, hd, hlt⟩ | ⟨-, f, hr⟩
  · rw [hoffset] at hd hlt
    cases hr
    exact ⟨⟨hd, hlt, hc⟩, rfl⟩
  · cases hr

theorem Appends.pageCount_eq (h : t.Appends disk disk') (hr : t.Roomy) :
    t.pageCount disk' = t.pageCount disk + 1 := by
  have hlt := Nat.lt_mul_div_succ (disk.length t.path) hr.pageSize_pos
  rw [Nat.mul_comm, Nat.succ_mul] at hlt
  unfold pageCount
  rw [h.disk_eq, Disk.length_writeAt_self, Bytes.length_zeros, pageCount,
    Nat.max_eq_right (Nat.le_of_lt hlt), ← Nat.succ_mul, Nat.mul_div_cancel _ hr.pageSize_pos]

/-- **Appending adds one page without rows.** -/
theorem Appends.pageAt_new (h : t.Appends disk disk') (hr : t.Roomy) :
    ∃ blank, t.pageAt disk' (t.pageId (t.pageCount disk)) = some blank
      ∧ ∀ slot, blank.row? slot = none := by
  have hindex := t.index_pageId h.count_lt
  have hi : (t.pageId (t.pageCount disk)).index.toNat < t.pageCount disk' := by
    rw [hindex, h.pageCount_eq hr]
    exact Nat.lt_succ_self _
  obtain ⟨blank, hb⟩ := pageAt_of_lt hr rfl hi
  refine ⟨blank, hb, fun slot => ?_⟩
  have hbytes := (pageAt_eq_some_iff.mp hb).2
  have hslice := Bytes.slice_writeAt_self (disk.content t.path) (t.pageCount disk * t.pageSize)
    (Bytes.zeros t.pageSize)
  rw [Bytes.length_zeros] at hslice
  rw [PageId.offset, hindex, h.disk_eq, Disk.read_eq_slice, Disk.content_writeAt_self,
    hslice] at hbytes
  exact Page.row?_of_zeros hbytes slot

/-- It changes no other page. -/
theorem Appends.pageAt_of_ne (h : t.Appends disk disk') (hr : t.Roomy)
    (hne : pid ≠ t.pageId (t.pageCount disk)) : t.pageAt disk' pid = t.pageAt disk pid := by
  have hindex := t.index_pageId h.count_lt
  have hcount := h.pageCount_eq hr
  by_cases hown : pid.table = t.id
  · have hother := index_ne_of_ne (show pid.table = (t.pageId (t.pageCount disk)).table from hown) hne
    by_cases hi : pid.index.toNat < t.pageCount disk
    · have hread := read_writeAt_of_ne (Bytes.length_zeros t.pageSize) hi hother
      rw [PageId.offset, hindex, ← h.disk_eq] at hread
      have hi' : pid.index.toNat < t.pageCount disk' := by omega
      unfold TableFile.pageAt
      rw [if_pos ⟨hown, hi'⟩, if_pos ⟨hown, hi⟩, hread]
    · rw [pageAt_of_le (Nat.le_of_not_lt hi), pageAt_of_le]
      omega
  · unfold TableFile.pageAt
    rw [if_neg fun hc => hown hc.1, if_neg fun hc => hown hc.1]

theorem Appends.content_of_ne (h : t.Appends disk disk') {path : Path} (hne : path ≠ t.path) :
    disk'.content path = disk.content path := by
  rw [h.disk_eq, Disk.content_writeAt_of_ne disk _ _ hne]

end TableFile

end RowStore
