import RowStore.Proofs.Health

/-!
# A table's file as an array

A table's file is an array of blocks of bytes, one for each page (`TableFile.blocks`).  Everything
that is done with the file is done with this array: reading a page decodes one of its blocks
(`readPage_eq_getElem?`), a write puts one block in (`blocks_writeAt`), and zeros fill the gap if
its position is behind the end (`putBlock`).

* **Few pages**: as long as 32 bits can count them, a page that is written is read back, every other
  one is read as before, a gap reads as pages without rows, and an empty page is added behind the
  last one.
* **Any calls**: whatever is read, written and appended, the file consists of whole pages and loses
  none (`FileCall`).

Main statement: `TableFile.array_of_pages`.
-/

namespace RowStore

/-! ## 1. Arrays of blocks -/

/-- **An array with a block put in** at a position: over the block there, or behind the last one,
with blocks of zeros in between. -/
def putBlock (size : Nat) (blocks : List (List UInt8)) (i : Nat) (bytes : List UInt8) :
    List (List UInt8) :=
  if i < blocks.length then blocks.set i bytes
  else blocks ++ List.replicate (i - blocks.length) (Bytes.zeros size) ++ [bytes]

section PutBlock

variable {size i j : Nat} {blocks : List (List UInt8)} {bytes : List UInt8}

theorem putBlock_length (size : Nat) (blocks : List (List UInt8)) (bytes : List UInt8) :
    putBlock size blocks blocks.length bytes = blocks ++ [bytes] := by
  rw [putBlock, if_neg (Nat.lt_irrefl _), Nat.sub_self, List.replicate_zero, List.append_nil]

/-- The array at every position after a block was put in. -/
theorem getElem?_putBlock : (putBlock size blocks i bytes)[j]?
    = if j = i then some bytes
      else if j < blocks.length then blocks[j]?
      else if j < i then some (Bytes.zeros size) else none := by
  unfold putBlock
  by_cases hi : i < blocks.length
  · rw [if_pos hi, List.getElem?_set]
    by_cases hj : j = i
    · subst hj
      simp [hi]
    · rw [if_neg (Ne.symm hj), if_neg hj]
      split
      · rfl
      · rename_i hlt
        rw [List.getElem?_eq_none (Nat.le_of_not_lt hlt), if_neg (by omega)]
  · rw [if_neg hi, List.append_assoc]
    by_cases hlt : j < blocks.length
    · rw [List.getElem?_append_left hlt, if_neg (by omega), if_pos hlt]
    · rw [List.getElem?_append_right (Nat.le_of_not_lt hlt), if_neg hlt]
      by_cases hgap : j < i
      · rw [List.getElem?_append_left (by rw [List.length_replicate]; omega),
          List.getElem?_replicate, if_pos (by omega), if_neg (by omega), if_pos hgap]
      · rw [List.getElem?_append_right (by rw [List.length_replicate]; omega),
          List.length_replicate, if_neg hgap]
        by_cases hj : j = i
        · subst hj
          simp
        · rw [if_neg hj]
          exact List.getElem?_eq_none (by simp only [List.length_singleton]; omega)

end PutBlock

namespace TableFile

variable {t : TableFile} {d d' : Disk} {pid : PageId} {page : Page} {bytes : List UInt8}
  {i : Nat}

/-- **The file as an array**: the bytes of its pages, in their order. -/
def blocks (t : TableFile) (d : Disk) : List (List UInt8) :=
  (List.range (t.pageCount d)).map fun i => d.read t.path (i * t.pageSize) t.pageSize

@[simp] theorem length_blocks (t : TableFile) (d : Disk) :
    (t.blocks d).length = t.pageCount d := by
  rw [blocks, List.length_map, List.length_range]

theorem getElem?_blocks (t : TableFile) (d : Disk) (i : Nat) : (t.blocks d)[i]?
    = if i < t.pageCount d then some (d.read t.path (i * t.pageSize) t.pageSize) else none := by
  rw [blocks, List.getElem?_map]
  split
  · rename_i h
    rw [List.getElem?_range h]
    rfl
  · rename_i h
    rw [List.getElem?_eq_none (by rw [List.length_range]; omega)]
    rfl

/-- The array depends on the bytes of the file only. -/
theorem blocks_congr (h : d'.content t.path = d.content t.path) : t.blocks d' = t.blocks d := by
  unfold blocks
  rw [pageCount_congr h]
  simp only [Disk.read_eq_slice, h]

/-! ## 2. Reading and writing -/

/-- **Reading a page decodes its block**, where 32 bits can count the pages. -/
theorem readPage_eq_getElem? (hu : d.isUsable t.handle = true) (hown : pid.table = t.id)
    (hc : t.pageCount d < UInt32.size) : t.readPage d pid
      = match (t.blocks d)[pid.index.toNat]? with
        | some bytes => Page.ofBytes pid bytes t.schema
        | none => .error (.pageOutOfRange pid (t.pageCount d)) := by
  have hcount : (UInt32.ofNat (t.pageCount d)).toNat = t.pageCount d := by
    rw [UInt32.toNat_ofNat', Nat.mod_eq_of_lt hc]
  have hlt : pid.index < UInt32.ofNat (t.pageCount d) ↔ pid.index.toNat < t.pageCount d := by
    rw [UInt32.lt_iff_toNat_lt, hcount]
  unfold readPage own countPages
  rw [getElem?_blocks]
  simp only [hown, hu, if_true, hlt, hcount]
  split <;> rfl

/-- A file of whole pages that is written to at the position of a page has whole pages, up to that
one at least. -/
theorem length_writeAt_block (hwhole : t.pageSize ∣ d.length t.path)
    (hlen : bytes.length = t.pageSize) (i : Nat) :
    (d.writeAt t.path (i * t.pageSize) bytes).length t.path
      = t.pageSize * max (t.pageCount d) (i + 1) := by
  have hold : d.length t.path = t.pageSize * t.pageCount d := (Nat.mul_div_cancel' hwhole).symm
  have hnew : i * t.pageSize + t.pageSize = t.pageSize * (i + 1) := by
    rw [Nat.mul_succ, Nat.mul_comm]
  rw [Disk.length_writeAt_self, hlen, hnew, hold, ← Nat.mul_max_mul_left]

theorem pageCount_writeAt (hpos : 0 < t.pageSize) (hwhole : t.pageSize ∣ d.length t.path)
    (hlen : bytes.length = t.pageSize) (i : Nat) :
    t.pageCount (d.writeAt t.path (i * t.pageSize) bytes) = max (t.pageCount d) (i + 1) := by
  rw [pageCount, length_writeAt_block hwhole hlen, Nat.mul_div_cancel_left _ hpos]

/-- Behind the old end and before what is written there are zeros. -/
theorem slice_gap {content : List UInt8} {offset from_ size : Nat} (data : List UInt8)
    (hend : content.length ≤ from_) (h : from_ + size ≤ offset) :
    Bytes.slice (Bytes.writeAt content offset data) from_ size = Bytes.zeros size := by
  rw [Bytes.slice_writeAt_of_le data h, Bytes.slice,
    show from_ = content.length + (from_ - content.length) by omega, ← List.drop_drop,
    List.drop_left, Bytes.zeros, List.drop_replicate, List.take_replicate, Bytes.zeros,
    Nat.min_eq_left (by omega)]

/-- **Writing a block of bytes puts it into the array.** -/
theorem blocks_writeAt (hpos : 0 < t.pageSize) (hwhole : t.pageSize ∣ d.length t.path)
    (hlen : bytes.length = t.pageSize) (i : Nat) :
    t.blocks (d.writeAt t.path (i * t.pageSize) bytes)
      = putBlock t.pageSize (t.blocks d) i bytes := by
  refine List.ext_getElem? fun j => ?_
  have hend : (d.content t.path).length = t.pageCount d * t.pageSize := by
    rw [Disk.length_content, pageCount, Nat.div_mul_cancel hwhole]
  have hread : (d.writeAt t.path (i * t.pageSize) bytes).read t.path (j * t.pageSize) t.pageSize
      = Bytes.slice (Bytes.writeAt (d.content t.path) (i * t.pageSize) bytes) (j * t.pageSize)
          t.pageSize := by
    rw [Disk.read_eq_slice, Disk.content_writeAt_self]
  rw [getElem?_putBlock, getElem?_blocks, getElem?_blocks, pageCount_writeAt hpos hwhole hlen,
    length_blocks, hread]
  by_cases hj : j = i
  · subst hj
    have hself := Bytes.slice_writeAt_self (d.content t.path) (j * t.pageSize) bytes
    rw [hlen] at hself
    rw [if_pos (by omega), if_pos rfl, hself]
  · have hdisjoint : j * t.pageSize + t.pageSize ≤ i * t.pageSize
        ∨ i * t.pageSize + t.pageSize ≤ j * t.pageSize := disjoint_of_index_ne hj
    rw [if_neg hj]
    by_cases hold : j < t.pageCount d
    · have hstop := Nat.mul_le_mul_right t.pageSize (Nat.succ_le_of_lt hold)
      rw [Nat.succ_mul, ← hend] at hstop
      rw [if_pos (by omega), if_pos hold, Bytes.slice_writeAt_of_disjoint hstop (by rwa [hlen]),
        ← Disk.read_eq_slice, if_pos hold]
    · rw [if_neg hold]
      by_cases hgap : j < i
      · have hfrom := Nat.mul_le_mul_right t.pageSize (Nat.le_of_not_lt hold)
        have hstop := Nat.mul_le_mul_right t.pageSize (Nat.succ_le_of_lt hgap)
        rw [Nat.succ_mul] at hstop
        rw [if_pos (by omega), if_pos hgap, slice_gap bytes (by rwa [hend]) hstop]
      · rw [if_neg (by omega), if_neg hgap]

/-! ## 3. One page written or added -/

/-- **The page reads as one without rows.** -/
def ReadsBlank (t : TableFile) (d : Disk) (pid : PageId) : Prop :=
  ∃ blank, t.readPage d pid = .ok blank ∧ ∀ slot, blank.row? slot = none

/-- A block of zeros reads as a page without rows. -/
theorem readsBlank_of_zeros (hroomy : t.Roomy) (hu : d.isUsable t.handle = true)
    (hown : pid.table = t.id) (hc : t.pageCount d < UInt32.size)
    (h : (t.blocks d)[pid.index.toNat]? = some (Bytes.zeros t.pageSize)) : t.ReadsBlank d pid := by
  obtain ⟨blank, hblank, -⟩ := @Page.ofBytes_of_pos pid (Bytes.zeros t.pageSize) t.schema
    (by rwa [Bytes.length_zeros])
  refine ⟨blank, ?_, Page.row?_of_zeros hblank⟩
  rw [readPage_eq_getElem? hu hown hc, h]
  exact hblank

/-- Two files whose arrays have the same block at a position read alike there. -/
theorem readPage_congr (hu : d.isUsable t.handle = true) (hu' : d'.isUsable t.handle = true)
    (hown : pid.table = t.id) (hc : t.pageCount d < UInt32.size)
    (hc' : t.pageCount d' < UInt32.size) (hlt : pid.index.toNat < t.pageCount d)
    (h : (t.blocks d')[pid.index.toNat]? = (t.blocks d)[pid.index.toNat]?) :
    t.readPage d' pid = t.readPage d pid := by
  rw [readPage_eq_getElem? hu' hown hc', readPage_eq_getElem? hu hown hc, h, getElem?_blocks,
    if_pos hlt]

/-- **What has become of a table's file** in which a page was written. -/
structure Wrote (t : TableFile) (d : Disk) (page : Page) (d' : Disk) : Prop where
  pageCount_eq : t.pageCount d' = max (t.pageCount d) (page.pid.index.toNat + 1)
  /-- The page is read back from its bytes. -/
  written : t.readPage d' page.pid = Page.ofBytes page.pid page.image t.schema
  readable : ∃ read, t.readPage d' page.pid = .ok read
  old : ∀ pid, pid.table = t.id → pid ≠ page.pid → pid.index.toNat < t.pageCount d →
    t.readPage d' pid = t.readPage d pid
  gap : ∀ pid, pid.table = t.id → t.pageCount d ≤ pid.index.toNat →
    pid.index.toNat < page.pid.index.toNat → t.ReadsBlank d' pid
  files : ∀ path, path ≠ t.path → d'.content path = d.content path

/-- **What has become of a table's file** to which an empty page was added. -/
structure Extended (t : TableFile) (d : Disk) (pid : PageId) (d' : Disk) : Prop where
  table_eq : pid.table = t.id
  index_eq : pid.index.toNat = t.pageCount d
  pageCount_eq : t.pageCount d' = t.pageCount d + 1
  added : t.ReadsBlank d' pid
  old : ∀ other, other.table = t.id → other.index.toNat < t.pageCount d →
    t.readPage d' other = t.readPage d other
  content_eq : d'.content t.path = d.content t.path ++ Bytes.zeros t.pageSize
  files : ∀ path, path ≠ t.path → d'.content path = d.content path

/-- The bytes of a whole page that is written behind the last one come behind the others. -/
theorem content_writeAt_end (hwhole : t.pageSize ∣ d.length t.path) (bytes : List UInt8) :
    (d.writeAt t.path (t.pageCount d * t.pageSize) bytes).content t.path
      = d.content t.path ++ bytes := by
  have hend : t.pageCount d * t.pageSize = (d.content t.path).length := by
    rw [Disk.length_content, pageCount, Nat.div_mul_cancel hwhole]
  rw [Disk.content_writeAt_self, hend, Bytes.writeAt, Nat.sub_self, Bytes.zeros,
    List.replicate_zero, List.append_nil, List.take_length,
    List.drop_eq_nil_of_le (Nat.le_add_right _ _), List.append_nil]

/-- **A page that is written** is put into the array and changes nothing else. -/
theorem Writes.wrote (h : t.Writes d page d') (hroomy : t.Roomy)
    (hwhole : t.pageSize ∣ d.length t.path) (hsize : page.size = t.pageSize)
    (hc : max (t.pageCount d) (page.pid.index.toNat + 1) < UInt32.size) : t.Wrote d page d' := by
  have hlen : page.image.length = t.pageSize := (Page.length_image page).trans hsize
  have hcount : t.pageCount d' = max (t.pageCount d) (page.pid.index.toNat + 1) := by
    rw [h.disk_eq]
    exact pageCount_writeAt hroomy.pageSize_pos hwhole hlen _
  have hblocks : t.blocks d'
      = putBlock t.pageSize (t.blocks d) page.pid.index.toNat page.image := by
    rw [h.disk_eq]
    exact blocks_writeAt hroomy.pageSize_pos hwhole hlen _
  have hu' : d'.isUsable t.handle = true := by
    rw [h.disk_eq]
    exact h.usable
  have hc' : t.pageCount d' < UInt32.size := by rwa [hcount]
  have hwritten : t.readPage d' page.pid = Page.ofBytes page.pid page.image t.schema := by
    rw [readPage_eq_getElem? hu' h.own hc', hblocks, getElem?_putBlock, if_pos rfl]
  refine ⟨hcount, hwritten, ?readable, ?old, ?gap, fun path hne => h.content_of_ne hne⟩
  case readable =>
    obtain ⟨read, hread, -⟩ := @Page.ofBytes_of_pos page.pid page.image t.schema
      (by rwa [hlen])
    exact ⟨read, hwritten.trans hread⟩
  case old =>
    intro pid hown hne hlt
    have hindex := index_ne_of_ne (hown.trans h.own.symm) hne
    refine readPage_congr h.usable hu' hown (by omega) hc' hlt ?_
    rw [hblocks, getElem?_putBlock, if_neg hindex, length_blocks, if_pos hlt]
  case gap =>
    intro pid hown hfrom hto
    refine readsBlank_of_zeros hroomy hu' hown hc' ?_
    rw [hblocks, getElem?_putBlock, if_neg (Nat.ne_of_lt hto), length_blocks,
      if_neg (Nat.not_lt.mpr hfrom), if_pos hto]

/-- **An empty page that is appended** comes behind the last one and changes nothing else. -/
theorem Appends.extended (h : t.Appends d d') (hroomy : t.Roomy) (hu : d.isUsable t.handle = true)
    (hwhole : t.pageSize ∣ d.length t.path) (hc : t.pageCount d + 1 < UInt32.size) :
    t.Extended d (t.pageId (t.pageCount d)) d' := by
  have hcount := h.pageCount_eq hroomy
  have hindex := t.index_pageId h.count_lt
  have hblocks : t.blocks d' = t.blocks d ++ [Bytes.zeros t.pageSize] := by
    rw [h.disk_eq, blocks_writeAt hroomy.pageSize_pos hwhole (Bytes.length_zeros _),
      ← length_blocks, putBlock_length]
  have hu' : d'.isUsable t.handle = true := by
    rw [h.disk_eq]
    exact hu
  have hc' : t.pageCount d' < UInt32.size := by omega
  refine ⟨rfl, hindex, hcount, ?added, ?old, ?content, fun path hne => h.content_of_ne hne⟩
  case added =>
    refine readsBlank_of_zeros hroomy hu' rfl hc' ?_
    rw [hindex, hblocks, ← length_blocks, List.getElem?_concat_length]
  case old =>
    intro other hown hlt
    refine readPage_congr hu hu' hown h.count_lt hc' hlt ?_
    rw [hblocks, List.getElem?_append_left (by rwa [length_blocks])]
  case content =>
    rw [h.disk_eq]
    exact content_writeAt_end hwhole _

/-- **A page can be written** through a handle that can be used if it ends at a position. -/
theorem writePage_ok_iff (hu : d.isUsable t.handle = true) (hown : page.pid.table = t.id)
    (hsize : page.size = t.pageSize) : (∃ d', t.writePage d page = (d', .ok ()))
      ↔ page.pid.offset t.pageSize + t.pageSize < Disk.positions := by
  have hlen : page.image.length = t.pageSize := (Page.length_image page).trans hsize
  constructor
  · rintro ⟨d', h⟩
    rcases writePage_cases h with ⟨hw, -⟩ | ⟨-, f, hr, -⟩ | ⟨-, f, hr, -⟩
    · have hlt := hw.lt
      rwa [hlen] at hlt
    · cases hr
    · cases hr
  · intro hlt
    refine ⟨d.writeAt t.path (page.pid.offset t.pageSize) page.image, ?_⟩
    have hposition : isSize (page.pid.offset t.pageSize) = true := Engine.isSize_of_lt (by omega)
    simp only [writePage, own, if_pos hown, seekPage, if_pos hu, PageId.offset?,
      if_pos hposition, writeBytes]
    rw [Disk.write_of_lt d t.path (by rwa [hlen])]

/-- **An empty page can be appended** through a handle that can be used if it ends at a position. -/
theorem appendPage_ok_iff (hu : d.isUsable t.handle = true) (hc : t.pageCount d < UInt32.size) :
    (∃ d' pid, t.appendPage d = (d', .ok pid))
      ↔ t.pageCount d * t.pageSize + t.pageSize < Disk.positions := by
  have hoffset : (t.pageId (t.pageCount d)).offset t.pageSize = t.pageCount d * t.pageSize := by
    rw [PageId.offset, index_pageId hc]
  constructor
  · rintro ⟨d', pid, h⟩
    exact (appends_of_appendPage hc h).1.lt
  · intro hlt
    refine ⟨d.writeAt t.path (t.pageCount d * t.pageSize) (Bytes.zeros t.pageSize),
      t.pageId (t.pageCount d), ?_⟩
    have hposition : isSize (t.pageCount d * t.pageSize) = true := Engine.isSize_of_lt (by omega)
    simp only [appendPage, seekPage, if_pos hu, PageId.offset?, hoffset, if_pos hposition,
      writeBytes]
    rw [Disk.write_of_lt d t.path (by rwa [Bytes.length_zeros])]

end TableFile

/-! ## 4. Any calls -/

/-- A use of a table's file. -/
inductive FileCall where
  | read (pid : PageId)
  | write (page : Page)
  | append

namespace FileCall

/-- A page that is written has the size of the table's pages. -/
def Fits (t : TableFile) : FileCall → Prop
  | write page => page.size = t.pageSize
  | read _ | append => True

/-- The disk afterwards, and whether the call returned without failing. -/
def perform (t : TableFile) (d : Disk) : FileCall → Disk × Except Failure Unit
  | read pid => (d, (t.readPage d pid).map fun _ => ())
  | write page => t.writePage d page
  | append => ((t.appendPage d).1, (t.appendPage d).2.map fun _ => ())

/-- What the call makes of the array if it does not fail.  The position of a page that is appended
has 32 bits. -/
def onBlocks (size : Nat) (blocks : List (List UInt8)) : FileCall → List (List UInt8)
  | read _ => blocks
  | write page => putBlock size blocks page.pid.index.toNat page.image
  | append => putBlock size blocks (blocks.length % UInt32.size) (Bytes.zeros size)

end FileCall

namespace TableFile

variable {t : TableFile} {d d' : Disk} {c : FileCall} {r : Except Failure Unit}

/-- **A call leaves the bytes of all files alone, or it writes one page into the table's.** -/
theorem perform_cases (hfits : c.Fits t) (h : c.perform t d = (d', r)) :
    ((∀ path, d'.content path = d.content path)
        ∧ ∀ u, r = .ok u → c.onBlocks t.pageSize (t.blocks d) = t.blocks d)
    ∨ ∃ i bytes, r = .ok () ∧ bytes.length = t.pageSize
        ∧ d' = d.writeAt t.path (i * t.pageSize) bytes
        ∧ c.onBlocks t.pageSize (t.blocks d) = putBlock t.pageSize (t.blocks d) i bytes := by
  have hspoil : ∀ {d' : Disk}, d' = d ∨ d' = d.spoil t.handle →
      ∀ path, d'.content path = d.content path := by
    rintro _ (rfl | rfl) path <;> rfl
  cases c with
  | read pid =>
    cases h
    exact Or.inl ⟨fun _ => rfl, fun _ _ => rfl⟩
  | write page =>
    rcases writePage_cases h with ⟨hw, rfl⟩ | ⟨rfl, f, rfl, -⟩ | ⟨hd, f, rfl, -⟩
    · exact Or.inr ⟨page.pid.index.toNat, page.image, rfl, (Page.length_image page).trans hfits,
        hw.disk_eq, rfl⟩
    · exact Or.inl ⟨fun _ => rfl, fun _ h => by cases h⟩
    · exact Or.inl ⟨hspoil hd, fun _ h => by cases h⟩
  | append =>
    rcases happend : t.appendPage d with ⟨d₁, r₁⟩
    simp only [FileCall.perform, happend] at h
    cases h
    rcases appendPage_cases happend with ⟨rfl, hd, -⟩ | ⟨hd, f, rfl⟩
    · refine Or.inr ⟨t.pageCount d % UInt32.size, Bytes.zeros t.pageSize, rfl,
        Bytes.length_zeros _, ?_, ?_⟩
      · rw [hd, PageId.offset, pageId, UInt32.toNat_ofNat', UInt32.size]
      · rw [FileCall.onBlocks, length_blocks]
    · exact Or.inl ⟨hspoil hd, fun _ h => by cases h⟩

/-- **One call**: the array afterwards is what the call makes of it, or the same if the call failed;
the file still consists of whole pages and has lost none. -/
theorem blocks_perform (hroomy : t.Roomy) (hwhole : t.pageSize ∣ d.length t.path)
    (hfits : c.Fits t) (h : c.perform t d = (d', r)) :
    (∀ f, r = .error f → t.blocks d' = t.blocks d)
      ∧ (∀ u, r = .ok u → t.blocks d' = c.onBlocks t.pageSize (t.blocks d))
      ∧ t.pageSize ∣ d'.length t.path ∧ t.pageCount d ≤ t.pageCount d' := by
  rcases perform_cases hfits h with ⟨hsame, hnone⟩ | ⟨i, bytes, rfl, hlen, rfl, hput⟩
  · have hblocks := blocks_congr (hsame t.path)
    have hcount := pageCount_congr (hsame t.path)
    rw [← Disk.length_content, hsame, Disk.length_content]
    exact ⟨fun _ _ => hblocks, fun u hu => hblocks.trans (hnone u hu).symm, hwhole,
      Nat.le_of_eq hcount.symm⟩
  · rw [blocks_writeAt hroomy.pageSize_pos hwhole hlen, length_writeAt_block hwhole hlen,
      pageCount_writeAt hroomy.pageSize_pos hwhole hlen]
    exact ⟨fun f hf => (by cases hf), fun _ _ => hput.symm, Nat.dvd_mul_right ..,
      Nat.le_max_left ..⟩

/-- The disk after some calls. -/
def performAll (t : TableFile) (d : Disk) (calls : List FileCall) : Disk :=
  calls.foldl (fun d c => (c.perform t d).1) d

/-- The calls that do not fail, of some that are made one after the other. -/
def succeeding (t : TableFile) : Disk → List FileCall → List FileCall
  | _, [] => []
  | d, c :: calls =>
    match c.perform t d with
    | (d, .ok _) => c :: succeeding t d calls
    | (d, .error _) => succeeding t d calls

/-- **Any calls**: the array afterwards is what those that do not fail make of it one after the
other; the file consists of whole pages and has lost none. -/
theorem blocks_performAll (hroomy : t.Roomy) (hwhole : t.pageSize ∣ d.length t.path)
    (calls : List FileCall) (hfits : ∀ c ∈ calls, c.Fits t) :
    t.blocks (t.performAll d calls)
        = (t.succeeding d calls).foldl (fun blocks c => c.onBlocks t.pageSize blocks) (t.blocks d)
      ∧ t.pageSize ∣ (t.performAll d calls).length t.path
      ∧ t.pageCount d ≤ t.pageCount (t.performAll d calls) := by
  induction calls generalizing d with
  | nil => exact ⟨rfl, hwhole, Nat.le_refl _⟩
  | cons c calls ih =>
    obtain ⟨hfirst, hrest⟩ := List.forall_mem_cons.mp hfits
    rcases hstep : c.perform t d with ⟨d', r⟩
    obtain ⟨hfails, hreturns, hwhole', hle⟩ := blocks_perform hroomy hwhole hfirst hstep
    obtain ⟨hblocks, hwholeAfter, hleAfter⟩ := ih hwhole' hrest
    have hnext : t.performAll d (c :: calls) = t.performAll d' calls := by
      rw [performAll, List.foldl_cons, hstep]
      rfl
    rw [hnext]
    refine ⟨?_, hwholeAfter, Nat.le_trans hle hleAfter⟩
    rw [hblocks, succeeding, hstep]
    cases r with
    | ok u => rw [hreturns u rfl, List.foldl_cons]
    | error f => rw [hfails f rfl]

/-- **A table's file is an array of pages.**  As long as 32 bits can count its pages, a page that is
written is read back and changes no other one, what lies between it and the old end reads as pages
without rows, and an appended page comes behind the last one; both can be done as long as the page
ends at a position.  Whatever calls are made, the file is what those that did not fail make of the
array, it consists of whole pages, and their number never falls. -/
theorem array_of_pages (hroomy : t.Roomy) (hwhole : t.pageSize ∣ d.length t.path) :
    (∀ page d', page.size = t.pageSize → t.writePage d page = (d', .ok ()) →
      max (t.pageCount d) (page.pid.index.toNat + 1) < UInt32.size → t.Wrote d page d')
    ∧ (∀ pid d', t.appendPage d = (d', .ok pid) → t.pageCount d + 1 < UInt32.size →
      t.Extended d pid d')
    ∧ (d.isUsable t.handle = true →
      (∀ page, page.pid.table = t.id → page.size = t.pageSize →
        ((∃ d', t.writePage d page = (d', .ok ()))
          ↔ page.pid.offset t.pageSize + t.pageSize < Disk.positions))
      ∧ (t.pageCount d < UInt32.size → ((∃ d' pid, t.appendPage d = (d', .ok pid))
          ↔ t.pageCount d * t.pageSize + t.pageSize < Disk.positions)))
    ∧ ∀ calls : List FileCall, (∀ c ∈ calls, c.Fits t) →
      t.blocks (t.performAll d calls)
        = (t.succeeding d calls).foldl (fun blocks c => c.onBlocks t.pageSize blocks) (t.blocks d)
      ∧ t.pageSize ∣ (t.performAll d calls).length t.path
      ∧ t.pageCount d ≤ t.pageCount (t.performAll d calls) := by
  refine ⟨?written, ?appended, ?possible, ?calls⟩
  case written =>
    intro page d' hsize h hc
    rcases writePage_cases h with ⟨hw, -⟩ | ⟨-, f, hr, -⟩ | ⟨-, f, hr, -⟩
    · exact hw.wrote hroomy hwhole hsize hc
    · cases hr
    · cases hr
  case appended =>
    intro pid d' h hc
    obtain ⟨happends, rfl⟩ := appends_of_appendPage (by omega) h
    refine happends.extended hroomy ?_ hwhole hc
    -- a handle that cannot be used appends nothing
    cases hu : d.isUsable t.handle with
    | true => rfl
    | false =>
      simp only [appendPage, seekPage, hu] at h
      cases h
  case possible =>
    intro hu
    exact ⟨fun page hown hsize => writePage_ok_iff hu hown hsize, appendPage_ok_iff hu⟩
  case calls => exact blocks_performAll hroomy hwhole

end TableFile

/-- A page with one row, two pages behind the end of an empty file. -/
def Sample.farPage : Page where
  pid := table.pageId 2
  schema := schema
  size := 40
  bitmap := [true, false, false, false]
  slots := [some ⟨[.int 7], some ⟨table.pageId 2, 0⟩⟩, none, none, none]
  dirty := none

open Sample in
/-- A page is written behind the end of an empty file, then another one is appended. -/
theorem TableFile.array_of_pages_far : table.Roomy ∧ table.pageSize ∣ opened.disk.length table.path
    ∧ (∃ d', table.writePage opened.disk farPage = (d', .ok ())
      ∧ table.Wrote opened.disk farPage d' ∧ table.ReadsBlank d' (table.pageId 0))
    ∧ table.pageCount (table.performAll opened.disk [.write farPage, .append]) = 4
    ∧ table.pageSize ∣ (table.performAll opened.disk [.write farPage, .append]).length table.path
    := by
  have hroomy : table.Roomy :=
    show 0 < PageLayout.slotCount table.schema table.pageSize by decide
  have hwhole : table.pageSize ∣ opened.disk.length table.path := by decide
  obtain ⟨hwrite, -, hpossible, hcalls⟩ := TableFile.array_of_pages hroomy hwhole
  obtain ⟨d', hd'⟩ := ((hpossible (by decide)).1 farPage rfl rfl).mpr (by decide)
  have hwrote := hwrite farPage d' rfl hd' (by decide)
  have hblank := hwrote.gap (table.pageId 0) rfl (by decide) (by decide)
  obtain ⟨-, hdvd, -⟩ := hcalls [.write farPage, .append] (by
    intro c hc
    rcases List.mem_cons.mp hc with rfl | hc
    · rfl
    · obtain rfl := List.mem_singleton.mp hc
      trivial)
  exact ⟨hroomy, hwhole, ⟨d', hd', hwrote, hblank⟩, by decide +kernel, hdvd⟩

end RowStore
