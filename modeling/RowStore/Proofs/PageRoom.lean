import RowStore.Proofs.ContentSteps

/-!
# The room of a page is used up, and suffices

The slots of a page are counted by a division of its bits, and placed by whole bytes behind a bitmap
that is filled up to a byte.  Both roundings agree: the count is the largest number of slots that
have room (`PageLayout.Tight`).  So a page can be read from any bytes, unless it has no slot at all
(`Page.ReadsAny`), and a table that could be opened never meets a page that is too small
(`TableFile.Sufficient`).

This is so wherever the layout can be counted with 64 bits (`PageLayout.Lays`), which is below 2^61
bytes.  At 2^61 bytes the bits of a page are too many for a count, and for rows of no bytes, which
have a slot for every bit, one byte less has more of them than can be rounded up
(`layout_oversize`).

Main statement: `page_room`.
-/

namespace RowStore

/-! ## 1. Counting in 64 bits -/

namespace PageLayout

variable {schema : Schema} {size slots head : Nat}

/-- **The layout of a page**: the number of its slots and of the bytes of its bitmap, both counted
in 64 bits. -/
structure Lays (schema : Schema) (size slots head : Nat) : Prop where
  slotCount_eq : slotCount? schema size = some slots
  bitmapSize_eq : bitmapSize? slots = some head

theorem Lays.slots_eq (h : Lays schema size slots head) : slots = slotCount schema size :=
  (slotCount?_eq_some_iff.mp h.slotCount_eq).2

theorem Lays.head_eq (h : Lays schema size slots head) : head = bitmapSize slots :=
  (bitmapSize?_eq_some_iff.mp h.bitmapSize_eq).2

/-- A row takes no bytes exactly if it has no columns. -/
theorem rowSize_eq_zero_iff : schema.rowSize = 0 ↔ schema.columns = [] := by
  unfold Schema.rowSize
  cases schema.columns with
  | nil => exact iff_of_true rfl rfl
  | cons c cs =>
    have hc : 0 < c.type.size := by
      unfold ColumnType.size
      split <;> omega
    simp [Column.totalSize]
    omega

/-- Rows of at least a byte leave fewer than one slot for nine bits. -/
theorem nine_mul_slotCount_le (h : schema.rowSize ≠ 0) : 9 * slotCount schema size ≤ size * 8 := by
  have hbits : 9 ≤ schema.rowSize * 8 + 1 := by omega
  calc 9 * slotCount schema size
      ≤ (schema.rowSize * 8 + 1) * slotCount schema size := Nat.mul_le_mul_right _ hbits
    _ ≤ size * 8 := Nat.mul_div_le _ _

/-- **Which pages have a layout**: those below 2^61 bytes, and for rows of no bytes all of these but
the largest. -/
theorem exists_lays_iff : (∃ slots head, Lays schema size slots head)
    ↔ size < 0x2000000000000000 ∧ (schema.columns = [] → size + 1 < 0x2000000000000000) := by
  have hsize : (∃ slots head, Lays schema size slots head)
      ↔ isSize (size * 8) ∧ isSize (slotCount schema size + 8) := by
    constructor
    · rintro ⟨slots, head, h⟩
      obtain ⟨hbits, rfl⟩ := slotCount?_eq_some_iff.mp h.slotCount_eq
      exact ⟨hbits, (bitmapSize?_eq_some_iff.mp h.bitmapSize_eq).1⟩
    · rintro ⟨hbits, hhead⟩
      exact ⟨_, _, slotCount?_eq_some_iff.mpr ⟨hbits, rfl⟩,
        bitmapSize?_eq_some_iff.mpr ⟨hhead, rfl⟩⟩
  rw [hsize, ← rowSize_eq_zero_iff]
  simp only [isSize, decide_eq_true_eq]
  by_cases hzero : schema.rowSize = 0
  · -- every bit is a slot
    have hcount : slotCount schema size = size * 8 := by simp [slotCount, hzero]
    rw [hcount]
    omega
  · have hnine := @nine_mul_slotCount_le schema size hzero
    omega

/-! ## 2. The layout -/

/-- **The layout is tight**: bitmap and slots have room, and no further slot would have. -/
structure Tight (schema : Schema) (size slots head : Nat) : Prop where
  /-- The bitmap has a bit for every slot, and is filled up to a byte. -/
  head_bounds : slots ≤ 8 * head ∧ 8 * head < slots + 8
  used_le : head + slots * schema.rowSize ≤ size
  /-- The slots are as many as have room behind their bitmap. -/
  largest : ∀ n, bitmapSize n + n * schema.rowSize ≤ size ↔ n ≤ slots

theorem Lays.tight (h : Lays schema size slots head) : Tight schema size slots head := by
  obtain rfl := h.slots_eq
  obtain rfl := h.head_eq
  exact ⟨bitmapSize_bounds _, usedSize_slotCount_le schema size, usedSize_le_iff schema size⟩

end PageLayout

/-! ## 3. Pages -/

/-- **Any bytes of this size are read as a page**, unless it would have no slot; that is the only
failure there is. -/
structure Page.ReadsAny (schema : Schema) (size slots : Nat) (pid : PageId) (bytes : List UInt8) :
    Prop where
  error_iff : (∃ f, ofBytes pid bytes schema = .error f) ↔ slots = 0
  failure : ∀ f, ofBytes pid bytes schema = .error f → f = .pageTooSmall pid size

theorem PageLayout.Lays.readsAny {schema : Schema} {size slots head : Nat}
    (h : Lays schema size slots head) (pid : PageId) {bytes : List UInt8}
    (hlen : bytes.length = size) : Page.ReadsAny schema size slots pid bytes := by
  subst hlen
  have hiff : (∃ f, Page.ofBytes pid bytes schema = .error f) ↔ slots = 0 := by
    rw [Page.ofBytes_eq_error_iff, h.slots_eq]
  refine ⟨hiff, fun f hf => ?_⟩
  have hzero : slotCount schema bytes.length = 0 := by
    rw [← h.slots_eq]
    exact hiff.mp ⟨f, hf⟩
  simp only [Page.ofBytes, hzero, true_or, if_true] at hf
  exact (Except.error.inj hf).symm

/-! ## 4. Tables -/

namespace TableFile

variable {t : TableFile}

/-- **The table's pages are large enough.** -/
structure Sufficient (t : TableFile) : Prop where
  /-- Lengths can be divided by the size of a page. -/
  pageSize_pos : 0 < t.pageSize
  /-- Any bytes of a page's size are read as a page. -/
  reads : ∀ (pid : PageId) (bytes : List UInt8), bytes.length = t.pageSize →
    ∃ page, Page.ofBytes pid bytes t.schema = .ok page
  /-- A page cannot be read from the file only if it is another table's, if the handle cannot be
  used, or if it is not in the file. -/
  refusals : ∀ (d : Disk) (pid : PageId) (f : Failure), t.readPage d pid = .error f →
    f = .foreignPage pid t.id ∨ f = .spoiled ∨ ∃ pages, f = .pageOutOfRange pid pages

theorem Roomy.sufficient (h : t.Roomy) : t.Sufficient := by
  have hreads : ∀ (pid : PageId) (bytes : List UInt8), bytes.length = t.pageSize →
      ∃ page, Page.ofBytes pid bytes t.schema = .ok page := by
    intro pid bytes hlen
    obtain ⟨page, hp, -⟩ := @Page.ofBytes_of_pos pid bytes t.schema (hlen ▸ h)
    exact ⟨page, hp⟩
  refine ⟨h.pageSize_pos, hreads, fun d pid f hf => ?_⟩
  unfold readPage own countPages at hf
  by_cases hown : pid.table = t.id
  · by_cases hu : d.isUsable t.handle = true
    · simp only [hown, hu, if_true] at hf
      split at hf
      · rename_i hi
        -- the page is in the file, so what is read has the size of a page
        have hcounted : pid.index.toNat < t.pageCount d := by
          rw [UInt32.lt_iff_toNat_lt, UInt32.toNat_ofNat'] at hi
          exact Nat.lt_of_lt_of_le hi (Nat.mod_le _ _)
        obtain ⟨page, hp⟩ := hreads pid _ (length_read hcounted)
        rw [hp] at hf
        cases hf
      · exact Or.inr (Or.inr ⟨_, (Except.error.inj hf).symm⟩)
    · simp only [hown, hu, if_true] at hf
      exact Or.inr (Or.inl (Except.error.inj hf).symm)
  · simp only [hown, if_false] at hf
    exact Or.inl (Except.error.inj hf).symm

end TableFile

/-! ## 5. Page sizes -/

/-- **The room of a page.**  Every page below 2^61 bytes has a layout (for rows of no bytes, every
one but the largest); and where there is a layout,

* it has the largest number of slots that have room behind their bitmap;
* any bytes of the page's size are read as a page, whatever they are, unless there is no slot;
* a table whose file could be opened with pages of this size is never in the way of a page that is
  read, nor of a division by the size. -/
theorem page_room (schema : Schema) (size : Nat) :
    ((∃ slots head, PageLayout.Lays schema size slots head)
      ↔ size < 0x2000000000000000 ∧ (schema.columns = [] → size + 1 < 0x2000000000000000))
    ∧ ∀ slots head, PageLayout.Lays schema size slots head →
      PageLayout.Tight schema size slots head
      ∧ (∀ (pid : PageId) (bytes : List UInt8), bytes.length = size →
        Page.ReadsAny schema size slots pid bytes)
      ∧ ∀ (idOf : Path → TableId) (d d' : Disk) (name : String) (t : TableFile),
        TableFile.openAt idOf d name schema size = (d', .ok t) → t.Sufficient := by
  refine ⟨PageLayout.exists_lays_iff, fun slots head h => ⟨h.tight, ?_, ?_⟩⟩
  · exact fun pid _ hlen => h.readsAny pid hlen
  · intro idOf d d' name t hopen
    exact ((Engine.openAt_cases hopen).2.2 t rfl).roomy.sufficient

/-- Rows of eight bytes on pages of forty: four slots behind one byte, in which four bits are left
over, and seven bytes behind them. -/
theorem page_room_forty :
    PageLayout.Lays ⟨[⟨"n", .int64⟩]⟩ 40 4 1
      ∧ PageLayout.Tight ⟨[⟨"n", .int64⟩]⟩ 40 4 1
      ∧ ∃ page, Page.ofBytes ⟨.number 1, 0⟩ (Bytes.zeros 40) ⟨[⟨"n", .int64⟩]⟩ = .ok page := by
  have hlays : PageLayout.Lays ⟨[⟨"n", .int64⟩]⟩ 40 4 1 := ⟨rfl, rfl⟩
  obtain ⟨htight, hreads, -⟩ := (page_room ⟨[⟨"n", .int64⟩]⟩ 40).2 4 1 hlays
  refine ⟨hlays, htight, ?_⟩
  have hread := hreads ⟨.number 1, 0⟩ (Bytes.zeros 40) (Bytes.length_zeros 40)
  cases hpage : Page.ofBytes ⟨.number 1, 0⟩ (Bytes.zeros 40) ⟨[⟨"n", .int64⟩]⟩ with
  | ok page => exact ⟨page, rfl⟩
  | error f => exact absurd (hread.error_iff.mp ⟨f, hpage⟩) (by decide)

/-- **A page of 2^61 bytes has no layout**: its size is a number of 64 bits, but not so the number
of its bits.  So there is no number of slots, although there is a largest one that would have room.
One byte less is too many for rows of no bytes, whose slots cannot be rounded up to whole bytes. -/
theorem layout_oversize :
    let schema : Schema := ⟨[⟨"n", .int64⟩]⟩
    let size := 0x2000000000000000
    isSize size = true
      ∧ (¬∃ n, PageLayout.slotCount? schema size = some n
        ∧ ∀ m, PageLayout.usedSize schema m ≤ size ↔ m ≤ n)
      ∧ (∀ m, PageLayout.usedSize schema m ≤ size ↔ m ≤ 283796062672454640)
      ∧ PageLayout.slotCount? ⟨[]⟩ (size - 1) = some 0xFFFFFFFFFFFFFFF8
      ∧ PageLayout.bitmapSize? 0xFFFFFFFFFFFFFFF8 = none := by
  intro schema size
  refine ⟨by decide, ?_, fun m => ?_, by decide, by decide⟩
  · rintro ⟨n, hn, -⟩
    exact absurd (PageLayout.slotCount?_eq_some_iff.mp hn).1 (by decide)
  · have hcount : PageLayout.slotCount schema size = 283796062672454640 := by decide
    rw [PageLayout.usedSize_le_iff, hcount]

end RowStore
