import RowStore.Codec.Lemmas
import RowStore.Page
import RowStore.PageLayout.Lemmas

/-!
# Pages stay well formed

The bitmap and the slots of a page say the same, every row matches the schema and carries the id of
the slot it is in (`Page.WellFormed`).  Reading a page from bytes makes a well-formed page and fails
only if there is no room for one row (`ofBytes_of_pos`, `ofBytes_eq_error_iff`); inserting and
deleting keep pages well formed.  The bytes of a well-formed page are its bitmap, its slots and
zeros, of exactly the page's size (`image_eq`, `length_image`).
-/

namespace RowStore.Page

/-! ## 1. Well-formed pages -/

/-- What holds of every page that was read from bytes and changed by inserts and deletes only. -/
structure WellFormed (p : Page) : Prop where
  /-- There is a slot for every bit of the layout. -/
  length_slots : p.slots.length = p.slotCount
  /-- The bitmap says which slots hold a row. -/
  bitmap_eq : p.bitmap = p.slots.map Option.isSome
  /-- A row matches the schema and knows where it is. -/
  row_in_slot : ∀ (i : Nat) (row : Row), p.slots[i]? = some (some row) →
    row.fits p.schema ∧ row.rid = some ⟨p.pid, i⟩
  /-- There is at least one slot. -/
  slotCount_pos : 0 < p.slotCount

namespace WellFormed

variable {p : Page}

theorem length_bitmap (h : p.WellFormed) : p.bitmap.length = p.slotCount := by
  rw [h.bitmap_eq, List.length_map, h.length_slots]

theorem isUsed_iff (h : p.WellFormed) (i : Nat) : p.isUsed i ↔ ∃ row, p.row? i = some row := by
  rw [isUsed, row?, h.bitmap_eq, List.getElem?_map]
  cases hs : p.slots[i]? with
  | none => simp
  | some slot => cases slot <;> simp

theorem isUsed_lt (h : p.WellFormed) {i : Nat} (hi : p.isUsed i) : i < p.slotCount := by
  rw [isUsed] at hi
  rw [← h.length_bitmap]
  apply Nat.lt_of_not_le
  intro hle
  rw [List.getElem?_eq_none hle] at hi
  exact Bool.false_ne_true hi

end WellFormed

/-! ## 2. Reading -/

/-- What slots that were read from number `slot` on look like. -/
structure SlotsRead (pid : PageId) (schema : Schema) (slot : Nat) (bits : List Bool)
    (slots : List (Option Row)) : Prop where
  bits_eq : bits = slots.map Option.isSome
  row_in_slot : ∀ (i : Nat) (row : Row), slots[i]? = some (some row) →
    row.fits schema ∧ row.rid = some ⟨pid, slot + i⟩

/-- **Slots can always be read** from enough bytes. -/
theorem readSlots_of_le (pid : PageId) (schema : Schema) :
    ∀ (bits : List Bool) (slot : Nat) (r : Reader), bits.length * schema.rowSize ≤ r.rest.length →
      ∃ slots, readSlots pid schema slot bits r = .ok slots
        ∧ SlotsRead pid schema slot bits slots
  | [], _, _, _ => ⟨[], rfl, rfl, by simp⟩
  | true :: bits, slot, r, h => by
    rw [List.length_cons, Nat.add_mul, Nat.one_mul] at h
    obtain ⟨row, hrow, hfit, _⟩ := @Row.decode_of_le r schema (by omega)
    obtain ⟨slots, hs, hb, hr⟩ := readSlots_of_le pid schema bits (slot + 1)
      ⟨r.pos + schema.rowSize, r.rest.drop schema.rowSize⟩ (by simp; omega)
    refine ⟨some { row with rid := some ⟨pid, slot⟩ } :: slots, ?_, by simp [hb], ?_⟩
    · rw [readSlots, hrow]
      simp only [hs]
    · intro i row' hi
      cases i with
      | zero =>
        simp only [List.getElem?_cons_zero, Option.some.injEq] at hi
        subst hi
        exact ⟨hfit, rfl⟩
      | succ i =>
        have hri := hr i row' (by simpa using hi)
        rwa [Nat.add_right_comm, Nat.add_assoc] at hri
  | false :: bits, slot, r, h => by
    rw [List.length_cons, Nat.add_mul, Nat.one_mul] at h
    obtain ⟨slots, hs, hb, hr⟩ := readSlots_of_le pid schema bits (slot + 1)
      ⟨r.pos + schema.rowSize, r.rest.drop schema.rowSize⟩ (by simp; omega)
    refine ⟨none :: slots, ?_, by simp [hb], ?_⟩
    · rw [readSlots, Reader.skip_of_le (by omega)]
      simp only [hs]
    · intro i row' hi
      cases i with
      | zero => simp at hi
      | succ i =>
        have hri := hr i row' (by simpa using hi)
        rwa [Nat.add_right_comm, Nat.add_assoc] at hri

/-- The bits of a page that is read. -/
def bitsOf (schema : Schema) (bytes : List UInt8) : List Bool :=
  let count := PageLayout.slotCount schema bytes.length
  (Bytes.toBits (bytes.take (PageLayout.bitmapSize count))).take count

theorem length_bitsOf (schema : Schema) (bytes : List UInt8) :
    (bitsOf schema bytes).length = PageLayout.slotCount schema bytes.length := by
  have hu := PageLayout.usedSize_slotCount_le schema bytes.length
  have hb := PageLayout.bitmapSize_bounds (PageLayout.slotCount schema bytes.length)
  rw [PageLayout.usedSize] at hu
  simp only [bitsOf, List.length_take, Bytes.length_toBits]
  omega

/-- **Any bytes with room for a row are read as a well-formed page.** -/
theorem ofBytes_of_pos {pid : PageId} {bytes : List UInt8} {schema : Schema}
    (h : 0 < PageLayout.slotCount schema bytes.length) :
    ∃ p, ofBytes pid bytes schema = .ok p ∧ p.WellFormed ∧ p.pid = pid ∧ p.schema = schema
      ∧ p.size = bytes.length ∧ p.bitmap = bitsOf schema bytes ∧ p.dirty = none := by
  have hu := PageLayout.usedSize_slotCount_le schema bytes.length
  have hlen := length_bitsOf schema bytes
  obtain ⟨slots, hs, hb, hr⟩ := readSlots_of_le pid schema (bitsOf schema bytes) 0
    (.ofBytes (bytes.drop (PageLayout.bitmapSize (PageLayout.slotCount schema bytes.length))))
    (by
      rw [PageLayout.usedSize] at hu
      simp only [hlen, Reader.ofBytes, List.length_drop]
      omega)
  refine ⟨⟨pid, schema, bytes.length, bitsOf schema bytes, slots, none⟩, ?_, ?_,
    rfl, rfl, rfl, rfl, rfl⟩
  · unfold bitsOf at hs
    simp only [ofBytes]
    rw [if_neg (by omega), hs]
    rfl
  · have hl : slots.length = PageLayout.slotCount schema bytes.length := by
      rw [← hlen, hb, List.length_map]
    exact ⟨hl, hb, fun i row hi => by simpa using hr i row hi, h⟩

/-- **Reading a page fails exactly if it has no slot**, whatever its bytes are. -/
theorem ofBytes_eq_error_iff {pid : PageId} {bytes : List UInt8} {schema : Schema} :
    (∃ f, ofBytes pid bytes schema = .error f)
      ↔ PageLayout.slotCount schema bytes.length = 0 := by
  constructor
  · rintro ⟨f, hf⟩
    apply Nat.eq_zero_of_not_pos
    intro h
    obtain ⟨p, hp, _⟩ := @ofBytes_of_pos pid _ _ h
    rw [hp] at hf
    cases hf
  · intro h
    exact ⟨.pageTooSmall pid bytes.length, by simp [ofBytes, h]⟩

/-! ## 3. Writing -/

theorem length_flatMap_slotBytes {schema : Schema} : ∀ {slots : List (Option Row)},
    (∀ row, some row ∈ slots → row.fits schema) →
      (slots.flatMap (slotBytes schema)).length = slots.length * schema.rowSize
  | [], _ => by simp
  | slot :: slots, h => by
    have ih := @length_flatMap_slotBytes schema slots
      fun row hr => h row (List.mem_cons_of_mem _ hr)
    have hs : (slotBytes schema slot).length = schema.rowSize := by
      cases slot with
      | none => simp [slotBytes]
      | some row => exact Row.length_encode (h row List.mem_cons_self)
    rw [List.flatMap_cons, List.length_append, hs, ih, List.length_cons, Nat.add_mul,
      Nat.one_mul, Nat.add_comm]

/-- The bitmap and the slots of a page as bytes. -/
def content (p : Page) : List UInt8 :=
  Bytes.ofBits p.bitmap ++ p.slots.flatMap (slotBytes p.schema)

theorem WellFormed.length_content {p : Page} (h : p.WellFormed) :
    p.content.length = PageLayout.usedSize p.schema p.slotCount := by
  have hs : ∀ row, some row ∈ p.slots → row.fits p.schema := fun row hr => by
    obtain ⟨i, hi⟩ := List.mem_iff_getElem?.mp hr
    exact (h.row_in_slot i row hi).1
  rw [content, List.length_append, length_flatMap_slotBytes hs, Bytes.length_ofBits,
    h.length_bitmap, h.length_slots, PageLayout.usedSize, PageLayout.bitmapSize, PageLayout.ceilDiv]
  omega

theorem WellFormed.length_content_le {p : Page} (h : p.WellFormed) :
    p.content.length ≤ p.size := by
  rw [h.length_content]
  exact PageLayout.usedSize_slotCount_le p.schema p.size

/-- **The bytes of a page** are its bitmap, its slots and zeros; there is always room. -/
theorem WellFormed.image_eq {p : Page} (h : p.WellFormed) :
    p.image = p.content ++ Bytes.zeros (p.size - p.content.length) := by
  have hle := h.length_content_le
  unfold content at hle
  simp only [image, Writer.pad, if_pos hle, Bytes.resize, content,
    List.take_of_length_le hle]

/-- A page always has exactly its size in bytes. -/
@[simp] theorem length_image (p : Page) : p.image.length = p.size := by
  simp only [image, Writer.pad]
  split
  · rename_i hp
    split at hp
    · cases hp
      simp
    · cases hp
  · simp

/-! ## 4. Changing -/

theorem insert_eq_ok_iff {p : Page} {row : Row} {q : Page} {rid : RecordId} :
    p.insert row = .ok (q, rid) ↔ ∃ slot, row.fits p.schema ∧ p.firstFree? = some slot
      ∧ rid = ⟨p.pid, slot⟩
      ∧ q = { p with
          bitmap := p.bitmap.set slot true
          slots := p.slots.set slot (some { row with rid := some ⟨p.pid, slot⟩ }) } := by
  unfold insert
  split
  · rename_i hf
    split
    · rename_i hn
      simp [hn]
    · rename_i slot hs
      simp only [Except.ok.injEq, Prod.mk.injEq, hs, Option.some.injEq, hf, true_and]
      constructor
      · rintro ⟨rfl, rfl⟩
        exact ⟨slot, rfl, rfl, rfl⟩
      · rintro ⟨_, rfl, rfl, rfl⟩
        exact ⟨rfl, rfl⟩
  · rename_i hf
    simp [hf]

theorem delete_eq_ok_iff {p : Page} {row : Row} {q : Page} :
    p.delete row = .ok q ↔ ∃ rid, row.rid = some rid ∧ rid.page = p.pid ∧ p.isUsed rid.slot
      ∧ q = { p with
          bitmap := p.bitmap.set rid.slot false
          slots := p.slots.set rid.slot none } := by
  unfold delete
  split
  · rename_i hr
    simp [hr]
  · rename_i rid hr
    split
    · rename_i hp
      split
      · rename_i hu
        simp only [Except.ok.injEq, hr, Option.some.injEq]
        constructor
        · rintro rfl
          exact ⟨rid, rfl, hp, hu, rfl⟩
        · rintro ⟨_, rfl, _, _, rfl⟩
          rfl
      · rename_i hu
        simp [hr, hu]
    · rename_i hp
      simp [hr, hp]

/-- The lowest free slot is free, and all below it are used. -/
theorem firstFree?_eq_some_iff {p : Page} {slot : Nat} :
    p.firstFree? = some slot ↔
      p.bitmap[slot]? = some false ∧ ∀ j, j < slot → p.isUsed j := by
  rw [firstFree?, List.findIdx?_eq_some_iff_getElem]
  constructor
  · rintro ⟨hlt, hf, hj⟩
    refine ⟨by rw [List.getElem?_eq_getElem hlt]; simpa using hf, fun j hlt' => ?_⟩
    have h := hj j hlt'
    rw [isUsed, List.getElem?_eq_getElem (by omega)]
    simpa using h
  · rintro ⟨hs, hj⟩
    obtain ⟨hlt, hf⟩ := List.getElem?_eq_some_iff.mp hs
    refine ⟨hlt, by simp [hf], fun j hlt' => ?_⟩
    have h := hj j hlt'
    rw [isUsed, List.getElem?_eq_getElem (by omega)] at h
    simpa using h

namespace WellFormed

variable {p : Page} {slot : Nat}

theorem isUsed_iff_ne_none (h : p.WellFormed) : p.isUsed slot ↔ p.row? slot ≠ none := by
  rw [h.isUsed_iff, Option.ne_none_iff_exists']

/-- The bit of a slot is clear exactly if the slot holds no row. -/
theorem bit_false_iff (h : p.WellFormed) :
    p.bitmap[slot]? = some false ↔ slot < p.slotCount ∧ p.row? slot = none := by
  rw [h.bitmap_eq, ← h.length_slots, List.getElem?_map, row?]
  by_cases hlt : slot < p.slots.length
  · rw [List.getElem?_eq_getElem hlt]
    cases p.slots[slot] <;> simp [hlt]
  · rw [List.getElem?_eq_none (Nat.not_lt.mp hlt)]
    simp [hlt]

/-- The lowest free slot holds no row, and all below it do. -/
theorem firstFree?_eq_some_iff (h : p.WellFormed) : p.firstFree? = some slot
    ↔ slot < p.slotCount ∧ p.row? slot = none ∧ ∀ i, i < slot → p.row? i ≠ none := by
  rw [Page.firstFree?_eq_some_iff, h.bit_false_iff, and_assoc]
  simp only [h.isUsed_iff_ne_none]

/-- There is no free slot exactly if every slot holds a row. -/
theorem firstFree?_eq_none_iff (h : p.WellFormed) :
    p.firstFree? = none ↔ ∀ slot, slot < p.slotCount → p.row? slot ≠ none := by
  rw [firstFree?, List.findIdx?_eq_none_iff]
  constructor
  · intro hall slot hlt hnone
    have hbit := h.bit_false_iff.mpr ⟨hlt, hnone⟩
    exact absurd (hall false (List.mem_of_getElem? hbit)) (by simp)
  · intro hall bit hm
    cases bit with
    | true => rfl
    | false =>
      obtain ⟨slot, hslot⟩ := List.mem_iff_getElem?.mp hm
      obtain ⟨hlt, hnone⟩ := h.bit_false_iff.mp hslot
      exact absurd hnone (hall slot hlt)

end WellFormed

/-- **An insert keeps a page well formed.** -/
theorem WellFormed.insert {p q : Page} {row : Row} {rid : RecordId} (h : p.WellFormed)
    (hi : p.insert row = .ok (q, rid)) : q.WellFormed := by
  obtain ⟨slot, hf, _, rfl, rfl⟩ := insert_eq_ok_iff.mp hi
  refine ⟨(List.length_set ..).trans h.length_slots, by simp [h.bitmap_eq], ?_, h.slotCount_pos⟩
  intro i r hr
  rw [List.getElem?_set] at hr
  split at hr
  · rename_i hslot
    split at hr
    · simp only [Option.some.injEq] at hr
      subst hr hslot
      exact ⟨hf, rfl⟩
    · cases hr
  · exact h.row_in_slot i r hr

/-- **A delete keeps a page well formed.** -/
theorem WellFormed.delete {p q : Page} {row : Row} (h : p.WellFormed)
    (hd : p.delete row = .ok q) : q.WellFormed := by
  obtain ⟨rid, _, _, _, rfl⟩ := delete_eq_ok_iff.mp hd
  refine ⟨(List.length_set ..).trans h.length_slots, by simp [h.bitmap_eq], ?_, h.slotCount_pos⟩
  intro i r hr
  rw [List.getElem?_set] at hr
  split at hr
  · split at hr <;> simp at hr
  · exact h.row_in_slot i r hr

theorem WellFormed.markDirty {p : Page} (h : p.WellFormed) (tx : Tx) :
    (p.markDirty tx).WellFormed :=
  ⟨h.length_slots, h.bitmap_eq, h.row_in_slot, h.slotCount_pos⟩

theorem WellFormed.clean {p : Page} (h : p.WellFormed) : p.clean.WellFormed :=
  ⟨h.length_slots, h.bitmap_eq, h.row_in_slot, h.slotCount_pos⟩

end RowStore.Page
