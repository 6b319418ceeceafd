import RowStore.Page.Lemmas
import RowStore.Proofs.Cut

/-!
# A page that is written reads back

The bytes of a well-formed page are read as the page it is stored as: the same bitmap, the same
slots, every row cut to its columns (`Page.ofBytes_image`).  That page is written as the same bytes
again (`Page.image_asStored`), so writing and reading come to rest after one round, whatever bytes
a page was first read from.

Pages are well formed wherever they come from: reading makes them so, and no edit breaks it, failed
or not (`Page.WellFormed.edited`).  Main statement: `reload_edited`.
-/

namespace RowStore.Page

/-! ## 1. Stored pages -/

/-- The page as it reads after it was written: every row cut to its columns, no mark. -/
def asStored (p : Page) : Page :=
  { p with slots := p.slots.map (Option.map (Row.asStored p.schema)), dirty := none }

@[simp] theorem asStored_schema (p : Page) : p.asStored.schema = p.schema := rfl

theorem row?_asStored (p : Page) (slot : Nat) :
    p.asStored.row? slot = (p.row? slot).map (Row.asStored p.schema) := by
  simp only [row?, asStored, List.getElem?_map]
  cases p.slots[slot]? with
  | none => rfl
  | some s => rfl

@[simp] theorem asStored_asStored (p : Page) : p.asStored.asStored = p.asStored := by
  have hf : Row.asStored p.schema ∘ Row.asStored p.schema = Row.asStored p.schema :=
    funext fun row => row.asStored_asStored p.schema
  simp [asStored, List.map_map, Option.map_comp_map, hf]

theorem WellFormed.asStored {p : Page} (h : p.WellFormed) : p.asStored.WellFormed := by
  refine ⟨(List.length_map _).trans h.length_slots, ?_, ?_, h.slotCount_pos⟩
  · simp only [Page.asStored, List.map_map]
    rw [h.bitmap_eq]
    exact List.map_congr_left fun slot _ => by cases slot <;> rfl
  · intro i row hi
    simp only [Page.asStored, List.getElem?_map, Option.map_eq_some_iff] at hi
    obtain ⟨slot, hs, row', hr, rfl⟩ := hi
    subst hr
    obtain ⟨hf, hrid⟩ := h.row_in_slot i row' hs
    exact ⟨Row.fits_asStored hf, hrid⟩

/-- **The stored page is written as the same bytes.** -/
@[simp] theorem image_asStored (p : Page) : p.asStored.image = p.image := by
  have hs : ∀ slot : Option Row,
      slotBytes p.schema (slot.map (Row.asStored p.schema)) = slotBytes p.schema slot := by
    intro slot
    cases slot with
    | none => rfl
    | some row => exact row.encode_asStored p.schema
  have hf : (p.slots.map (Option.map (Row.asStored p.schema))).flatMap (slotBytes p.schema)
      = p.slots.flatMap (slotBytes p.schema) := by
    rw [List.flatMap_map, show (fun slot : Option Row =>
      slotBytes p.schema (slot.map (Row.asStored p.schema))) = slotBytes p.schema from funext hs]
  simp only [image, asStored, hf]

/-! ## 2. Reading what was written -/

/-- **Slots read back**, whatever follows them: a used one as its stored row, a free one as free.
The induction runs over the slots with the reader's place and the slot's number left open. -/
theorem readSlots_slotBytes {pid : PageId} {schema : Schema} :
    ∀ {slots : List (Option Row)} {slot : Nat} (pos : Nat) (rest : List UInt8),
      (∀ (i : Nat) (row : Row), slots[i]? = some (some row) →
        row.fits schema ∧ row.rid = some ⟨pid, slot + i⟩) →
      readSlots pid schema slot (slots.map Option.isSome)
          ⟨pos, slots.flatMap (slotBytes schema) ++ rest⟩
        = .ok (slots.map (Option.map (Row.asStored schema)))
  | [], _, _, _, _ => rfl
  | some row :: slots, slot, pos, rest, h => by
    obtain ⟨hf, hrid⟩ := h 0 row rfl
    have ih := @readSlots_slotBytes pid schema slots (slot + 1) (pos + schema.rowSize) rest
      fun i row' hi => by
        have hr := h (i + 1) row' hi
        rwa [Nat.add_comm i 1, ← Nat.add_assoc] at hr
    simp only [List.map_cons, List.flatMap_cons, List.append_assoc, Option.isSome_some, readSlots,
      slotBytes, Row.decode_encode hf]
    rw [ih]
    simp only [Nat.add_zero] at hrid
    simp [Row.asStored, hrid]
  | none :: slots, slot, pos, rest, h => by
    have ih := @readSlots_slotBytes pid schema slots (slot + 1) (pos + schema.rowSize) rest
      fun i row' hi => by
        have hr := h (i + 1) row' hi
        rwa [Nat.add_comm i 1, ← Nat.add_assoc] at hr
    simp only [List.map_cons, List.flatMap_cons, List.append_assoc, Option.isSome_none, readSlots,
      slotBytes, Reader.skip_append _ (Bytes.length_zeros schema.rowSize)]
    rw [ih]
    rfl

theorem WellFormed.length_ofBits {p : Page} (h : p.WellFormed) :
    (Bytes.ofBits p.bitmap).length = PageLayout.bitmapSize p.slotCount := by
  rw [Bytes.length_ofBits, h.length_bitmap, PageLayout.bitmapSize, PageLayout.ceilDiv]
  rfl

/-- **The bytes of a well-formed page are read as the page it is stored as.** -/
theorem ofBytes_image {p : Page} (h : p.WellFormed) :
    ofBytes p.pid p.image p.schema = .ok p.asStored := by
  have hlen := h.length_ofBits
  have hcount : PageLayout.slotCount p.schema p.image.length = p.slotCount := by
    rw [length_image, slotCount]
  have hpos := h.slotCount_pos
  have hfit := PageLayout.usedSize_slotCount_le p.schema p.size
  have himage : p.image = Bytes.ofBits p.bitmap ++ (p.slots.flatMap (slotBytes p.schema)
      ++ Bytes.zeros (p.size - p.content.length)) := by
    rw [h.image_eq, content, List.append_assoc]
  have hread := @readSlots_slotBytes p.pid p.schema p.slots 0 0
    (Bytes.zeros (p.size - p.content.length))
    fun i row hi => by simpa using h.row_in_slot i row hi
  rw [← h.bitmap_eq] at hread
  -- the bitmap's bytes are exactly what is read as bits, and the slots begin behind them
  have htake : p.image.take (PageLayout.bitmapSize p.slotCount) = Bytes.ofBits p.bitmap := by
    rw [himage, ← hlen, List.take_left]
  have hdrop : p.image.drop (PageLayout.bitmapSize p.slotCount)
      = p.slots.flatMap (slotBytes p.schema) ++ Bytes.zeros (p.size - p.content.length) := by
    rw [himage, ← hlen, List.drop_left]
  have hbits : (Bytes.toBits (Bytes.ofBits p.bitmap)).take p.slotCount = p.bitmap := by
    rw [← h.length_bitmap, Bytes.take_toBits_ofBits]
  simp only [ofBytes, hcount]
  rw [if_neg (by rw [length_image]; rw [← slotCount] at hfit; omega), htake, hdrop, hbits,
    Reader.ofBytes, hread]
  simp [asStored]

/-- What is known of a page that was read. -/
structure ReadFrom (pid : PageId) (bytes : List UInt8) (schema : Schema) (p : Page) : Prop where
  wellFormed : p.WellFormed
  pid_eq : p.pid = pid
  schema_eq : p.schema = schema
  size_eq : p.size = bytes.length
  bitmap_eq : p.bitmap = bitsOf schema bytes
  clean : p.dirty = none

theorem of_ofBytes {pid : PageId} {bytes : List UInt8} {schema : Schema} {p : Page}
    (h : ofBytes pid bytes schema = .ok p) : ReadFrom pid bytes schema p := by
  have hpos : 0 < PageLayout.slotCount schema bytes.length := by
    apply Nat.pos_of_ne_zero
    intro hz
    obtain ⟨f, hf⟩ := (@ofBytes_eq_error_iff pid bytes schema).mpr hz
    rw [h] at hf
    cases hf
  obtain ⟨p', hp', hw, hpid, hschema, hsize, hbits, hclean⟩ := @ofBytes_of_pos pid bytes schema hpos
  rw [h] at hp'
  cases hp'
  exact ⟨hw, hpid, hschema, hsize, hbits, hclean⟩

/-! ## 3. Edits -/

/-- An attempt to change a page. -/
inductive Edit where
  | insert (row : Row)
  | delete (row : Row)

/-- The page after an attempt; a failed one leaves it as it is. -/
def edit (p : Page) : Edit → Page
  | .insert row =>
    match p.insert row with
    | .ok (q, _) => q
    | .error _ => p
  | .delete row =>
    match p.delete row with
    | .ok q => q
    | .error _ => p

/-- The page after a list of attempts. -/
def edited (p : Page) (edits : List Edit) : Page := edits.foldl edit p

/-- What no edit changes. -/
structure SameFrame (p q : Page) : Prop where
  pid_eq : q.pid = p.pid
  schema_eq : q.schema = p.schema
  size_eq : q.size = p.size

theorem WellFormed.edit {p : Page} (h : p.WellFormed) :
    ∀ e : Edit, (p.edit e).WellFormed ∧ SameFrame p (p.edit e)
  | .insert row => by
    cases hi : p.insert row with
    | error f =>
      have he : p.edit (.insert row) = p := by simp [Page.edit, hi]
      rw [he]
      exact ⟨h, rfl, rfl, rfl⟩
    | ok result =>
      obtain ⟨q, rid⟩ := result
      have he : p.edit (.insert row) = q := by simp [Page.edit, hi]
      obtain ⟨slot, _, _, _, hq⟩ := insert_eq_ok_iff.mp hi
      rw [he]
      exact ⟨h.insert hi, by rw [hq], by rw [hq], by rw [hq]⟩
  | .delete row => by
    cases hd : p.delete row with
    | error f =>
      have he : p.edit (.delete row) = p := by simp [Page.edit, hd]
      rw [he]
      exact ⟨h, rfl, rfl, rfl⟩
    | ok q =>
      have he : p.edit (.delete row) = q := by simp [Page.edit, hd]
      obtain ⟨rid, _, _, _, hq⟩ := delete_eq_ok_iff.mp hd
      rw [he]
      exact ⟨h.delete hd, by rw [hq], by rw [hq], by rw [hq]⟩

/-- **No edit breaks a page**, failed or not. -/
theorem WellFormed.edited : ∀ {p : Page} (_ : p.WellFormed) (edits : List Edit),
    (p.edited edits).WellFormed ∧ SameFrame p (p.edited edits)
  | _, h, [] => ⟨h, rfl, rfl, rfl⟩
  | p, h, e :: edits => by
    obtain ⟨hw, hf⟩ := h.edit e
    obtain ⟨hw', hf'⟩ := hw.edited edits
    exact ⟨hw', hf'.pid_eq.trans hf.pid_eq, hf'.schema_eq.trans hf.schema_eq,
      hf'.size_eq.trans hf.size_eq⟩

/-! ## 4. The round trip -/

/-- **Page `r` is what is left of page `q` after it was written and read again.** -/
structure Reloaded (q r : Page) : Prop where
  /-- Page `r` is read from the bytes of `q`. -/
  read : ofBytes q.pid q.image q.schema = .ok r
  slotCount_eq : r.slotCount = q.slotCount
  isUsed_eq : ∀ slot, r.isUsed slot = q.isUsed slot
  /-- A free slot stays empty. -/
  row_none : ∀ slot, q.row? slot = none → r.row? slot = none
  /-- A row keeps of every value what its column keeps, and stands in its slot. -/
  row_some : ∀ slot row, q.row? slot = some row →
    ∃ kept, r.row? slot = some kept ∧ row.KeptAs q.schema kept ∧ kept.rid = some ⟨q.pid, slot⟩
  /-- It is written as the same bytes. -/
  image_eq : r.image = q.image

theorem WellFormed.row_of_row? {p : Page} (h : p.WellFormed) {slot : Nat} {row : Row}
    (hr : p.row? slot = some row) : row.fits p.schema ∧ row.rid = some ⟨p.pid, slot⟩ :=
  h.row_in_slot slot row (by simpa [row?, Option.join_eq_some_iff] using hr)

theorem reloaded_asStored {q : Page} (h : q.WellFormed) : Reloaded q q.asStored where
  read := ofBytes_image h
  slotCount_eq := rfl
  isUsed_eq _ := rfl
  row_none slot hn := by rw [row?_asStored, hn]; rfl
  row_some slot row hr := by
    obtain ⟨hf, hrid⟩ := h.row_of_row? hr
    exact ⟨row.asStored q.schema, by rw [row?_asStored, hr]; rfl, Row.keptAs_asStored hf, hrid⟩
  image_eq := q.image_asStored

/-- **The round trip of pages.**  A page that was read from any bytes and edited in any way is
written as exactly as many bytes, never as the empty page that stands in for one that does not fit;
these bytes are read as the page again, every row cut to its columns, and that page is written as
the same bytes. -/
theorem reload_edited {pid : PageId} {bytes : List UInt8} {schema : Schema} {p : Page}
    (h : ofBytes pid bytes schema = .ok p) (edits : List Edit) :
    SameFrame p (p.edited edits) ∧ p.pid = pid ∧ p.schema = schema
      ∧ (p.edited edits).image.length = bytes.length
      ∧ ((⟨(p.edited edits).content⟩ : Writer).pad bytes.length).2 = .ok (p.edited edits).image
      ∧ ∃ r, Reloaded (p.edited edits) r := by
  obtain ⟨hw, hpid, hschema, hsize, _, _⟩ := of_ofBytes h
  obtain ⟨hwe, hsame⟩ := hw.edited edits
  have hlen : (p.edited edits).size = bytes.length := hsame.size_eq.trans hsize
  have hle := hwe.length_content_le
  refine ⟨hsame, hpid, hschema, (length_image _).trans hlen, ?_, _, reloaded_asStored hwe⟩
  rw [hwe.image_eq, ← hlen, Writer.pad, if_pos hle, Bytes.resize, List.take_of_length_le hle]

/-- Bytes that no page was ever written as: the bitmap has bits behind the last slot, the first text
is no UTF-8 and longer than its column, and there are bytes behind the slots. -/
theorem reload_stray : ∃ p, ofBytes ⟨.number 7, 3⟩
      [0xFF, 0xFF, 0x80, 0xC3, 0x02, 0xC3, 0xA9, 0x01, 0x61, 0x37, 0xAA] ⟨[⟨"s", .bytes 2⟩]⟩ = .ok p
    ∧ (p.edited [.delete ⟨[], some ⟨p.pid, 1⟩⟩, .insert ⟨[.text "abc"], none⟩]).image.length = 11
    ∧ ∃ r, Reloaded (p.edited [.delete ⟨[], some ⟨p.pid, 1⟩⟩, .insert ⟨[.text "abc"], none⟩]) r := by
  obtain ⟨p, hp, -⟩ := @ofBytes_of_pos ⟨.number 7, 3⟩
    [0xFF, 0xFF, 0x80, 0xC3, 0x02, 0xC3, 0xA9, 0x01, 0x61, 0x37, 0xAA] ⟨[⟨"s", .bytes 2⟩]⟩
    (by decide)
  obtain ⟨-, -, -, hlen, -, hr⟩ := reload_edited hp
    [.delete ⟨[], some ⟨p.pid, 1⟩⟩, .insert ⟨[.text "abc"], none⟩]
  exact ⟨p, hp, hlen, hr⟩

end RowStore.Page
