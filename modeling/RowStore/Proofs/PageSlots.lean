import RowStore.Proofs.Content
import RowStore.Proofs.PageImage

/-!
# The slots of a page, first fit

A page keeps twice which of its slots are used, and takes record ids from whoever calls.  Whatever
bytes it was read from and whatever was tried on it since, both accounts agree (`Accounts`): as many
bits as slots, a bit for each row and a row for each bit, and every row of the schema, at the place
that its record id names.

So the answers depend on the rows alone.

* **An insert** takes the lowest free slot of the page, and is refused only for a row that does not
  match or a page without a free slot (`InsertsFirst`).
* **A delete** frees the slot that the row's record id names, and is refused only if there is no
  such row on the page (`DeletesNamed`).

Both leave everything else as it was (`DiffersAt`), and the slot they change is within both
accounts.  Main statement: `edited_slots`.
-/

namespace RowStore.Page

variable {p : Page} {slot : Nat}

/-! ## 1. Two accounts -/

/-- **The bitmap and the slots tell the same.** -/
structure Accounts (p : Page) : Prop where
  length_bitmap : p.bitmap.length = p.slotCount
  length_slots : p.slots.length = p.slotCount
  /-- A bit is set exactly where there is a row. -/
  bit_iff : ∀ i : Nat, p.bitmap[i]? = some true ↔ ∃ row, p.slots[i]? = some (some row)
  /-- A row matches the schema and knows where it is. -/
  row_in_slot : ∀ (i : Nat) (row : Row), p.slots[i]? = some (some row) →
    row.fits p.schema ∧ row.rid = some ⟨p.pid, i⟩
  /-- There are no more free slots than slots. -/
  freeCount_le : p.freeCount ≤ p.slotCount
  usedCount_add_freeCount : p.usedCount + p.freeCount = p.slotCount
  /-- What is counted as used are the rows. -/
  usedCount_eq : p.usedCount = p.rows.length

/-- Free slots and rows make up all slots. -/
theorem WellFormed.freeCount_add_length_rows (h : p.WellFormed) :
    p.freeCount + p.rows.length = p.slotCount := by
  have hfree : p.freeCount = p.slots.countP fun slot => !slot.isSome := by
    rw [freeCount, h.bitmap_eq, List.countP_map]
    rfl
  have hrows : p.rows.length = p.slots.countP fun slot => slot.isSome := by
    rw [rows, List.length_filterMap_eq_countP]
    rfl
  have hall := p.slots.length_eq_countP_add_countP fun slot => slot.isSome
  simp only [decide_not, Bool.decide_eq_true] at hall
  rw [hfree, hrows, ← h.length_slots, hall, Nat.add_comm]

theorem WellFormed.accounts (h : p.WellFormed) : p.Accounts := by
  have hcounts := h.freeCount_add_length_rows
  constructor
  case length_bitmap => exact h.length_bitmap
  case length_slots => exact h.length_slots
  case bit_iff =>
    intro i
    rw [h.bitmap_eq, List.getElem?_map]
    cases p.slots[i]? with
    | none => simp
    | some slot => cases slot <;> simp
  case row_in_slot => exact h.row_in_slot
  case freeCount_le => omega
  case usedCount_add_freeCount => rw [usedCount]; omega
  case usedCount_eq => rw [usedCount]; omega

/-! ## 2. One slot -/

/-- **The pages differ in one slot**, which is within both accounts, and in nothing else. -/
structure DiffersAt (p q : Page) (slot : Nat) (content : Option Row) : Prop where
  lt_bitmap : slot < p.bitmap.length
  lt_slots : slot < p.slots.length
  row?_eq : ∀ i, q.row? i = if i = slot then content else p.row? i
  isUsed_eq : ∀ i, q.isUsed i = if i = slot then content.isSome else p.isUsed i
  frame : SameFrame p q
  dirty_eq : q.dirty = p.dirty

/-- To set a slot in both accounts is to change this slot only. -/
theorem WellFormed.differsAt (h : p.WellFormed) (hlt : slot < p.slotCount) (content : Option Row) :
    DiffersAt p { p with
      bitmap := p.bitmap.set slot content.isSome
      slots := p.slots.set slot content } slot content := by
  have hbitmap : slot < p.bitmap.length := h.length_bitmap ▸ hlt
  have hslots : slot < p.slots.length := h.length_slots ▸ hlt
  constructor
  case lt_bitmap => exact hbitmap
  case lt_slots => exact hslots
  case row?_eq => exact row?_set p _ content hslots
  case isUsed_eq =>
    intro i
    simp only [isUsed, List.getElem?_set]
    by_cases he : slot = i
    · subst he
      simp [hbitmap]
    · rw [if_neg he, if_neg (Ne.symm he)]
  case frame => exact ⟨rfl, rfl, rfl⟩
  case dirty_eq => rfl

/-! ## 3. Inserts -/

/-- Why an insert is refused. -/
inductive InsertRefused (p : Page) (row : Row) : Failure → Prop where
  | misfit (hfit : ¬row.fits p.schema) : InsertRefused p row (.misfit row p.schema)
  | full (hfit : row.fits p.schema) (hfull : ∀ slot < p.slotCount, p.row? slot ≠ none) :
    InsertRefused p row (.pageFull p.pid)

/-- **An insert takes the lowest free slot.** -/
structure InsertsFirst (p : Page) (row : Row) : Prop where
  ok_iff : (∃ q rid, p.insert row = .ok (q, rid))
    ↔ row.fits p.schema ∧ ∃ slot < p.slotCount, p.row? slot = none
  of_ok : ∀ q rid, p.insert row = .ok (q, rid) → rid.page = p.pid ∧ p.row? rid.slot = none
    ∧ (∀ slot < rid.slot, p.row? slot ≠ none)
    ∧ DiffersAt p q rid.slot (some { row with rid := some rid })
  of_error : ∀ f, p.insert row = .error f →
    InsertRefused p row f ∧ f.isUndefined = false ∧ p.edit (.insert row) = p

theorem WellFormed.insertsFirst (h : p.WellFormed) (row : Row) : p.InsertsFirst row := by
  constructor
  case ok_iff =>
    constructor
    · rintro ⟨q, rid, hi⟩
      obtain ⟨slot, hfit, hfree, -⟩ := insert_eq_ok_iff.mp hi
      obtain ⟨hlt, hnone, -⟩ := h.firstFree?_eq_some_iff.mp hfree
      exact ⟨hfit, slot, hlt, hnone⟩
    · rintro ⟨hfit, slot, hlt, hnone⟩
      cases hfree : p.firstFree? with
      | none => exact absurd hnone (h.firstFree?_eq_none_iff.mp hfree slot hlt)
      | some first => exact ⟨_, _, insert_eq_ok_iff.mpr ⟨first, hfit, hfree, rfl, rfl⟩⟩
  case of_ok =>
    intro q rid hi
    obtain ⟨slot, -, hfree, rfl, rfl⟩ := insert_eq_ok_iff.mp hi
    obtain ⟨hlt, hnone, hlow⟩ := h.firstFree?_eq_some_iff.mp hfree
    exact ⟨rfl, hnone, hlow, h.differsAt hlt (some _)⟩
  case of_error =>
    intro f hi
    have hsame : p.edit (.insert row) = p := by simp [Page.edit, hi]
    unfold Page.insert at hi
    split at hi
    · rename_i hfit
      split at hi
      · rename_i hfree
        cases hi
        exact ⟨.full hfit (h.firstFree?_eq_none_iff.mp hfree), rfl, hsame⟩
      · cases hi
    · rename_i hfit
      cases hi
      exact ⟨.misfit hfit, rfl, hsame⟩

/-! ## 4. Deletes -/

/-- Why a delete is refused. -/
inductive DeleteRefused (p : Page) (row : Row) : Failure → Prop where
  | noRecordId (hr : row.rid = none) : DeleteRefused p row (.noRecordId row)
  | otherPage {rid : RecordId} (hr : row.rid = some rid) (hpage : rid.page ≠ p.pid) :
    DeleteRefused p row (.otherPage row p.pid)
  | slotFree {rid : RecordId} (hr : row.rid = some rid) (hpage : rid.page = p.pid)
    (hnone : p.row? rid.slot = none) : DeleteRefused p row (.slotFree rid)

/-- **A delete frees the slot that is named.** -/
structure DeletesNamed (p : Page) (row : Row) : Prop where
  ok_iff : (∃ q, p.delete row = .ok q)
    ↔ ∃ rid, row.rid = some rid ∧ rid.page = p.pid ∧ p.row? rid.slot ≠ none
  of_ok : ∀ q, p.delete row = .ok q → ∃ rid, row.rid = some rid ∧ DiffersAt p q rid.slot none
  of_error : ∀ f, p.delete row = .error f →
    DeleteRefused p row f ∧ f.isUndefined = false ∧ p.edit (.delete row) = p

theorem WellFormed.deletesNamed (h : p.WellFormed) (row : Row) : p.DeletesNamed row := by
  constructor
  case ok_iff =>
    constructor
    · rintro ⟨q, hd⟩
      obtain ⟨rid, hr, hpage, hused, -⟩ := delete_eq_ok_iff.mp hd
      exact ⟨rid, hr, hpage, h.isUsed_iff_ne_none.mp hused⟩
    · rintro ⟨rid, hr, hpage, hrow⟩
      exact ⟨_, delete_eq_ok_iff.mpr ⟨rid, hr, hpage, h.isUsed_iff_ne_none.mpr hrow, rfl⟩⟩
  case of_ok =>
    intro q hd
    obtain ⟨rid, hr, -, hused, rfl⟩ := delete_eq_ok_iff.mp hd
    exact ⟨rid, hr, h.differsAt (h.isUsed_lt hused) none⟩
  case of_error =>
    intro f hd
    have hsame : p.edit (.delete row) = p := by simp [Page.edit, hd]
    unfold Page.delete at hd
    split at hd
    · rename_i hr
      cases hd
      exact ⟨.noRecordId hr, rfl, hsame⟩
    · rename_i rid hr
      split at hd
      · rename_i hpage
        split at hd
        · cases hd
        · rename_i hfree
          cases hd
          have hnone := Classical.not_not.mp (mt h.isUsed_iff_ne_none.mpr hfree)
          exact ⟨.slotFree hr hpage hnone, rfl, hsame⟩
      · rename_i hpage
        cases hd
        exact ⟨.otherPage hr hpage, rfl, hsame⟩

/-! ## 5. Any edits -/

/-- **A page is filled first fit, whatever was tried on it.**  A page that was read from any bytes
and edited in any way, also by rows that do not match, with record ids of other pages, of slots
beyond the last or with none,

* is the page it was read as: same id, same schema, same number of slots;
* keeps bitmap and slots in step;
* takes a further row exactly if it matches and a slot is free, into the lowest one;
* gives up a row exactly if it is there, and frees its slot;
* changes nothing else, and nothing at all when it refuses; and a refusal is always a failure that
  is told. -/
theorem edited_slots {pid : PageId} {bytes : List UInt8} {schema : Schema}
    (h : ofBytes pid bytes schema = .ok p) (edits : List Edit) :
    (p.edited edits).pid = pid ∧ (p.edited edits).schema = schema
      ∧ (p.edited edits).slotCount = PageLayout.slotCount schema bytes.length
      ∧ (p.edited edits).Accounts
      ∧ (∀ row, (p.edited edits).InsertsFirst row) ∧ ∀ row, (p.edited edits).DeletesNamed row := by
  have hread := of_ofBytes h
  obtain ⟨hw, hframe⟩ := hread.wellFormed.edited edits
  have hschema := hframe.schema_eq.trans hread.schema_eq
  refine ⟨hframe.pid_eq.trans hread.pid_eq, hschema, ?_, hw.accounts, hw.insertsFirst,
    hw.deletesNamed⟩
  rw [slotCount, hschema, hframe.size_eq, hread.size_eq]

/-- A page of three slots with rows in the first and the last.  Of five attempts only the last one
does anything, a delete of the first row; so the next row goes into the first slot again. -/
theorem edited_slots_refusals :
    let pid : PageId := ⟨.number 7, 3⟩
    let row : Row := ⟨[.bool false], none⟩
    let edits : List Edit := [.insert ⟨[.int 1], none⟩, .delete ⟨[.bool true], none⟩,
      .delete ⟨[.bool true], some ⟨⟨.number 7, 4⟩, 0⟩⟩, .delete ⟨[], some ⟨pid, 9⟩⟩,
      .delete ⟨[], some ⟨pid, 0⟩⟩]
    ∃ p, ofBytes pid [0xA0, 1, 5, 1] ⟨[⟨"b", .bool⟩]⟩ = .ok p
      ∧ (p.edited edits).Accounts
      ∧ ∃ q, (p.edited edits).insert row = .ok (q, ⟨pid, 0⟩)
        ∧ DiffersAt (p.edited edits) q 0 (some { row with rid := some ⟨pid, 0⟩ }) := by
  intro pid row edits
  let p : Page := ⟨pid, ⟨[⟨"b", .bool⟩]⟩, 4, [true, false, true],
    [some ⟨[.bool true], some ⟨pid, 0⟩⟩, none, some ⟨[.bool true], some ⟨pid, 2⟩⟩], none⟩
  have hp : ofBytes pid [0xA0, 1, 5, 1] ⟨[⟨"b", .bool⟩]⟩ = .ok p := rfl
  have hleft : p.edited edits = { p with
      bitmap := [false, false, true]
      slots := [none, none, some ⟨[.bool true], some ⟨pid, 2⟩⟩] } := by decide +kernel
  obtain ⟨-, -, -, haccounts, hinserts, -⟩ := edited_slots hp edits
  have hi : (p.edited edits).insert row = .ok ({ p with
      bitmap := [true, false, true]
      slots := [some ⟨[.bool false], some ⟨pid, 0⟩⟩, none, some ⟨[.bool true], some ⟨pid, 2⟩⟩] },
      ⟨pid, 0⟩) := by
    rw [hleft]
    rfl
  obtain ⟨-, -, -, hdiffers⟩ := (hinserts row).of_ok _ _ hi
  exact ⟨p, hp, haccounts, _, hi, hdiffers⟩

end RowStore.Page
