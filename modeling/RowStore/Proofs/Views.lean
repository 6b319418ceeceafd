import RowStore.Proofs.HeapTable
import RowStore.Proofs.Isolation

/-!
# What a store lets its callers tell

Callers see rows, and meet each other where a page is marked by one of them.

The values that are seen at the record ids of a page are all there is to the page, once it is
stored: pages of one table that show the same are stored as the same page, and so are the same bytes
(`Page.WellFormed.asStored_congr`).  Likewise a scan is known by what is seen in its table: two
listings of the same content are the same list of rows, every row cut (`Engine.Listing.rows_eq`).
Neither says that the rows themselves are the same.  A row that was put on a page stands there as
its caller had it, and is cut only when the page is written and read again.

Which pages are marked by whom depends on changes and completions alone, not on what is cached
beside the marked pages (`Engine.Marks`).  And what is seen on a page does not depend on when it is
written: flushing changes nothing that is seen, and a completion changes only what is seen on pages
that its own transaction has marked (`Engine.complete_content`).
-/

namespace RowStore

/-! ## 1. Pages -/

namespace Page

variable {p q : Page}

/-- The rows of a stored page are the rows of the page, cut. -/
theorem rows_asStored (p : Page) : p.asStored.rows = p.rows.map (Row.asStored p.schema) := by
  simp only [rows, asStored, List.filterMap_map, List.map_filterMap]
  rfl

/-- The slots of a stored page, by what the page shows. -/
theorem WellFormed.asStored_slots (h : p.WellFormed) :
    p.asStored.slots = (List.range p.slotCount).map fun slot =>
      (p.cells slot).map fun values => ⟨values, some ⟨p.pid, slot⟩⟩ := by
  have hlen : p.asStored.slots.length = p.slotCount := (List.length_map _).trans h.length_slots
  refine List.ext_getElem (by simp [hlen]) fun slot hslot _ => ?_
  have hrow : p.asStored.slots[slot] = (p.row? slot).map (Row.asStored p.schema) := by
    rw [← row?_asStored, row?, List.getElem?_eq_getElem hslot]
    rfl
  simp only [hrow, List.getElem_map, List.getElem_range, cells]
  cases hr : p.row? slot with
  | none => rfl
  | some row =>
    have hrid := (h.row_of_row? hr).2
    simp [Row.asStored, hrid]

/-- **Pages that show the same are stored as the same page.** -/
theorem WellFormed.asStored_congr (h : p.WellFormed) (h' : q.WellFormed) (hpid : q.pid = p.pid)
    (hschema : q.schema = p.schema) (hsize : q.size = p.size)
    (hcells : ∀ slot, q.cells slot = p.cells slot) : q.asStored = p.asStored := by
  have hcount : q.slotCount = p.slotCount := by rw [slotCount, slotCount, hschema, hsize]
  have hslots : q.asStored.slots = p.asStored.slots := by
    rw [h'.asStored_slots, h.asStored_slots, hcount, hpid]
    exact List.map_congr_left fun slot _ => by rw [hcells]
  have hbitmap : q.asStored.bitmap = p.asStored.bitmap := by
    rw [h'.asStored.bitmap_eq, h.asStored.bitmap_eq, hslots]
  calc q.asStored
      = ⟨q.pid, q.schema, q.size, q.asStored.bitmap, q.asStored.slots, none⟩ := rfl
    _ = ⟨p.pid, p.schema, p.size, p.asStored.bitmap, p.asStored.slots, none⟩ := by
      rw [hpid, hschema, hsize, hbitmap, hslots]
    _ = p.asStored := rfl

end Page

namespace Engine

variable {e d : Engine} {table : TableFile} {pid : PageId} {p q : Page} {rows rows' : List Row}

theorem Shown.asStored_congr (h : Shown e table pid p) (h' : Shown d table pid q)
    (hcontent : ∀ rid, d.content rid = e.content rid) : q.asStored = p.asStored :=
  h.shape.wellFormed.asStored_congr h'.shape.wellFormed (h'.pid_eq.trans h.pid_eq.symm)
    (h'.shape.schema_eq.trans h.shape.schema_eq.symm)
    (h'.shape.size_eq.trans h.shape.size_eq.symm)
    fun slot => by rw [h'.cells_eq, h.cells_eq, hcontent]

/-! ## 2. Scans -/

/-- The rows of a listing, cut, are the entries of the table. -/
theorem Listing.mem_stored_iff (h : Listing e table rows) (row : Row) :
    row ∈ rows.map (Row.asStored table.schema) ↔ ∃ rid, row.rid = some rid
      ∧ rid.page.table = table.id ∧ e.content rid = some row.values := by
  rw [List.mem_map]
  constructor
  · rintro ⟨kept, hm, rfl⟩
    exact h.sound kept hm
  · rintro ⟨rid, hrid, hown, hcontent⟩
    obtain ⟨kept, hm, hkept⟩ := h.complete rid row.values hown hcontent
    obtain ⟨rid', hkept', -, hcontent'⟩ := h.sound kept hm
    obtain rfl : rid = rid' := Option.some.inj (hkept.symm.trans hkept')
    rw [hcontent, Option.some.injEq] at hcontent'
    refine ⟨kept, hm, ?_⟩
    cases row
    simp only [Row.asStored, Row.mk.injEq]
    exact ⟨hcontent'.symm, hkept.trans hrid.symm⟩

/-- No row stands before itself, and no two before each other. -/
theorem not_before {a b : RecordId} (h : a.Before b) : ¬ b.Before a := by
  unfold RecordId.Before at h ⊢
  simp only [UInt32.lt_iff_toNat_lt, ← UInt32.toNat_inj] at h ⊢
  omega

theorem Listing.stored_pairwise (h : Listing e table rows) :
    (rows.map (Row.asStored table.schema)).Pairwise fun a b =>
      ∃ r s, a.rid = some r ∧ b.rid = some s ∧ r.Before s :=
  List.pairwise_map.mpr h.ascending

theorem Listing.nodup_stored (h : Listing e table rows) :
    (rows.map (Row.asStored table.schema)).Nodup := by
  refine h.stored_pairwise.imp ?_
  rintro a _ ⟨r, s, ha, hb, hrs⟩ rfl
  obtain rfl : r = s := Option.some.inj (ha.symm.trans hb)
  exact not_before hrs hrs

/-- **What is seen in a table is all that a scan can list**, once every row is cut. -/
theorem Listing.rows_eq (h : Listing e table rows) (h' : Listing d table rows')
    (hcontent : ∀ rid, rid.page.table = table.id → d.content rid = e.content rid) :
    rows'.map (Row.asStored table.schema) = rows.map (Row.asStored table.schema) := by
  have hmem : ∀ row, row ∈ rows'.map (Row.asStored table.schema)
      ↔ row ∈ rows.map (Row.asStored table.schema) := by
    intro row
    rw [h'.mem_stored_iff, h.mem_stored_iff]
    refine exists_congr fun rid => and_congr_right fun _ => and_congr_right fun hown => ?_
    rw [hcontent rid hown]
  have hperm := (List.perm_ext_iff_of_nodup h'.nodup_stored h.nodup_stored).mpr hmem
  refine List.Perm.eq_of_pairwise ?_ h'.stored_pairwise h.stored_pairwise hperm
  rintro a b _ _ ⟨r, s, ha, hb, hrs⟩ ⟨s', r', hb', ha', hsr⟩
  obtain rfl : r = r' := Option.some.inj (ha.symm.trans ha')
  obtain rfl : s = s' := Option.some.inj (hb.symm.trans hb')
  exact absurd hsr (not_before hrs)

/-! ## 3. Marks -/

/-- **The page is cached with changes of the transaction.** -/
def Marks (e : Engine) (tx : Tx) (pid : PageId) : Prop :=
  ∃ frame, e.cache.find? pid = some frame ∧ frame.page.dirty = some tx

variable {e' : Engine} {tx owner : Tx} {id : TableId} {frame : Frame}

/-- Requests neither mark a page nor let a marked one go. -/
theorem Fetches.marks_iff (h : Fetches tx e e') (hp : e.cache.Proper) :
    e'.Marks owner pid ↔ e.Marks owner pid := by
  have hmarked : ∀ {frame : Frame}, frame.page.dirty = some owner → frame.page.dirty ≠ none :=
    fun hd => by rw [hd]; exact Option.some_ne_none _
  constructor
  · rintro ⟨frame, hf, hd⟩
    exact ⟨frame, h.find?_of_dirty hp hf (hmarked hd), hd⟩
  · rintro ⟨frame, hf, hd⟩
    exact ⟨frame, h.find?_dirty hp hf (hmarked hd), hd⟩

theorem Explored.marks_iff (h : Explored tx id e e') (hp : e.cache.Proper) :
    e'.Marks owner pid ↔ e.Marks owner pid := by
  cases h with
  | within hf => exact hf.marks_iff hp
  | beyond _ hf _ _ hf' => exact (hf'.marks_iff (hf.proper hp)).trans (hf.marks_iff hp)

/-- A change marks its page for its transaction, and for nobody else. -/
theorem marks_changePage (changed : PageId) (page : Page) :
    (e.changePage tx changed frame page).Marks owner pid
      ↔ if pid = changed then owner = tx else e.Marks owner pid := by
  unfold Marks
  rw [find?_changePage]
  split
  · constructor
    · rintro ⟨_, hf, hd⟩
      cases hf
      exact (Option.some.inj hd).symm
    · rintro rfl
      exact ⟨_, rfl, rfl⟩
  · rfl

/-- Where the pages of a transaction are clean again, what others have marked is still marked. -/
theorem Cleans.marks_iff (h : Cleans (e.cache.changedBy tx) e e') (hp : e.cache.Proper) :
    e'.Marks owner pid ↔ owner ≠ tx ∧ e.Marks owner pid := by
  have hmine : pid ∈ e.cache.changedBy tx ↔ e.Marks tx pid := hp.mem_changedBy_iff
  by_cases hm : pid ∈ e.cache.changedBy tx
  · obtain ⟨frame, hf, hd⟩ := hmine.mp hm
    refine iff_of_false ?_ ?_
    · rintro ⟨found, hfound, hmark⟩
      rw [h.clean hm hfound] at hmark
      cases hmark
    · rintro ⟨hne, found, hfound, hmark⟩
      rw [hf] at hfound
      cases hfound
      exact hne (Option.some.inj (hmark.symm.trans hd))
  · unfold Marks
    rw [h.find?_eq hm]
    refine ⟨fun hmark => ⟨?_, hmark⟩, And.right⟩
    rintro rfl
    exact hm (hmine.mpr hmark)

/-- Settling marks no page. -/
theorem Settles.marks (h : Settles e e') (hm : e'.Marks owner pid) : e.Marks owner pid := by
  obtain ⟨frame, hf, hd⟩ := hm
  obtain ⟨old, hold, he⟩ := h.dirty hf (by rw [hd]; exact Option.some_ne_none _)
  exact ⟨old, hold, he ▸ hd⟩

/-! ## 4. What is seen while pages are written and dropped -/

variable {e₁ : Engine} {pids : List PageId} {rid : RecordId} {r : Except Failure Unit}

/-- **Flushing changes nothing that is seen**, also where it fails or stops. -/
theorem flushPage_content (hs : Sound e) (h : e.flushPage pid = (e', r)) (rid : RecordId) :
    e'.content rid = e.content rid := by
  rcases flushPage_cases h with ⟨rfl, -⟩ | ⟨frame, table, disk, hf, ht, hw, rfl, -⟩ | ⟨hh, -⟩
  · rfl
  · exact content_write hs hf ht hw rid
  · exact (hh.sound hs).2.content_eq rid

theorem flushEach_content (hs : Sound e) (h : flushEach pids e = (e', r)) (rid : RecordId) :
    e'.content rid = e.content rid := by
  induction pids generalizing e with
  | nil =>
    cases h
    rfl
  | cons pid pids ih =>
    rcases flushEach_cons_cases h with ⟨f, hp, -⟩ | ⟨e₁, hp, hrest⟩
    · exact flushPage_content hs hp rid
    · exact (ih ((flushPage_settles hp).sound hs) hrest).trans (flushPage_content hs hp rid)

theorem flushChanged_content (hs : Sound e) (h : e.flushChanged tx = (e', r)) (rid : RecordId) :
    e'.content rid = e.content rid := by
  rcases flushChanged_cases h with ⟨hh, -⟩ | hflush
  · exact (hh.sound hs).2.content_eq rid
  · exact flushEach_content hs hflush rid

theorem flushAll_content (hs : Sound e) (h : e.flushAll = (e', r)) (rid : RecordId) :
    e'.content rid = e.content rid := by
  rcases flushAll_cases h with rfl | hflush
  · rfl
  · exact flushEach_content hs hflush rid

/-- **Reverting some pages changes nothing that is seen on others**, also where it fails or
stops. -/
theorem revertEach_content (hs : Sound e) (h : revertEach pids e = (e', r))
    (hnot : rid.page ∉ pids) : e'.content rid = e.content rid := by
  induction pids generalizing e r with
  | nil =>
    cases h
    rfl
  | cons pid pids ih =>
    rw [List.mem_cons, not_or] at hnot
    rcases revertEach_cons_cases h with ⟨f, hp, -⟩ | ⟨e₁, r₁, r₂, hp, hrest, -⟩
    · rw [(hs.revertPage hp).2.2, if_neg hnot.1]
    · obtain ⟨hs₁, -, hcontent⟩ := hs.revertPage hp
      rw [ih hs₁ hrest hnot.2, hcontent, if_neg hnot.1]

theorem revertChanged_content (hs : Sound e) (h : e.revertChanged tx = (e', r))
    (hno : ¬e.Marks tx rid.page) : e'.content rid = e.content rid := by
  have hnot : rid.page ∉ e.cache.changedBy tx := fun hm => hno (hs.proper.mem_changedBy_iff.mp hm)
  rcases revertChanged_cases h with ⟨hh, -⟩ | ⟨e₁, hrevert, he⟩
  · exact (hh.sound hs).2.content_eq rid
  · have hcontent := revertEach_content hs hrevert hnot
    rcases he with rfl | ⟨hh, -⟩
    · exact hcontent
    · have hs₁ := (revertEach_changed_settles hs.proper hrevert).sound hs
      exact ((hh.sound hs₁).2.content_eq rid).trans hcontent

theorem conclude_content {commit : Bool} (hs : Sound e) (h : e.conclude tx commit = (e', r))
    (hno : ¬e.Marks tx rid.page) : e'.content rid = e.content rid := by
  unfold conclude at h
  split at h
  · unfold settle at h
    split at h
    · rename_i e₁ _ hf
      cases h
      exact flushChanged_content hs hf rid
    · -- a commit that cannot write a page reverts the rest of its own pages
      rename_i e₁ f hf
      have hcontent := flushChanged_content hs hf rid
      have hsettles := flushChanged_settles hf
      split at h
      · cases h
        exact hcontent
      · cases h
        exact (revertChanged_content (hsettles.sound hs) rfl (mt hsettles.marks hno)).trans hcontent
  · exact revertChanged_content hs h hno

/-- **A completion changes what is seen on pages of its own transaction only**, however it ends. -/
theorem complete_content {commit : Bool} (hs : Sound e) (h : e.complete tx commit = (e', r))
    (hno : ¬e.Marks tx rid.page) : e'.content rid = e.content rid := by
  unfold complete at h
  split at h
  · rename_i e₁ _ hc
    cases h
    exact (conclude_content hs hc hno :)
  · rename_i e₁ f hc
    cases h
    have hcontent := conclude_content hs hc hno
    split <;> exact hcontent

theorem complete_marks {commit : Bool} (hp : e.cache.Proper) (h : e.complete tx commit = (e', r))
    (hm : e'.Marks owner pid) : e.Marks owner pid := by
  obtain ⟨e₁, hs, ⟨-, -, rfl⟩ | ⟨-, rfl⟩⟩ := complete_cases hp h
  · exact hs.marks hm
  · exact hs.marks hm

end Engine

end RowStore
