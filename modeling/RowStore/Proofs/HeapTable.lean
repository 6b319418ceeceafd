import RowStore.Proofs.OneTable

/-!
# A table is a finite map, filled first fit

Seen through `Engine.content`, a table is a finite map from record ids to values.  An insert adds
one entry, at the first place that is free; only when no place is free it makes the table one page
longer (`Inserted`, `FirstFit`).  A delete takes one entry away (`Deleted`), and a full scan lists
all entries in order (`Listing`).

All three say what happened without a word of what was cached: a page that an operation looks at on
its way shows the content (`Visited.shows`), wherever it came from.  Main statement:
`table_refines`.
-/

namespace RowStore

/-! ## 1. Rows of a page, in order -/

namespace Page

variable {p : Page}

theorem mem_rows_iff (row : Row) : row ∈ p.rows ↔ ∃ slot, p.row? slot = some row := by
  rw [rows, List.mem_filterMap]
  simp only [id_eq, exists_eq_right, List.mem_iff_getElem?, row?, Option.join_eq_some_iff]

/-- The rows of a page come in the order of their slots. -/
theorem WellFormed.rows_pairwise (h : p.WellFormed) : p.rows.Pairwise fun a b =>
    ∃ i j, a.rid = some ⟨p.pid, i⟩ ∧ b.rid = some ⟨p.pid, j⟩ ∧ i < j := by
  rw [rows, List.pairwise_filterMap, List.pairwise_iff_getElem]
  intro i j hi hj hij a ha b hb
  have hrow : ∀ {k : Nat} {row : Row} (hk : k < p.slots.length), id p.slots[k] = some row →
      row.rid = some ⟨p.pid, k⟩ := fun hk hr =>
    (h.row_in_slot _ _ (by rw [List.getElem?_eq_getElem hk]; exact congrArg some hr)).2
  exact ⟨i, j, hrow hi ha, hrow hj hb, hij⟩

/-- Every slot of a full page is used. -/
theorem WellFormed.isUsed_of_full (h : p.WellFormed) (hfull : p.freeCount = 0) {slot : Nat}
    (hs : slot < p.slotCount) : p.isUsed slot := by
  rw [freeCount, List.countP_eq_zero] at hfull
  rw [← h.length_bitmap] at hs
  have hbit := hfull _ (List.getElem_mem hs)
  rw [isUsed, List.getElem?_eq_getElem hs]
  simpa using hbit

end Page

/-! ## 2. Places -/

/-- Record ids of one table in order: by page, then by slot. -/
def RecordId.Before (a b : RecordId) : Prop :=
  a.page.index < b.page.index ∨ a.page.index = b.page.index ∧ a.slot < b.slot

/-- The order is total. -/
theorem RecordId.eq_or_before {a b : RecordId} (h : a.page.table = b.page.table) :
    a = b ∨ a.Before b ∨ b.Before a := by
  obtain ⟨⟨t, i⟩, s⟩ := a
  obtain ⟨⟨t', j⟩, s'⟩ := b
  obtain rfl : t = t' := h
  rcases Nat.lt_trichotomy i.toNat j.toNat with hlt | heq | hgt
  · exact Or.inr (Or.inl (Or.inl (UInt32.lt_iff_toNat_lt.mpr hlt)))
  · obtain rfl := UInt32.toNat_inj.mp heq
    rcases Nat.lt_trichotomy s s' with hlt | rfl | hgt
    · exact Or.inr (Or.inl (Or.inr ⟨rfl, hlt⟩))
    · exact Or.inl rfl
    · exact Or.inr (Or.inr (Or.inr ⟨rfl, hgt⟩))
  · exact Or.inr (Or.inr (Or.inl (UInt32.lt_iff_toNat_lt.mpr hgt)))

/-- **The pages of a table**, one after the other, as many as 32 bits can count. -/
structure Laid (table : TableFile) (pages : List Page) : Prop where
  length_lt : pages.length < UInt32.size
  page : ∀ j page, pages[j]? = some page → page.WellFormed ∧ page.pid = table.pageId j

namespace Laid

variable {table : TableFile} {pages : List Page}

/-- A row of the pages stands where it says. -/
theorem mem (h : Laid table pages) {row : Row} (hm : row ∈ pages.flatMap Page.rows) :
    ∃ j page slot, pages[j]? = some page ∧ page.row? slot = some row
      ∧ row.rid = some ⟨table.pageId j, slot⟩ := by
  obtain ⟨page, hp, hrow⟩ := List.mem_flatMap.mp hm
  obtain ⟨j, hj⟩ := List.mem_iff_getElem?.mp hp
  obtain ⟨slot, hslot⟩ := (Page.mem_rows_iff row).mp hrow
  obtain ⟨hw, hpid⟩ := h.page j page hj
  exact ⟨j, page, slot, hj, hslot, hpid ▸ (hw.row_of_row? hslot).2⟩

/-- **The rows of the pages come in the order of their record ids.** -/
theorem ascending (h : Laid table pages) : (pages.flatMap Page.rows).Pairwise fun a b =>
    ∃ r s, a.rid = some r ∧ b.rid = some s ∧ r.Before s := by
  rw [List.pairwise_flatMap, List.pairwise_iff_getElem]
  constructor
  · intro page hp
    obtain ⟨j, hj⟩ := List.mem_iff_getElem?.mp hp
    refine (h.page j page hj).1.rows_pairwise.imp ?_
    rintro a b ⟨s, t, ha, hb, hst⟩
    exact ⟨_, _, ha, hb, Or.inr ⟨rfl, hst⟩⟩
  · intro i j hi hj hij a ha b hb
    have hrid : ∀ {k : Nat} (hk : k < pages.length) {row : Row}, row ∈ pages[k].rows →
        ∃ slot, row.rid = some ⟨table.pageId k, slot⟩ := by
      intro k hk row hm
      obtain ⟨slot, hslot⟩ := (Page.mem_rows_iff row).mp hm
      obtain ⟨hw, hpid⟩ := h.page k _ (List.getElem?_eq_getElem hk)
      exact ⟨slot, hpid ▸ (hw.row_of_row? hslot).2⟩
    obtain ⟨s, hs⟩ := hrid hi ha
    obtain ⟨t, ht⟩ := hrid hj hb
    refine ⟨_, _, hs, ht, Or.inl (UInt32.lt_iff_toNat_lt.mpr ?_)⟩
    rw [table.index_pageId (Nat.lt_trans hi h.length_lt),
      table.index_pageId (Nat.lt_trans hj h.length_lt)]
    exact hij

end Laid

namespace Engine

variable {e e' e₁ : Engine} {tx : Tx} {pid : PageId} {page : Page} {rid : RecordId}
  {table : TableFile} {id : TableId} {row : Row}

/-- A free place: a slot of an existing page of the table where nothing is seen. -/
structure Vacant (e : Engine) (table : TableFile) (rid : RecordId) : Prop where
  own : rid.page.table = table.id
  index_lt : rid.page.index.toNat < table.pageCount e.disk
  slot_lt : rid.slot < PageLayout.slotCount table.schema table.pageSize
  free : e.content rid = none

/-- **The first fit.**  If there is a free place, it is the first one, and the table stays as long
as it is.  If there is none, it is the first slot of a page behind the last one. -/
structure FirstFit (e e' : Engine) (table : TableFile) (rid : RecordId) : Prop where
  reused : (∃ r, e.Vacant table r) → e.Vacant table rid
    ∧ (∀ r, e.Vacant table r → r = rid ∨ rid.Before r)
    ∧ table.pageCount e'.disk = table.pageCount e.disk
  appended : (¬ ∃ r, e.Vacant table r) → rid.page.table = table.id
    ∧ rid.page.index.toNat = table.pageCount e.disk ∧ rid.slot = 0
    ∧ table.pageCount e'.disk = table.pageCount e.disk + 1

theorem FirstFit.own (h : FirstFit e e' table rid) : rid.page.table = table.id := by
  by_cases hvacant : ∃ r, e.Vacant table r
  · exact (h.reused hvacant).1.own
  · exact (h.appended hvacant).1

/-- **What an insert that goes through does**: the row gets the first free place, and the content is
the old one with this entry. -/
def Inserted (e : Engine) (table : TableFile) (row : Row) (e' : Engine) (stored : Row) : Prop :=
  ∃ rid, stored = { row with rid := some rid } ∧ FirstFit e e' table rid ∧ e.content rid = none
    ∧ ∀ r, e'.content r
      = if r = rid then some (Row.cutValues row.values table.schema.columns) else e.content r

/-- **What a delete that goes through does**: the entry at the row's record id was there, and the
content is the old one without it; the disk stays as it is. -/
def Deleted (e : Engine) (row : Row) (e' : Engine) : Prop :=
  ∃ rid, row.rid = some rid ∧ e.content rid ≠ none ∧ e'.disk = e.disk
    ∧ ∀ r, e'.content r = if r = rid then none else e.content r

/-- **The rows are exactly the entries of the table**, in the order of their record ids. -/
structure Listing (e : Engine) (table : TableFile) (rows : List Row) : Prop where
  sound : ∀ row ∈ rows, ∃ rid, row.rid = some rid ∧ rid.page.table = table.id
    ∧ e.content rid = some (Row.cutValues row.values table.schema.columns)
  complete : ∀ rid values, rid.page.table = table.id → e.content rid = some values →
    ∃ row ∈ rows, row.rid = some rid
  ascending : rows.Pairwise fun a b => ∃ r s, a.rid = some r ∧ b.rid = some s ∧ r.Before s

/-! ## 3. What a page that was looked at says -/

/-- The page is one of the registered table, as it is seen. -/
structure Shown (e : Engine) (table : TableFile) (pid : PageId) (page : Page) : Prop where
  shape : table.Shapes page
  pid_eq : page.pid = pid
  cells_eq : ∀ slot, page.cells slot = e.content ⟨pid, slot⟩

theorem Visited.shown (h : Visited tx e e' pid page) (hs : Sound e)
    (ht : e.catalog.table? pid.table = some table) : Shown e table pid page := by
  obtain ⟨⟨table', ht', hshape, -⟩, hpid, hcells⟩ := h.shows hs
  obtain rfl : table = table' := Option.some.inj (ht.symm.trans ht')
  exact ⟨hshape, hpid, hcells⟩

/-- A cached page is one of its table, and shows the content. -/
theorem Sound.shown (hs : Sound e) {frame : Frame} (hf : e.cache.find? pid = some frame) :
    ∃ table, e.catalog.table? pid.table = some table ∧ Shown e table pid frame.page := by
  obtain ⟨table, ht, -⟩ := hs.lodged hf
  have hv : Visited ⟨0⟩ e e pid frame.page := ⟨e, frame, .refl, .refl, hf, rfl⟩
  exact ⟨table, ht, hv.shown hs ht⟩

namespace Shown

theorem slotCount_eq (h : Shown e table pid page) :
    page.slotCount = PageLayout.slotCount table.schema table.pageSize := by
  rw [Page.slotCount, h.shape.schema_eq, h.shape.size_eq]

theorem isUsed_iff (h : Shown e table pid page) (slot : Nat) :
    page.isUsed slot ↔ e.content ⟨pid, slot⟩ ≠ none := by
  rw [h.shape.wellFormed.isUsed_iff_cells, h.cells_eq]

/-- Nothing is free on a page that is full. -/
theorem not_vacant (h : Shown e table rid.page page) (hfull : page.freeCount = 0) :
    ¬ e.Vacant table rid := fun hv =>
  (h.isUsed_iff rid.slot).mp
    (h.shape.wellFormed.isUsed_of_full hfull (h.slotCount_eq.symm ▸ hv.slot_lt)) hv.free

/-- The first free slot of a page: nothing is seen there, and something at every one before. -/
theorem firstFree (h : Shown e table pid page) {slot : Nat} (hf : page.firstFree? = some slot) :
    slot < PageLayout.slotCount table.schema table.pageSize ∧ e.content ⟨pid, slot⟩ = none
      ∧ ∀ j, j < slot → e.content ⟨pid, j⟩ ≠ none := by
  obtain ⟨hlt, hnone, hbefore⟩ := h.shape.wellFormed.firstFree?_eq_some_iff.mp hf
  have hcontent : ∀ j, e.content ⟨pid, j⟩ = none ↔ page.row? j = none := by
    intro j
    rw [← h.cells_eq, Page.cells, Option.map_eq_none_iff]
  exact ⟨h.slotCount_eq ▸ hlt, (hcontent slot).mpr hnone,
    fun j hj => mt (hcontent j).mp (hbefore j hj)⟩

end Shown

/-- Whatever is seen is on a page that the table counts. -/
theorem Sound.lt_of_content (hs : Sound e) (ht : e.catalog.table? rid.page.table = some table)
    (hc : e.content rid ≠ none) : rid.page.index.toNat < table.pageCount e.disk := by
  cases hf : e.cache.find? rid.page with
  | some frame =>
    obtain ⟨table', ht', -, hlt, -⟩ := hs.lodged hf
    obtain rfl : table = table' := Option.some.inj (ht.symm.trans ht')
    exact hlt
  | none =>
    rw [content_of_not_cached hf, stored, storedPage, ht] at hc
    apply Nat.lt_of_not_le
    intro hle
    simp [TableFile.pageAt_of_le hle] at hc

/-! ## 4. Inserting -/

/-- Of the table by itself, the same places are free. -/
theorem vacant_only_iff (ht : e.catalog.table? table.id = some table) :
    (e.only table).Vacant table rid ↔ e.Vacant table rid := by
  constructor
  · rintro ⟨hown, hindex, hslot, hfree⟩
    exact ⟨hown, hindex, hslot, (content_only ht hown).symm.trans hfree⟩
  · rintro ⟨hown, hindex, hslot, hfree⟩
    exact ⟨hown, hindex, hslot, (content_only ht hown).trans hfree⟩

theorem FirstFit.of_only (h : FirstFit (e.only table) e' table rid)
    (ht : e.catalog.table? table.id = some table) : FirstFit e e' table rid where
  reused := by simpa only [vacant_only_iff ht, disk_only] using h.reused
  appended := by simpa only [vacant_only_iff ht, disk_only] using h.appended

theorem Shows.shown_of_visited (hs : e.Shows table) (hown : pid.table = table.id)
    (h : Visited tx e e' pid page) : Shown (e.only table) table pid page := by
  obtain ⟨⟨found, hfound, hshape, -⟩, hpid, hcells⟩ := hs.visited hown h
  obtain ⟨-, rfl⟩ := table?_only_eq_some_iff.mp hfound
  exact ⟨hshape, hpid, hcells⟩

/-- Where all pages were seen full, nothing is free. -/
theorem Shows.not_vacant (hs : e.Shows table) {n : Nat}
    (hfull : ∀ j, j < n → SeenFull tx e e' (table.pageId j)) (hr : rid.page.index.toNat < n)
    (hown : rid.page.table = table.id) : ¬ (e.only table).Vacant table rid := by
  obtain ⟨page, hv, hz⟩ := hfull _ hr
  have hpid : table.pageId rid.page.index.toNat = rid.page := by
    rw [TableFile.pageId, ← hown, UInt32.ofNat_toNat]
  rw [hpid] at hv
  exact (hs.shown_of_visited hown hv).not_vacant hz

theorem not_vacant_of_seenFull (hs : Sound e) (ht : e.catalog.table? table.id = some table)
    {n : Nat} (hfull : ∀ j, j < n → SeenFull tx e e' (table.pageId j))
    (hr : rid.page.index.toNat < n) (hown : rid.page.table = table.id) : ¬ e.Vacant table rid :=
  mt (vacant_only_iff ht).mpr ((hs.shows ht).not_vacant hfull hr hown)

theorem Room.own (h : Room tx table e pid e₁) : pid.table = table.id := by
  cases h with
  | found _ _ _ => rfl
  | made _ _ ha _ =>
    rcases TableFile.appendPage_cases ha with ⟨hr, -⟩ | ⟨-, f, hr⟩
    · cases hr
      rfl
    · cases hr

/-- **The place that room was found at is the first free one.** -/
theorem Room.firstFit (h : Room tx table e pid e₁) (hs : e.Shows table) {frame : Frame}
    (hf : e₁.cache.find? pid = some frame) {slot : Nat}
    (hfree : frame.page.firstFree? = some slot) (hd : e'.disk = e₁.disk) :
    FirstFit (e.only table) e' table ⟨pid, slot⟩ ∧ (e.only table).content ⟨pid, slot⟩ = none := by
  cases h with
  | @found i _ hi hfetch hfull =>
    have hv : Visited tx e e₁ (table.pageId i) frame.page := ⟨e₁, frame, hfetch, .refl, hf, rfl⟩
    obtain ⟨hslot, hnone, hused⟩ := (hs.shown_of_visited rfl hv).firstFree hfree
    have hlt : i + 1 < UInt32.size := @lt_of_lodged (e.only table) table (i + 1) fun j hj => by
      rcases Nat.lt_succ_iff_lt_or_eq.mp hj with hj | rfl
      · obtain ⟨page, hseen, -⟩ := hfull j hj
        exact ⟨page, (hs.visited rfl hseen).1⟩
      · exact ⟨_, (hs.visited rfl hv).1⟩
    have hindex := table.index_pageId (Nat.lt_of_succ_lt hlt)
    have hvac : (e.only table).Vacant table ⟨table.pageId i, slot⟩ :=
      ⟨rfl, hindex.symm ▸ hi, hslot, hnone⟩
    refine ⟨⟨fun _ => ⟨hvac, ?_, by rw [hd, hfetch.same.2]; rfl⟩,
      fun hno => absurd ⟨_, hvac⟩ hno⟩, hnone⟩
    intro r hr
    rcases RecordId.eq_or_before (b := ⟨table.pageId i, slot⟩) hr.own with heq | hbefore | hbehind
    · exact Or.inl heq
    · rcases hbefore with hpage | ⟨hidx, hlt⟩
      · have hbelow := UInt32.lt_iff_toNat_lt.mp hpage
        exact absurd hr (hs.not_vacant hfull (hindex ▸ hbelow) hr.own)
      · have hpage : r.page = table.pageId i := by
          obtain ⟨⟨t, x⟩, s⟩ := r
          exact congrArg₂ PageId.mk hr.own hidx
        exact absurd (hpage ▸ hr.free) (hused r.slot hlt)
    · exact Or.inr hbehind
  | @made e₂ _ disk _ hfetch hfull ha hfetch' =>
    have hno : ¬ ∃ r, (e.only table).Vacant table r := fun ⟨r, hr⟩ =>
      hs.not_vacant hfull hr.index_lt hr.own hr
    have hsame := hfetch.same
    have hc : table.pageCount e.disk < UInt32.size := hs.lt_of_seenFull hfull
    obtain ⟨happ, rfl⟩ := TableFile.appends_of_appendPage (hsame.2 ▸ hc) ha
    rw [hsame.2] at happ hf ⊢
    have hx : Explored tx table.id e e₁ := .beyond hs.registered hfetch hfull ha hfetch'
    obtain ⟨hs₁, hcontent⟩ := hx.shows hs hs
    have hv : Visited tx e₁ e₁ (table.pageId (table.pageCount e.disk)) frame.page :=
      ⟨e₁, frame, .refl, .refl, hf, rfl⟩
    obtain ⟨-, -, hused⟩ := (hs₁.shown_of_visited rfl hv).firstFree hfree
    -- the new page is not among those that were counted before, so nothing is seen on it
    have hnone : ∀ j, (e.only table).content ⟨table.pageId (table.pageCount e.disk), j⟩ = none :=
      fun j => Classical.byContradiction fun hne => by
        have hlt := @Sound.lt_of_content (e.only table)
          ⟨table.pageId (table.pageCount e.disk), j⟩ table hs.sound (if_pos rfl) hne
        rw [table.index_pageId hc] at hlt
        exact Nat.lt_irrefl _ hlt
    have hzero : slot = 0 := by
      apply Nat.eq_zero_of_not_pos
      intro hpos
      refine hused 0 hpos ?_
      rw [content_only hs₁.registered rfl, hcontent _ rfl, ← content_only hs.registered rfl]
      exact hnone 0
    refine ⟨⟨fun hyes => absurd hyes hno, fun _ => ⟨rfl, table.index_pageId hc, hzero, ?_⟩⟩,
      hnone slot⟩
    rw [hd, hfetch'.same.2]
    exact happ.pageCount_eq hs.roomy

/-- How an insert goes through: room was found for the row at the first free place, and there it
was put on its page. -/
theorem Shows.insert_cases (hs : e.Shows table) {stored : Row} {pids : List PageId}
    (h : e.insert tx table.id row = (e', stored, .ok pids)) : ∃ rid e₁ frame page,
      stored = { row with rid := some rid } ∧ FirstFit e e' table rid ∧ e.content rid = none
      ∧ Explored tx table.id e e₁ ∧ e₁.cache.find? rid.page = some frame
      ∧ frame.page.Changed page rid (some row.values)
      ∧ e' = e₁.changePage tx rid.page frame page := by
  rcases Engine.insert_cases hs.proper h with ⟨-, -, f, hr⟩
    | ⟨found, pid, e₁, frame, page, rid, hfound, -, hroom, hh, hi, rfl, rfl, -⟩
  · cases hr
  obtain rfl : table = found := Option.some.inj (hs.registered.symm.trans hfound)
  have hexplored := hroom.explored hs.registered
  obtain ⟨slot, -, hfree, hslot, -⟩ := Page.insert_eq_ok_iff.mp hi
  obtain rfl : rid = ⟨pid, slot⟩ := by
    rw [hslot, (hexplored.shows hs hs).1.proper.keyed hh.cached]
  obtain ⟨hfit, hnone⟩ := @Room.firstFit e (e₁.changePage tx pid frame page) e₁ tx pid table
    hroom hs frame hh.cached slot hfree rfl
  rw [content_only hs.registered hroom.own] at hnone
  exact ⟨_, e₁, frame, page, rfl, hfit.of_only hs.registered, hnone, hexplored, hh.cached,
    @Page.Changed.inserted _ row _ _ hi, rfl⟩

/-- **What an insert that goes through does to tables that are shown rightly**: the row gets the
first free place of its table, and this is all that changes of this table or another one. -/
theorem Shows.insert (hs : e.Shows table) {stored : Row} {pids : List PageId}
    (h : e.insert tx table.id row = (e', stored, .ok pids)) : ∃ rid,
      stored = { row with rid := some rid } ∧ FirstFit e e' table rid ∧ e.content rid = none
      ∧ ∀ {other : TableFile}, e.Shows other → e'.Shows other
        ∧ ∀ r, r.page.table = other.id → e'.content r = if r = rid
          then some (Row.cutValues row.values other.schema.columns) else e.content r := by
  obtain ⟨rid, e₁, frame, page, hstored, hfit, hnone, hx, hf, hc, rfl⟩ := hs.insert_cases h
  refine ⟨rid, hstored, hfit, hnone, fun ho => ?_⟩
  obtain ⟨ho₁, hsame⟩ := hx.shows hs ho
  obtain ⟨ho', hcontent⟩ := ho₁.changePage tx hf hc
  refine ⟨ho', fun r hown => ?_⟩
  rw [hcontent r hown, hsame r hown]
  rfl

/-- **An insert that goes through adds one entry, at the first free place.** -/
theorem Sound.insert (hs : Sound e) (ht : e.catalog.table? id = some table) {stored : Row}
    {pids : List PageId} (h : e.insert tx id row = (e', stored, .ok pids)) :
    Inserted e table row e' stored := by
  obtain rfl : table.id = id := (hs.tables ht).1
  obtain ⟨rid, e₁, frame, page, hstored, hfit, hnone, hx, hf, hc, rfl⟩ :=
    (hs.shows ht).insert_cases h
  obtain ⟨hs₁, hrows⟩ := hx.sound hs
  obtain ⟨-, -, -, found, hfound, hcontent⟩ := hs₁.changePage tx hf hc
  rw [hfit.own, hrows.catalog_eq, ht] at hfound
  cases hfound
  refine ⟨rid, hstored, hfit, hnone, fun r => ?_⟩
  rw [hcontent, hrows.content_eq]
  rfl

/-! ## 5. Deleting -/

/-- **A delete that goes through takes one entry away**, which was there. -/
theorem Sound.delete (hs : Sound e) {pids : List PageId} (h : e.delete tx row = (e', .ok pids)) :
    Deleted e row e' := by
  rcases delete_cases hs.proper h with ⟨-, f, hr⟩ | ⟨rid, e₁, frame, page, hrid, hf, hh, hd, rfl, -⟩
  · cases hr
  · obtain ⟨hs₁, hrows⟩ := hf.sound hs
    obtain ⟨-, -, -, table, ht, hcontent⟩ :=
      hs₁.changePage tx hh.cached (.deleted hrid hd)
    obtain ⟨rid', hrid', -, hused, -⟩ := Page.delete_eq_ok_iff.mp hd
    obtain rfl : rid = rid' := Option.some.inj (hrid.symm.trans hrid')
    obtain ⟨table', ht', hshape, -⟩ := hs₁.lodged hh.cached
    have hthere : e.content rid ≠ none := by
      rw [← hrows.content_eq, content_of_cached hh.cached]
      exact (hshape.wellFormed.isUsed_iff_cells _).mp hused
    refine ⟨rid, hrid, hthere, hf.same.2, ?_⟩
    intro r
    rw [hcontent, hrows.content_eq]
    rfl

/-! ## 6. Scanning -/

/-- Every row of a page is an entry. -/
theorem Shown.entry_of_mem (h : Shown e table pid page) (hm : row ∈ page.rows) :
    ∃ slot, row.rid = some ⟨pid, slot⟩
      ∧ e.content ⟨pid, slot⟩ = some (Row.cutValues row.values table.schema.columns) := by
  obtain ⟨slot, hslot⟩ := (Page.mem_rows_iff row).mp hm
  refine ⟨slot, h.pid_eq ▸ (h.shape.wellFormed.row_of_row? hslot).2, ?_⟩
  rw [← h.cells_eq, Page.cells, hslot, h.shape.schema_eq]
  rfl

/-- Every entry of a page is one of its rows. -/
theorem Shown.mem_of_entry {values : List Value} (h : Shown e table rid.page page)
    (hc : e.content rid = some values) : ∃ row ∈ page.rows, row.rid = some rid := by
  rw [← h.cells_eq, Page.cells, Option.map_eq_some_iff] at hc
  obtain ⟨row, hr, -⟩ := hc
  refine ⟨row, (Page.mem_rows_iff row).mpr ⟨_, hr⟩, ?_⟩
  rw [(h.shape.wellFormed.row_of_row? hr).2, h.pid_eq]

/-- **The rows of all pages of a table, as they are seen, list the table.** -/
theorem Sound.listing (hs : Sound e) (ht : e.catalog.table? table.id = some table)
    {pages : List Page} (hlen : pages.length = table.pageCount e.disk)
    (hcount : pages.length < UInt32.size)
    (hshown : ∀ j page, pages[j]? = some page → Shown e table (table.pageId j) page) :
    Listing e table (pages.flatMap Page.rows) where
  sound row hm := by
    obtain ⟨page, hp, hm⟩ := List.mem_flatMap.mp hm
    obtain ⟨j, hj⟩ := List.mem_iff_getElem?.mp hp
    obtain ⟨slot, hrid, hcontent⟩ := (hshown j page hj).entry_of_mem hm
    exact ⟨_, hrid, rfl, hcontent⟩
  complete rid values hown hc := by
    have hlt : rid.page.index.toNat < table.pageCount e.disk :=
      hs.lt_of_content (hown.symm ▸ ht) (by rw [hc]; exact Option.some_ne_none _)
    rw [← hlen] at hlt
    have hsh := hshown _ _ (List.getElem?_eq_getElem hlt)
    rw [TableFile.pageId, ← hown, UInt32.ofNat_toNat] at hsh
    obtain ⟨row, hm, hrid⟩ := Shown.mem_of_entry hsh hc
    exact ⟨row, List.mem_flatMap.mpr ⟨_, List.getElem_mem hlt, hm⟩, hrid⟩
  ascending := by
    have hlaid : Laid table pages := ⟨hcount, fun j page hj =>
      ⟨(hshown j page hj).shape.wellFormed, (hshown j page hj).pid_eq⟩⟩
    exact hlaid.ascending

/-- **A scan that does not fail lists the table.** -/
theorem Sound.scan (hs : Sound e) (ht : e.catalog.table? table.id = some table) {rows : List Row}
    (h : e.scan tx table = (e', rows, .ok ())) :
    Listing e table rows ∧ ∀ r, e'.content r = e.content r := by
  obtain ⟨hf, hend⟩ := scan_cases h
  obtain ⟨pages, hlen, rfl, hvis⟩ := hend rfl
  have hcount : pages.length < UInt32.size := lt_of_visited hs fun j hj =>
    ⟨_, hvis j _ (List.getElem?_eq_getElem hj)⟩
  exact ⟨hs.listing ht hlen hcount fun j page hj => (hvis j page hj).shown hs ht,
    (hf.sound hs).2.content_eq⟩

end Engine

/-! ## 7. Runs -/

/-- **The calls that work on tables registered once**: those that use pages, and the creation of a
table that is not known yet. -/
def Call.OnTables (e : Engine) : Call → Prop
  | createTable file name schema => e.RegistersOnce file name schema
  | c => c.UsesPages

namespace Engine

variable {e e' : Engine} {events log : List Event}

theorem Did.sound (h : Did e e' events) (hs : Sound e) : Sound e' := by
  cases h with
  | worked hw => exact hw.sound hs
  | settled hset => exact hset.sound hs
  | completed hc _ =>
    obtain ⟨e₁, hset, ⟨-, -, rfl⟩ | ⟨-, rfl⟩⟩ := complete_cases hs.proper hc
    · obtain ⟨htables, hidOf, hproper, hlodged, hclean⟩ := hset.sound hs
      exact ⟨htables, hidOf, hproper, hlodged, hclean⟩
    · exact hset.sound hs

theorem Sound.call {c : Call} (hs : Sound e) (hc : c.OnTables e) (h : e.call c = (e', events)) :
    Sound e' := by
  by_cases hp : c.UsesPages
  · exact (did_of_call hs.proper hp h).sound hs
  · cases c with
    | createTable file name schema =>
      cases h
      exact (createTable_cases hc rfl).sound hs
    | _ => exact absurd hc hp

/-- A new store has neither tables nor cached pages. -/
theorem sound_new (config : Config) (disk : Disk) :
    Sound { config := config, disk := disk } where
  tables h := by cases h
  idOf h := by cases h
  proper := .empty
  lodged h := by cases h
  clean h := by cases h

end Engine

open Engine

/-- **The invariant holds along every run** on tables that are registered once. -/
theorem Run.sound {start e : Engine} {log : List Event} (hs : Sound start)
    (h : Run (fun e c => c.OnTables e) start e log) : Sound e := by
  induction h with
  | nil => exact hs
  | call c _ hc he ih => exact ih.call hc he

/-- **A table refines a finite map.**  In every state that a new store reaches on tables registered
once, over any files:

* an insert that goes through puts the row at the first free place and adds this entry;
* a delete that goes through takes the entry at the row's record id away, which was there;
* a full scan that does not fail lists the content of the table in order, and changes nothing. -/
theorem table_refines {config : Config} {disk : Disk} {e : Engine} {log : List Event}
    (h : Run (fun e c => c.OnTables e) { config := config, disk := disk } e log)
    {id : TableId} {table : TableFile} (ht : e.catalog.table? id = some table) :
    (∀ tx row e' stored pids, e.insert tx id row = (e', stored, .ok pids) →
        Inserted e table row e' stored)
      ∧ (∀ tx row e' pids, e.delete tx row = (e', .ok pids) → Deleted e row e')
      ∧ ∀ tx e' rows, e.scan tx table = (e', rows, .ok ()) →
        Listing e table rows ∧ ∀ r, e'.content r = e.content r := by
  have hs := h.sound (sound_new config disk)
  obtain rfl : table.id = id := (hs.tables ht).1
  exact ⟨fun _ _ _ _ _ hi => hs.insert ht hi, fun _ _ _ _ hd => hs.delete hd,
    fun _ _ _ hscan => hs.scan ht hscan⟩

namespace Sample

theorem registersOnce_start : start.RegistersOnce "t" "t" schema :=
  registersOnce_of_createTable createTable_start rfl rfl

/-- A new store whose pages have room for one integer, four pages in its cache. -/
def tight : Engine := { config := { pageSize := 9, pages := 4 } }

/-- The table in the file `t`. -/
def tightTable : TableFile := ⟨table.id, table.path, schema, 9, 0⟩

/-- The store after the table was created. -/
def tightOpened : Engine :=
  { tight with
    disk := { files := [(tightTable.path, .ofList [])], opened := 1 }
    catalog := { tables := [(tightTable.id, tightTable)], names := [("t", tightTable.id)] } }

/-- The store with a row on each of two pages. -/
def tightFilled : Engine :=
  ((tightOpened.call (.insert ⟨1⟩ tightTable.id ⟨[.int 5], none⟩)).1.call
    (.insert ⟨1⟩ tightTable.id ⟨[.int 6], none⟩)).1

/-- What happens when two rows are put and the second is deleted. -/
def tightHistory : List Event :=
  [.changed ⟨1⟩ first (some [.int 5]), .changed ⟨1⟩ ⟨tightTable.pageId 1, 0⟩ (some [.int 6]),
    .changed ⟨1⟩ ⟨tightTable.pageId 1, 0⟩ none]

theorem createTable_tight :
    tight.createTable "t" "t" schema = (tightOpened, .ok tightTable) :=
  createTable_t rfl (by decide) openFile_t rfl

theorem run_tightFilled :
    Run (fun e c => c.OnTables e) tight tightFilled (tightHistory.take 2) := by
  have honce := registersOnce_of_createTable createTable_tight rfl rfl
  have hopened : Run (fun e c => c.OnTables e) tight tightOpened [] :=
    .call (.createTable "t" "t" schema) .nil honce (by simp only [call, createTable_tight])
  have hfirst : Run _ tight (tightOpened.call (.insert ⟨1⟩ tightTable.id ⟨[.int 5], none⟩)).1
      (tightHistory.take 1) :=
    hopened.call (.insert ⟨1⟩ tightTable.id ⟨[.int 5], none⟩) trivial
      (Prod.ext rfl (by decide +kernel))
  exact hfirst.call (.insert ⟨1⟩ tightTable.id ⟨[.int 6], none⟩) trivial
    (Prod.ext (by rw [tightFilled]) (by decide +kernel))

end Sample

namespace Sample

/-- The rows of the two pages. -/
def tightRows : List Row :=
  [⟨[.int 5], some first⟩, ⟨[.int 6], some ⟨tightTable.pageId 1, 0⟩⟩]

end Sample

open Sample in
/-- A table of two full pages: one more row gets a page of its own, the second row can be deleted,
and a scan lists both. -/
theorem table_refines_full :
    Run (fun e c => c.OnTables e) tight tightFilled (tightHistory.take 2)
      ∧ (¬ ∃ rid, tightFilled.Vacant tightTable rid)
      ∧ (∃ e' stored pids,
        tightFilled.insert ⟨1⟩ tightTable.id ⟨[.int 7], none⟩ = (e', stored, .ok pids)
          ∧ Inserted tightFilled tightTable ⟨[.int 7], none⟩ e' stored
          ∧ tightTable.pageCount e'.disk = 3)
      ∧ (∃ e' pids,
        tightFilled.delete ⟨1⟩ ⟨[.int 6], some ⟨tightTable.pageId 1, 0⟩⟩ = (e', .ok pids)
          ∧ Deleted tightFilled ⟨[.int 6], some ⟨tightTable.pageId 1, 0⟩⟩ e')
      ∧ ∃ e', tightFilled.scan ⟨1⟩ tightTable = (e', tightRows, .ok ())
          ∧ Listing tightFilled tightTable tightRows := by
  have ht : tightFilled.catalog.table? tightTable.id = some tightTable := by decide +kernel
  obtain ⟨hinsert, hdelete, hscan⟩ := table_refines run_tightFilled ht
  have hcount : tightTable.pageCount tightFilled.disk = 2 := by decide +kernel
  -- the row comes to the third page, so there was no free place before
  have hput : (tightFilled.insert ⟨1⟩ tightTable.id ⟨[.int 7], none⟩).2.1.rid
        = some ⟨tightTable.pageId 2, 0⟩
      ∧ (tightFilled.insert ⟨1⟩ tightTable.id ⟨[.int 7], none⟩).2.2.toOption
        = some [tightTable.pageId 2] := by decide +kernel
  rcases hi : tightFilled.insert ⟨1⟩ tightTable.id ⟨[.int 7], none⟩ with ⟨e₁, stored, f | pids⟩
  · rw [hi] at hput
    cases hput.2
  rw [hi] at hput
  obtain ⟨rid, hstored, hfit, -⟩ := hinsert _ _ _ _ _ hi
  obtain rfl : rid = ⟨tightTable.pageId 2, 0⟩ := by
    rw [hstored] at hput
    exact Option.some.inj hput.1
  have hfull : ¬ ∃ rid, tightFilled.Vacant tightTable rid := fun hvacant => by
    have hlt := (hfit.reused hvacant).1.index_lt
    rw [hcount] at hlt
    exact absurd hlt (by decide)
  have hgrown := (hfit.appended hfull).2.2.2
  rw [hcount] at hgrown
  have hdeleted : (tightFilled.delete ⟨1⟩ ⟨[.int 6], some ⟨tightTable.pageId 1, 0⟩⟩).2.toOption
      = some [tightTable.pageId 1] := by decide +kernel
  rcases hd : tightFilled.delete ⟨1⟩ ⟨[.int 6], some ⟨tightTable.pageId 1, 0⟩⟩ with ⟨e₂, f | gone⟩
  · rw [hd] at hdeleted
    cases hdeleted
  have hlisted : (tightFilled.scan ⟨1⟩ tightTable).2.1 = tightRows
      ∧ (tightFilled.scan ⟨1⟩ tightTable).2.2.toOption = some () := by decide +kernel
  rcases hs : tightFilled.scan ⟨1⟩ tightTable with ⟨e₃, rows, f | done⟩
  · rw [hs] at hlisted
    cases hlisted.2
  rw [hs] at hlisted
  obtain rfl : rows = tightRows := hlisted.1
  exact ⟨run_tightFilled, hfull, ⟨e₁, stored, pids, rfl, hinsert _ _ _ _ _ hi, hgrown⟩,
    ⟨e₂, gone, rfl, hdelete _ _ _ _ hd⟩, ⟨e₃, rfl, (hscan _ _ _ hs).1⟩⟩

end RowStore
