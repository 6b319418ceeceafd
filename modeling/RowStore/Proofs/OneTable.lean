import RowStore.Proofs.ContentSteps

/-!
# One table of a store

While tables are replaced, taken out of the catalog and put back, the cache may have pages that
belong to no registered table, and pages with the schema of a table that is gone.  Of such a store
`Sound` says nothing.  But pages of one table do not touch those of another, so every table can be
looked at alone: it is shown rightly (`Engine.Shows`) if the store with nothing else in it
(`Engine.only`) is sound.

It stays so when pages are requested, when a page is changed, of this table or of another one, and
when an insert looks for room in this table or in another one (`Shows.fetches`, `Shows.changePage`,
`Explored.shows`).  And in a sound store every registered table is shown rightly (`Sound.shows`).
-/

namespace RowStore

/-! ## 1. A store with one table only -/

namespace Assoc

variable {κ α : Type} [DecidableEq κ]

theorem find?_filter_keys (keeps : κ → Bool) (key : κ) : ∀ pairs : List (κ × α),
    find? key (pairs.filter fun pair => keeps pair.1)
      = if keeps key then find? key pairs else none
  | [] => by simp
  | (k, v) :: rest => by
    have ih := find?_filter_keys keeps key rest
    rw [List.filter_cons, find?_cons]
    by_cases hk : k = key
    · subst hk
      cases hkeeps : keeps k <;> simp [hkeeps, find?_cons, ih]
    · cases keeps k <;> simp [hk, find?_cons, ih]

theorem filter_keys_set (keeps : κ → Bool) (key : κ) (value : α) : ∀ pairs : List (κ × α),
    (set key value pairs).filter (fun pair => keeps pair.1)
      = if keeps key then set key value (pairs.filter fun pair => keeps pair.1)
        else pairs.filter fun pair => keeps pair.1
  | [] => by
    rw [set, List.filter_cons]
    rfl
  | (k, v) :: rest => by
    have ih := filter_keys_set keeps key value rest
    by_cases hk : k = key
    · subst hk
      rw [set, if_pos rfl, List.filter_cons, List.filter_cons]
      cases keeps k <;> simp [set]
    · have hset : ∀ rest, set key value ((k, v) :: rest) = (k, v) :: set key value rest :=
        fun rest => by rw [set, if_neg hk]
      rw [hset, List.filter_cons, List.filter_cons, ih]
      cases keeps k <;> cases keeps key <;> simp [hset]

end Assoc

namespace Cache

variable {c : Cache} {id : TableId} {pid : PageId}

/-- The cache with the pages of one table only. -/
def only (c : Cache) (id : TableId) : Cache :=
  { c with
    frames := c.frames.filter fun entry => entry.1.table = id
    pids := c.pids.filter fun p => p.table = id }

theorem find?_only (c : Cache) (id : TableId) (pid : PageId) :
    (c.only id).find? pid = if pid.table = id then c.find? pid else none := by
  have h := Assoc.find?_filter_keys (fun p : PageId => decide (p.table = id)) pid c.frames
  simp only [decide_eq_true_eq] at h
  exact h

theorem insert_only_own (frame : Frame) (h : pid.table = id) :
    (c.insert pid frame).only id = (c.only id).insert pid frame := by
  have hset := Assoc.filter_keys_set (fun p : PageId => decide (p.table = id)) pid frame c.frames
  rw [if_pos (decide_eq_true h)] at hset
  have hfind := find?_only c id pid
  rw [if_pos h] at hfind
  unfold insert
  rw [hfind]
  simp only [only, hset]
  split
  · rfl
  · simp [List.filter_append, h]

theorem insert_only_other (frame : Frame) (h : pid.table ≠ id) :
    (c.insert pid frame).only id = c.only id := by
  have hset := Assoc.filter_keys_set (fun p : PageId => decide (p.table = id)) pid frame c.frames
  rw [if_neg (by simpa using h)] at hset
  simp only [only, insert, hset]
  split
  · rfl
  · simp [List.filter_append, h]

theorem Proper.only (h : c.Proper) (id : TableId) : (c.only id).Proper where
  listed := by
    simp only [Cache.only, h.listed, Assoc.keys, List.filter_map]
    rfl
  nodup := h.nodup.filter _
  keyed hf := by
    rw [find?_only] at hf
    split at hf
    · exact h.keyed hf
    · cases hf

end Cache

namespace Engine

variable {e e' : Engine} {tx : Tx} {pid : PageId} {frame : Frame} {page : Page} {rid : RecordId}
  {table other : TableFile} {disk : Disk}

/-- **The store with one table only**: no other is in the catalog, and no page of another is
cached. -/
def only (e : Engine) (table : TableFile) : Engine :=
  { e with
    catalog := { tables := [(table.id, table)] }
    cache := e.cache.only table.id }

@[simp] theorem disk_only (e : Engine) (table : TableFile) : (e.only table).disk = e.disk := rfl

theorem table?_only (e : Engine) (table : TableFile) (id : TableId) :
    (e.only table).catalog.table? id = if table.id = id then some table else none := rfl

theorem table?_only_eq_some_iff {id : TableId} :
    (e.only table).catalog.table? id = some other ↔ table.id = id ∧ table = other := by
  rw [table?_only]
  split <;> simp [*]

/-- A cached page of the store with one table is one of this table, and is cached. -/
theorem find?_only_eq_some_iff : (e.only table).cache.find? pid = some frame
    ↔ pid.table = table.id ∧ e.cache.find? pid = some frame := by
  rw [only, Cache.find?_only]
  split
  · rename_i hown
    exact ⟨fun hf => ⟨hown, hf⟩, And.right⟩
  · rename_i hother
    exact ⟨nofun, fun hf => absurd hf.1 hother⟩

section Registered

variable (ht : e.catalog.table? table.id = some table)

include ht

/-- Of this table, the same is stored. -/
theorem stored_only (hown : rid.page.table = table.id) :
    (e.only table).stored rid = e.stored rid := by
  refine stored_congr ?_
  unfold storedPage
  rw [hown, ht, table?_only, if_pos rfl]
  rfl

/-- Of this table, the same is seen. -/
theorem content_only (hown : rid.page.table = table.id) :
    (e.only table).content rid = e.content rid := by
  refine content_congr ?_ (stored_only ht hown)
  rw [only, Cache.find?_only, if_pos hown]

/-- Pages of this table are read as before, and no others are. -/
theorem readPage_only_eq_ok_iff : (e.only table).readPage pid = .ok page
    ↔ pid.table = table.id ∧ e.readPage pid = .ok page := by
  simp only [readPage_eq_ok_iff, table?_only]
  constructor
  · rintro ⟨found, hfound, hr⟩
    split at hfound
    · rename_i hown
      cases hfound
      exact ⟨hown.symm, _, hown ▸ ht, hr⟩
    · cases hfound
  · rintro ⟨hown, found, hfound, hr⟩
    rw [hown, ht] at hfound
    cases hfound
    exact ⟨table, if_pos hown.symm, hr⟩

theorem Recached.only (h : Recached e e') (hp : e.cache.Proper) :
    Recached (e.only table) (e'.only table) where
  config_eq := h.config_eq
  catalog_eq := rfl
  disk_eq := h.disk_eq
  proper _ := (h.proper hp).only table.id
  find? hf := by
    obtain ⟨hown, hf⟩ := find?_only_eq_some_iff.mp hf
    rcases h.find? hf with hold | hread
    · exact Or.inl (find?_only_eq_some_iff.mpr ⟨hown, hold⟩)
    · exact Or.inr ((readPage_only_eq_ok_iff ht).mpr ⟨hown, hread⟩)

end Registered

/-! ## 2. Tables that are shown rightly -/

/-- **The store shows the table rightly**: it is registered, and by itself it is sound. -/
structure Shows (e : Engine) (table : TableFile) : Prop where
  registered : e.catalog.table? table.id = some table
  proper : e.cache.Proper
  sound : Sound (e.only table)

/-- **The table is shown rightly, with the rows that it had.** -/
structure SameTable (table : TableFile) (e e' : Engine) : Prop where
  shows : e'.Shows table
  content_eq : ∀ rid, rid.page.table = table.id → e'.content rid = e.content rid

theorem SameTable.trans {e₁ : Engine} (h : SameTable table e e₁) (h' : SameTable table e₁ e') :
    SameTable table e e' :=
  ⟨h'.shows, fun rid hown => (h'.content_eq rid hown).trans (h.content_eq rid hown)⟩

theorem Shows.of_pages (ht : e.catalog.table? table.id = some table) (hp : e.cache.Proper)
    (hid : e.config.idOf table.path = table.id) (hroomy : table.Roomy)
    (hlodged : ∀ {pid : PageId} {frame : Frame}, e.cache.find? pid = some frame →
      pid.table = table.id → table.Shapes frame.page
        ∧ pid.index.toNat < table.pageCount e.disk ∧ pid.index.toNat + 1 < UInt32.size)
    (hclean : ∀ {pid : PageId} {frame : Frame}, e.cache.find? pid = some frame →
      pid.table = table.id → frame.page.dirty = none →
        ∀ slot, frame.page.cells slot = e.stored ⟨pid, slot⟩) : e.Shows table := by
  refine ⟨ht, hp, fun hfound => ?_, fun hfound => ?_, hp.only table.id, fun hf => ?_,
    fun {pid frame} hf hd slot => ?_⟩
  · obtain ⟨rfl, rfl⟩ := table?_only_eq_some_iff.mp hfound
    exact ⟨rfl, hroomy⟩
  · obtain ⟨rfl, rfl⟩ := table?_only_eq_some_iff.mp hfound
    exact hid
  · obtain ⟨hown, hf⟩ := find?_only_eq_some_iff.mp hf
    exact ⟨table, if_pos hown.symm, hlodged hf hown⟩
  · obtain ⟨hown, hf⟩ := find?_only_eq_some_iff.mp hf
    rw [@stored_only e ⟨pid, slot⟩ table ht hown]
    exact hclean hf hown hd slot

/-- **A sound store shows every registered table rightly.** -/
theorem Sound.shows (hs : Sound e) (ht : e.catalog.table? table.id = some table) :
    e.Shows table := by
  refine .of_pages ht hs.proper (hs.idOf ht) (hs.tables ht).2 (fun hf hown => ?_)
    fun hf _ hd => hs.clean hf hd
  obtain ⟨found, hfound, hlodged⟩ := hs.lodged hf
  obtain rfl : table = found := Option.some.inj (ht.symm.trans (hown ▸ hfound))
  exact hlodged

namespace Shows

theorem roomy (hs : e.Shows table) : table.Roomy := (hs.sound.tables (if_pos rfl)).2

/-- Two tables that are shown rightly are in different files. -/
theorem path_ne (hs : e.Shows table) (ho : e.Shows other) (hne : other.id ≠ table.id) :
    other.path ≠ table.path := by
  intro hp
  have hid : e.config.idOf table.path = table.id := hs.sound.idOf (if_pos rfl)
  have hid' : e.config.idOf other.path = other.id := ho.sound.idOf (if_pos rfl)
  exact hne (hid'.symm.trans (hp ▸ hid))

/-- It is still shown rightly where pages were only moved in and out. -/
theorem recached (hs : e.Shows table) (h : Recached e e') : e'.Shows table :=
  ⟨h.catalog_eq ▸ hs.registered, h.proper hs.proper,
    (h.only hs.registered hs.proper).sound hs.sound⟩

/-- It has the rows that it had if it has them by itself. -/
theorem same (hs : e.Shows table) (hs' : e'.Shows table)
    (h : ∀ rid, rid.page.table = table.id →
      (e'.only table).content rid = (e.only table).content rid) : SameTable table e e' := by
  refine ⟨hs', fun rid hown => ?_⟩
  rw [← content_only hs'.registered hown, ← content_only hs.registered hown]
  exact h rid hown

/-- **Requests change nothing of it.** -/
theorem fetches (hs : e.Shows table) (h : Fetches tx e e') : SameTable table e e' := by
  induction h with
  | refl => exact ⟨hs, fun _ _ => rfl⟩
  | tail _ hstep ih =>
    have hs₁ := ih.shows
    have hr := hstep.recached hs₁.proper
    refine ih.trans (hs₁.same (hs₁.recached hr) fun rid hown => ?_)
    refine (hr.only hs₁.registered hs₁.proper).content hs₁.sound fun frame hf hd => ?_
    obtain ⟨-, hf⟩ := find?_only_eq_some_iff.mp hf
    exact find?_only_eq_some_iff.mpr ⟨hown, hstep.find?_dirty hs₁.proper hf hd⟩

/-- **A page that was looked at on the way** is one of the table, and shows its content. -/
theorem visited (hs : e.Shows table) (hown : pid.table = table.id)
    (h : Visited tx e e' pid page) : (e.only table).Lodges pid page ∧ page.pid = pid
      ∧ ∀ slot, page.cells slot = (e.only table).content ⟨pid, slot⟩ := by
  obtain ⟨e₁, frame, hbefore, -, hf, rfl⟩ := h
  obtain ⟨hs₁, hsame⟩ := hs.fetches hbefore
  have hf' := find?_only_eq_some_iff.mpr ⟨hown, hf⟩
  refine ⟨?_, hs₁.proper.keyed hf, fun slot => ?_⟩
  · have hlodges := hs₁.sound.lodged hf'
    unfold Lodges at hlodges ⊢
    rw [table?_only] at hlodges ⊢
    rwa [show (e₁.only table).disk = (e.only table).disk from hbefore.same.2] at hlodges
  · rw [@content_only e ⟨pid, slot⟩ table hs.registered hown, ← hsame ⟨pid, slot⟩ hown,
      content_of_cached hf]

theorem lt_of_seenFull {n : Nat} (hs : e.Shows table)
    (h : ∀ j, j < n → SeenFull tx e e' (table.pageId j)) : n < UInt32.size :=
  @lt_of_lodged (e.only table) table n fun j hj => by
    obtain ⟨page, hv, -⟩ := h j hj
    exact ⟨page, (hs.visited rfl hv).1⟩

/-- A change of other files changes nothing of it. -/
theorem elsewhere (hs : e.Shows table)
    (h : disk.content table.path = e.disk.content table.path) :
    SameTable table e { e with disk := disk } := by
  obtain ⟨hsound, hsame⟩ := @Sound.elsewhere (e.only table) disk hs.sound fun hfound => by
    obtain ⟨rfl, rfl⟩ := table?_only_eq_some_iff.mp hfound
    exact h
  exact hs.same ⟨hs.registered, hs.proper, hsound⟩ fun rid _ => hsame.content_eq rid

/-- An empty page behind its last one changes nothing of it. -/
theorem append (hs : e.Shows table) (ha : table.Appends e.disk disk) :
    SameTable table e { e with disk := disk } := by
  obtain ⟨hsound, hsame⟩ :=
    @Sound.append (e.only table) table table.id disk hs.sound (if_pos rfl) ha
  exact hs.same ⟨hs.registered, hs.proper, hsound⟩ fun rid _ => hsame.content_eq rid

/-- **A change of a page sets one entry**, if the page is one of this table, and none if it is
not. -/
theorem changePage (hs : e.Shows table) (tx : Tx) {values : Option (List Value)}
    (hf : e.cache.find? pid = some frame) (hc : frame.page.Changed page rid values) :
    (e.changePage tx pid frame page).Shows table
      ∧ ∀ r, r.page.table = table.id → (e.changePage tx pid frame page).content r = if r = rid
        then values.map fun vs => Row.cutValues vs table.schema.columns else e.content r := by
  obtain ⟨hrid, hsame⟩ := hc.same
  have hkeyed := hs.proper.keyed hf
  have hproper : (e.changePage tx pid frame page).cache.Proper :=
    hs.proper.insert (hsame.pid_eq.trans hkeyed)
  by_cases hown : pid.table = table.id
  · have honly : (e.changePage tx pid frame page).only table
        = (e.only table).changePage tx pid frame page := by
      simp only [only, Engine.changePage, Cache.insert_only_own _ hown]
    obtain ⟨-, hsound, -, found, hfound, hcontent⟩ :=
      hs.sound.changePage tx (find?_only_eq_some_iff.mpr ⟨hown, hf⟩) hc
    rw [table?_only, if_pos hown.symm] at hfound
    cases hfound
    have hs' : (e.changePage tx pid frame page).Shows table :=
      ⟨hs.registered, hproper, honly ▸ hsound⟩
    refine ⟨hs', fun r hr => ?_⟩
    rw [← content_only hs'.registered hr, honly, hcontent, content_only hs.registered hr]
  · have honly : (e.changePage tx pid frame page).only table = e.only table := by
      simp only [only, Engine.changePage, Cache.insert_only_other _ hown]
    have hs' : (e.changePage tx pid frame page).Shows table :=
      ⟨hs.registered, hproper, honly ▸ hs.sound⟩
    refine ⟨hs', fun r hr => ?_⟩
    have hne : r ≠ rid := by
      rintro rfl
      exact hown ((congrArg PageId.table (hrid.trans hkeyed)).symm.trans hr)
    rw [if_neg hne, ← content_only hs'.registered hr, honly, content_only hs.registered hr]

end Shows

/-- **What a search for room in a table keeps**: all that requests keep, that an empty page behind
the last one of the table keeps, and that changes nothing in any file. -/
theorem Explored.keeps {P : Engine → Prop} (h : Explored tx table.id e e') (hs : e.Shows table)
    (hfetch : ∀ {e e' : Engine}, Fetches tx e e' → P e → P e')
    (happend : ∀ {e : Engine} {disk : Disk}, e.Shows table → table.Appends e.disk disk → P e →
      P { e with disk := disk })
    (hfiles : ∀ {e : Engine} {disk : Disk}, disk.files = e.disk.files → P e →
      P { e with disk := disk }) (hp : P e) : P e' := by
  cases h with
  | within hf => exact hfetch hf hp
  | @beyond found e₁ _ disk r ht hf hfull ha hf' =>
    obtain rfl : table = found := Option.some.inj (hs.registered.symm.trans ht)
    refine hfetch hf' ?_
    have hs₁ := (hs.fetches hf).1
    cases r with
    | ok pid =>
      have hc : table.pageCount e₁.disk < UInt32.size := hf.same.2 ▸ hs.lt_of_seenFull hfull
      exact happend hs₁ (TableFile.appends_of_appendPage hc ha).1 (hfetch hf hp)
    | error f =>
      rcases TableFile.appendPage_cases ha with ⟨hr, -⟩ | ⟨rfl | rfl, -⟩
      · cases hr
      · exact hfiles rfl (hfetch hf hp)
      · exact hfiles rfl (hfetch hf hp)

/-- **A search for room changes no row**, of the table or of another one. -/
theorem Explored.shows (h : Explored tx table.id e e') (hs : e.Shows table) (ho : e.Shows other) :
    SameTable other e e' := by
  refine h.keeps (P := SameTable other e) hs ?fetch ?append ?files ⟨ho, fun _ _ => rfl⟩
  case fetch =>
    intro d d' hf hd
    exact hd.trans (hd.shows.fetches hf)
  case append =>
    intro d disk hsd ha hd
    by_cases hid : other.id = table.id
    · obtain rfl : other = table :=
        Option.some.inj ((hid ▸ hd.shows.registered).symm.trans hsd.registered)
      exact hd.trans (hd.shows.append ha)
    · exact hd.trans (hd.shows.elsewhere (ha.content_of_ne (hsd.path_ne hd.shows hid)))
  case files =>
    intro d disk hfiles hd
    exact hd.trans (hd.shows.elsewhere (content_of_files hfiles other.path))

end Engine

end RowStore
