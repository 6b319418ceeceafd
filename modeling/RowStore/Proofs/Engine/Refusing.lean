import RowStore.Proofs.Lock.Granting
import RowStore.Proofs.PageSchemas
import RowStore.Proofs.Sanity

/-!
# Why requests and changes fail

A request for a page of a registered table fails because the lock is not free, because the page is
behind the table's end, or because the cache has no room for it (`Engine.Blocks`, with what can be
seen of it in the state that the request leaves).  An insert stops so too, or because the file
cannot be made longer (`Engine.InsertStops`); a delete, because the row stands nowhere.  That is all
(`Failure.OfRequest`, `Failure.OfInsert`, `Failure.OfDelete`), provided that tables have room for
rows and that the row to be put matches the table; a page that refuses a row of its table does not
have the table's schema.  Once the row is on its page, or off it, nothing fails any more.

Where an operation stops in the middle, the store was not sane before it began
(`Engine.Refuses`).
-/

namespace RowStore

/-! ## 1. Failures -/

namespace Failure

/-- How an operation stops in the middle that meets something spoiled, or a position that is no
number any more. -/
inductive OfSpoiled : Failure → Prop
  | spoiled : OfSpoiled .spoiled
  | oversize : OfSpoiled .oversize

/-- How a request for a page of a registered table fails. -/
inductive OfRequest : Failure → Prop
  | lockTimeout (tx : Tx) (mode : LockMode) (page : PageId) : OfRequest (.lockTimeout tx mode page)
  | pageOutOfRange (page : PageId) (pages : Nat) : OfRequest (.pageOutOfRange page pages)
  | cacheEmpty : OfRequest .cacheEmpty
  | cacheDirty (pages : Nat) : OfRequest (.cacheDirty pages)

/-- How an insert of a row that matches the table fails. -/
inductive OfInsert : Failure → Prop
  | request {f : Failure} : f.OfRequest → OfInsert f
  | file (text : String) : OfInsert (.file text)
  | newPageFull (page : PageId) (row : Row) : OfInsert (.newPageFull page row)

/-- How a delete fails. -/
inductive OfDelete : Failure → Prop
  | request {f : Failure} : f.OfRequest → OfDelete f
  | noRecordId (row : Row) : OfDelete (.noRecordId row)
  | unknownTable (table : TableId) : OfDelete (.unknownTable table)
  | slotFree (rid : RecordId) : OfDelete (.slotFree rid)

variable {f : Failure}

theorem OfRequest.defined (h : f.OfRequest) : f.isUndefined = false := by
  cases h <;> rfl

theorem OfInsert.defined (h : f.OfInsert) : f.isUndefined = false := by
  cases h with
  | request h => exact h.defined
  | _ => rfl

theorem OfDelete.defined (h : f.OfDelete) : f.isUndefined = false := by
  cases h with
  | request h => exact h.defined
  | _ => rfl

end Failure

/-- A page with a free slot has a first one. -/
theorem Page.firstFree?_ne_none {p : Page} (h : p.freeCount ≠ 0) : p.firstFree? ≠ none := by
  intro hn
  rw [Page.firstFree?, List.findIdx?_eq_none_iff] at hn
  exact h (List.countP_eq_zero.mpr fun used hm => by simp [hn used hm])

namespace Engine

variable {e e₀ e₁ e' : Engine} {tx : Tx} {access : Access} {pid : PageId} {frame : Frame}
  {table : TableFile} {id : TableId} {row : Row} {f : Failure} {events : List Event}

/-- **A failure is one of these**, or the operation stopped in the middle, in a store that was not
sane. -/
def Refuses (e : Engine) (P : Failure → Prop) (f : Failure) : Prop :=
  P f ∨ f.OfSpoiled ∧ ¬ Sane e

theorem Refuses.mono {P Q : Failure → Prop} (h : e.Refuses P f) (hle : P f → Q f) :
    e.Refuses Q f :=
  h.imp_left hle

/-! ## 2. Stores that can be worked with -/

/-- **A store that plans can work with**: it is in order, its cached pages are well formed, and its
tables are registered under their ids and have room for rows. -/
structure Furnished (e : Engine) : Prop where
  orderly : Orderly e
  formed : Formed e
  keyed : ∀ ⦃id : TableId⦄ ⦃table : TableFile⦄, e.catalog.table? id = some table → table.id = id
  roomy : Roomy e

theorem furnished_new (config : Config) (disk : Disk) :
    Furnished { config := config, disk := disk } where
  orderly := orderly_new config disk
  formed _ _ hf := by cases hf
  keyed _ _ ht := by cases ht
  roomy _ _ ht := by cases ht

/-- What leaves the catalog as it is leaves a store to work with. -/
theorem Furnished.inherits (hf : Furnished e) (h : Inherits e e') (ho : Orderly e') :
    Furnished e' :=
  ⟨ho, h.formed hf.formed, fun _ _ ht => hf.keyed (h.catalog_eq ▸ ht),
    hf.roomy.congr h.catalog_eq⟩

/-- **What is done to a store** from one moment on by steps of calls, none of which spoils
anything. -/
structure Onward (e₀ e : Engine) : Prop where
  base : Furnished e₀
  moves : Moves e₀ e
  sane : Sane e₀ → Sane e

namespace Onward

theorem refl (h : Furnished e) : Onward e e := ⟨h, .refl, id⟩

theorem orderly (h : Onward e₀ e) : Orderly e := h.moves.orderly h.base.orderly

theorem inherits (h : Onward e₀ e) : Inherits e₀ e := h.moves.inherits h.base.orderly

theorem furnished (h : Onward e₀ e) : Furnished e := h.base.inherits h.inherits h.orderly

theorem table? (h : Onward e₀ e) (ht : e₀.catalog.table? id = some table) :
    e.catalog.table? id = some table :=
  h.inherits.catalog_eq ▸ ht

/-- The pages of a table keep its schema. -/
theorem carries (h : Onward e₀ e) (ht : e₀.catalog.table? id = some table)
    (hc : e₀.Carries id table.schema) : e.Carries id table.schema :=
  h.inherits.carries (fun found hfound => by rw [ht] at hfound; cases hfound; rfl) hc

theorem trans (h : Onward e₀ e₁) (h' : Onward e₁ e) : Onward e₀ e :=
  ⟨h.base, h.moves.trans h'.moves, h'.sane ∘ h.sane⟩

theorem worked (h : Onward e₀ e) (hw : Worked tx id e e' events) : Onward e₀ e' :=
  h.trans ⟨h.furnished, hw.moves h.orderly, hw.sane h.orderly h.furnished.roomy⟩

theorem explored (h : Onward e₀ e) (hx : Explored tx id e e') : Onward e₀ e' :=
  h.worked (.explored hx)

theorem fetches (h : Onward e₀ e) (hf : Fetches tx e e') : Onward e₀ e' :=
  h.trans ⟨h.furnished, hf.moves, hf.sane h.orderly h.furnished.roomy⟩

/-- What was not sane later was not sane before. -/
theorem refuses {P : Failure → Prop} (h : Onward e₀ e) (hr : e.Refuses P f) : e₀.Refuses P f :=
  hr.imp_right fun ⟨hf, hs⟩ => ⟨hf, fun hs₀ => hs (h.sane hs₀)⟩

end Onward

/-! ## 3. Requests -/

/-- A table that cannot use its file was spoiled. -/
theorem countPages_refuses {P : Failure → Prop} (h : table.countPages e.disk = .error f) :
    e.Refuses P f := by
  unfold TableFile.countPages at h
  split at h
  · cases h
  · rename_i hu
    cases h
    exact Or.inr ⟨.spoiled, fun hs => hu (isUsable_of_none hs.disk.handles _)⟩

/-- **The cache is full**, and every page in it has changes. -/
structure Crowded (e : Engine) : Prop where
  full : e.config.pages ≤ e.cache.size
  changed : ∀ ⦃pid : PageId⦄ ⦃frame : Frame⦄, e.cache.find? pid = some frame →
    frame.page.dirty ≠ none

/-- **Why a page of a table is not handed out**, in the state that the request leaves. -/
inductive Blocks (e : Engine) (tx : Tx) (access : Access) (table : TableFile) (pid : PageId) :
    Failure → Prop
  /-- Somebody else's lock is in the way. -/
  | locked : ¬ e.locks.Free tx access.mode pid →
      Blocks e tx access table pid (.lockTimeout tx access.mode pid)
  | behind (pages : Nat) : ¬ pid.index < UInt32.ofNat (table.pageCount e.disk) →
      Blocks e tx access table pid (.pageOutOfRange pid pages)
  | noneCached : e.Crowded → Blocks e tx access table pid .cacheEmpty
  | allChanged (pages : Nat) : e.Crowded → Blocks e tx access table pid (.cacheDirty pages)

theorem Blocks.ofRequest (h : e.Blocks tx access table pid f) : f.OfRequest := by
  cases h with
  | locked _ => exact .lockTimeout ..
  | behind pages _ => exact .pageOutOfRange ..
  | noneCached _ => exact .cacheEmpty
  | allChanged pages _ => exact .cacheDirty pages

/-- **A page of a registered table cannot be read** only if it is behind the end. -/
theorem readPage_refuses (hf : Furnished e) (ht : e.catalog.table? pid.table = some table)
    (h : e.readPage pid = .error f) : e.Refuses (e.Blocks tx access table pid) f := by
  have hown : table.own pid = .ok () := if_pos (hf.keyed ht).symm
  simp only [readPage, Catalog.lookup, ht, TableFile.readPage, hown] at h
  split at h
  · rename_i g hcount
    cases h
    exact countPages_refuses hcount
  · rename_i count hcount
    obtain rfl := TableFile.eq_of_countPages hcount
    split at h
    · rename_i hlt
      have hlt := UInt32.lt_iff_toNat_lt.mp hlt
      rw [UInt32.toNat_ofNat'] at hlt
      have hi := Nat.lt_of_lt_of_le hlt (Nat.mod_le _ _)
      obtain ⟨page, hp, -⟩ := @Page.ofBytes_of_pos pid
        (e.disk.read table.path (pid.offset table.pageSize) table.pageSize) table.schema
        (by rw [TableFile.length_read hi]; exact hf.roomy ht)
      rw [hp] at h
      cases h
    · rename_i hlt
      cases h
      exact Or.inl (.behind _ hlt)

theorem makeRoom_refuses (hp : e.cache.Proper) (h : e.makeRoom = .error f) :
    e.Refuses (e.Blocks tx access table pid) f := by
  unfold makeRoom Cache.evict at h
  split at h
  · rename_i hfull
    split at h
    · rename_i hblocked
      cases h
      refine Or.inr ⟨.spoiled, fun hs => ?_⟩
      have hfree : e.cache.isBlocked = false := Cache.isBlocked_eq_false hs.cache.frames
      exact Bool.noConfusion (hblocked.symm.trans hfree)
    · split at h
      · cases h
      · rename_i hvictim
        have hcrowded : e.Crowded := ⟨hfull, hp.victim?_eq_none_iff.mp hvictim⟩
        split at h <;> cases h
        · exact Or.inl (.noneCached hcrowded)
        · exact Or.inl (.allChanged _ hcrowded)
  · cases h

/-- **A request for a page of a registered table** is blocked in four ways. -/
theorem fetch_blocks (hf : Furnished e) (ht : e.catalog.table? pid.table = some table)
    (h : e.fetch tx access pid = (e', .error f)) : e.Refuses (e'.Blocks tx access table pid) f := by
  rcases fetch_cases h with ⟨rfl, hr, hdenied⟩ | ⟨locks, ha, hin⟩
  · cases hr
    refine Or.inl (.locked fun hfree => ?_)
    have hgranted := hf.orderly.consistent.granted_iff.mpr hfree
    exact Bool.noConfusion (hdenied.symm.trans hgranted)
  · have hon : Onward e { e with locks := locks } :=
      (Onward.refl hf).fetches (.single (.lock access.mode pid ha))
    rcases inCache_cases hin with ⟨hspoiled, -, hr⟩ | ⟨-, _, -, hr⟩ | ⟨-, g, e₁, hb, hr, he⟩
    · cases hr
      refine Or.inr ⟨.spoiled, fun hs => ?_⟩
      exact Bool.noConfusion (hspoiled.symm.trans hs.cache.usable)
    · cases hr
    · cases hr
      rcases bringIn_cases hb with ⟨-, _, -, hr⟩ | ⟨rfl, -, g, hr, hwhy⟩ | ⟨-, _, _, -, -, -, hr⟩
      · cases hr
      · cases hr
        have hblocks : e.Refuses (Blocks { e with locks := locks } tx access table pid) f :=
          hon.refuses (hwhy.elim (fun hread => readPage_refuses hon.furnished ht hread) fun hroom =>
            makeRoom_refuses hon.orderly.proper hroom)
        rcases he with ⟨-, rfl⟩ | ⟨hu, -⟩
        · exact hblocks
        · refine hblocks.imp_left fun hblocks => ?_
          exact Bool.noConfusion (hu.symm.trans hblocks.ofRequest.defined)
      · cases hr

/-- **A request for a page of a registered table** is refused in four ways. -/
theorem fetch_refuses (hf : Furnished e) (ht : e.catalog.table? pid.table = some table)
    (h : e.fetch tx access pid = (e', .error f)) : e.Refuses Failure.OfRequest f :=
  (fetch_blocks hf ht h).mono Blocks.ofRequest

/-- A cached page that cannot be used was spoiled. -/
theorem use_refuses {P : Failure → Prop} (hcached : e.cache.find? pid = some frame)
    (h : frame.use = .error f) : e.Refuses P f := by
  unfold Frame.use at h
  split at h
  · rename_i hspoiled
    cases h
    refine Or.inr ⟨.spoiled, fun hs => ?_⟩
    exact Bool.noConfusion (hspoiled.symm.trans (hs.cache.frames hcached))
  · cases h

/-! ## 4. Inserting -/

/-- **Why an insert stopped**, in the state that it left. -/
inductive InsertStops (e : Engine) (tx : Tx) (table : TableFile) (e' : Engine) : Failure → Prop
  | blocked {i : Nat} {f : Failure} : i < table.pageCount e'.disk →
      e'.Blocks tx .write table (table.pageId i) f → InsertStops e tx table e' f
  /-- The new page would not end at a position. -/
  | tooLong (text : String) :
      Disk.positions ≤ table.pageCount e'.disk * table.pageSize + table.pageSize →
      InsertStops e tx table e' (.file text)
  /-- The new page was cached with no free slot. -/
  | newPageFull {frame : Frame} (row : Row) : table.Appends e.disk e'.disk →
      e'.cache.find? (table.pageId (table.pageCount e.disk)) = some frame →
      frame.page.freeCount = 0 →
      InsertStops e tx table e' (.newPageFull (table.pageId (table.pageCount e.disk)) row)
  /-- A page of the table has another schema. -/
  | misfit (row : Row) (schema : Schema) : ¬ e.Carries table.id table.schema →
      InsertStops e tx table e' (.misfit row schema)

/-- A page that had another schema later had it before. -/
theorem Onward.misfits (h : Onward e₀ e) (ht : e₀.catalog.table? table.id = some table)
    (hc : ¬ e.Carries table.id table.schema) : ¬ e₀.Carries table.id table.schema :=
  fun hc₀ => hc (h.carries ht hc₀)

/-- **A page of the table refuses a row that matches the table** only if it has another schema. -/
theorem placeOn_refuses (hcached : e.cache.find? pid = some frame) (hid : pid.table = table.id)
    (hrow : row.fits table.schema) (h : e.placeOn pid frame row = (e', .error f)) :
    e.Refuses (fun f => ∃ row schema, f = .misfit row schema
      ∧ ¬ e.Carries table.id table.schema) f := by
  unfold placeOn at h
  split at h
  · rename_i g hu
    cases h
    exact use_refuses hcached hu
  · rename_i page hu
    obtain rfl := Frame.page_of_use hu
    split at h
    · cases h
    · rename_i hfree
      split at h
      · rename_i g hi
        cases h
        unfold Page.insert at hi
        split at hi
        · split at hi
          · rename_i hn
            exact absurd hn (Page.firstFree?_ne_none hfree)
          · cases hi
        · rename_i hmisfit
          cases hi
          exact Or.inl ⟨_, _, rfl, fun hc => hmisfit (hc hcached hid ▸ hrow)⟩
      · cases h

/-- The page that was asked for stops the insert, since it is not handed out or refuses the row. -/
theorem Onward.insertStops (hon : Onward e₀ e) (ht : e₀.catalog.table? table.id = some table)
    (hr : e.Refuses (fun f => ∃ row schema, f = .misfit row schema
      ∧ ¬ e.Carries table.id table.schema) f) : e₀.Refuses (e₀.InsertStops tx table e') f := by
  refine (hon.refuses hr).mono ?_
  rintro ⟨row, schema, rfl, hc⟩
  exact .misfit row schema (hon.misfits ht hc)

/-- Looking for room on some pages. -/
theorem placeFrom_refuses (ht : e₀.catalog.table? table.id = some table)
    (hrow : row.fits table.schema) : ∀ {n i : Nat} {e e' : Engine}, Onward e₀ e →
      i + n ≤ table.pageCount e.disk →
      placeFrom tx table row n i e = (e', .error f) → e₀.Refuses (e₀.InsertStops tx table e') f
  | 0, i, e, e', _, _, h => by cases h
  | n + 1, i, e, e', hon, hle, h => by
    unfold placeFrom at h
    split at h
    · rename_i e₁ g hf
      cases h
      have hblocks := fetch_blocks hon.furnished (hon.table? ht) hf
      rw [← (fetch_fetches hf).same.2] at hle
      exact (hon.refuses hblocks).mono (.blocked (by omega))
    · rename_i e₁ frame hf
      have hon₁ := hon.fetches (fetch_fetches hf)
      split at h
      · rename_i e₂ g hp
        cases h
        exact hon₁.insertStops ht (placeOn_refuses (fetch_ok hf).cached rfl hrow hp)
      · cases h
      · rename_i e₂ hp
        rcases placeOn_cases hp with ⟨-, g, hr⟩ | ⟨rfl, -, -⟩ | ⟨_, _, -, -, hr⟩
        · cases hr
        · rw [← (fetch_fetches hf).same.2] at hle
          exact placeFrom_refuses ht hrow hon₁ (by omega) h
        · cases hr

/-- The place behind the last page is found. -/
theorem seekPage_refuses {P : Failure → Prop} {disk : Disk}
    (h : table.seekPage e.disk (table.pageId (table.pageCount e.disk)) = (disk, .error f)) :
    e.Refuses P f := by
  unfold TableFile.seekPage PageId.offset? at h
  split at h
  · split at h
    · rename_i hoffset
      cases h
      refine Or.inr ⟨.oversize, fun hs => ?_⟩
      -- an index of more than 32 bits wraps, which takes the place to the front of the file
      have hle : (table.pageId (table.pageCount e.disk)).offset table.pageSize
          ≤ e.disk.length table.path := by
        rw [PageId.offset, TableFile.pageId, UInt32.toNat_ofNat']
        exact Nat.le_trans (Nat.mul_le_mul_right _ (Nat.mod_le _ _)) (Nat.div_mul_le_self _ _)
      rw [if_pos (isSize_of_lt (Nat.lt_of_le_of_lt hle (hs.disk.short _)))] at hoffset
      cases hoffset
    · cases h
  · rename_i hu
    cases h
    exact Or.inr ⟨.spoiled, fun hs => hu (isUsable_of_none hs.disk.handles _)⟩

/-- **A file cannot be made longer** if the new page would not end at a position. -/
theorem appendPage_refuses {disk : Disk} (hc : table.pageCount e.disk < UInt32.size)
    (h : table.appendPage e.disk = (disk, .error f)) :
    e.Refuses (fun f => ∃ text, f = .file text ∧ disk = e.disk
      ∧ Disk.positions ≤ table.pageCount e.disk * table.pageSize + table.pageSize) f := by
  unfold TableFile.appendPage at h
  simp only at h
  split at h
  · rename_i d g hseek
    cases h
    exact seekPage_refuses hseek
  · rename_i d offset hseek
    rcases TableFile.seekPage_cases hseek with ⟨rfl, hoffset, -⟩ | ⟨-, _, hr, -⟩
    · cases hoffset
      split at h
      · rename_i d g hw
        cases h
        unfold TableFile.writeBytes Disk.write at hw
        split at hw
        · rename_i fault hfault
          cases hw
          split at hfault
          · cases hfault
          · rename_i hlt
            rw [PageId.offset, table.index_pageId hc, Bytes.length_zeros] at hlt
            exact Or.inl ⟨_, rfl, rfl, Nat.le_of_not_lt hlt⟩
        · cases hw
      · cases h
    · cases hr

/-- Putting the row on a new page. -/
theorem placeBehind_refuses (hon : Onward e₀ e) (ht : e₀.catalog.table? table.id = some table)
    (hrow : row.fits table.schema) (hdisk : e.disk = e₀.disk)
    (hc : table.pageCount e₀.disk < UInt32.size)
    (hfull : ∀ {disk : Disk} {r : Except Failure PageId}, table.appendPage e.disk = (disk, r) →
      Onward e₀ { e with disk := disk })
    (h : e.placeBehind tx table row = (e', .error f)) :
    e₀.Refuses (e₀.InsertStops tx table e') f := by
  rw [← hdisk] at hc
  unfold placeBehind at h
  split at h
  · rename_i disk g ha
    cases h
    refine (hon.refuses (appendPage_refuses hc ha)).mono ?_
    rintro ⟨text, rfl, rfl, hle⟩
    exact .tooLong text hle
  · rename_i disk pid ha
    have hon₁ := hfull ha
    obtain ⟨happ, rfl⟩ := TableFile.appends_of_appendPage hc ha
    have hcount := happ.pageCount_eq (hon.furnished.roomy (hon.table? ht))
    rw [hdisk] at happ hcount h
    split at h
    · rename_i e₁ g hf
      cases h
      have hblocks := fetch_blocks hon₁.furnished (hon₁.table? ht) hf
      refine (hon₁.refuses hblocks).mono (.blocked ?_)
      rw [(fetch_fetches hf).same.2, hcount]
      exact Nat.lt_succ_self _
    · rename_i e₁ frame hf
      have hon₂ := hon₁.fetches (fetch_fetches hf)
      split at h
      · rename_i e₂ g hp
        cases h
        exact hon₂.insertStops ht (placeOn_refuses (fetch_ok hf).cached rfl hrow hp)
      · cases h
      · rename_i e₂ hp
        cases h
        rcases placeOn_cases hp with ⟨-, g, hr⟩ | ⟨rfl, -, hz⟩ | ⟨_, _, -, -, hr⟩
        · cases hr
        · refine Or.inl (.newPageFull row ?_ (fetch_ok hf).cached hz)
          rw [(fetch_fetches hf).same.2]
          exact happ
        · cases hr

/-- Inserting a row into one table that it matches. -/
theorem insertInto_stops (hf : Furnished e) (ht : e.catalog.table? table.id = some table)
    (hrow : row.fits table.schema) (h : e.insertInto tx table row = (e', .error f)) :
    e.Refuses (e.InsertStops tx table e') f := by
  have hon := Onward.refl hf
  unfold insertInto at h
  rw [if_pos hrow] at h
  split at h
  · rename_i g hcount
    cases h
    exact countPages_refuses hcount
  · rename_i count hcount
    obtain rfl := TableFile.eq_of_countPages hcount
    split at h
    · rename_i e₁ g hp
      cases h
      exact placeFrom_refuses ht hrow hon (Nat.le_of_eq (Nat.zero_add _)) hp
    · cases h
    · rename_i e₁ hp
      rcases placeFrom_cases hp with ⟨-, g, hr⟩ | ⟨hfe, -, hfull⟩ | ⟨_, _, _, _, -, -, -, -, hr⟩
      · cases hr
      · have hseen : ∀ j, j < table.pageCount e.disk → SeenFull tx e e₁ (table.pageId j) :=
          fun j hj => hfull j (Nat.zero_le j) (by omega)
        split at h
        · rename_i e₂ g hb
          cases h
          exact placeBehind_refuses (hon.fetches hfe) ht hrow hfe.same.2
            (hf.orderly.lt_of_seenFull hseen)
            (fun ha => hon.explored (.beyond ht hfe hseen ha .refl)) hb
        · cases h
      · cases hr

/-- **Once a row is on its page, the insert goes through**: marking the page does not fail. -/
theorem adopt_of_insertInto {stored : Row} {frames : List Frame} (hf : Furnished e)
    (ht : e.catalog.table? table.id = some table)
    (h : e.insertInto tx table row = (e', .ok (stored, frames))) :
    ∃ pids, (adopt tx frames e').2 = .ok pids := by
  rcases insertInto_cases ht h with ⟨-, g, hr⟩
    | ⟨pid, e₂, stored, changed, -, hroom, ⟨frame, page, rid, hh, hins, rfl, rfl, rfl⟩, hr⟩
  · cases hr
  · cases hr
    obtain ⟨_, _, _, _, hq⟩ := Page.insert_eq_ok_iff.mp hins
    have hpid : page.pid = pid := by
      rw [hq]
      exact (hroom.proper hf.orderly.proper).keyed hh.cached
    exact ⟨[pid], by rw [adopt_changed hh hpid]⟩

/-- **An insert of a row that matches the table** stops where a page is not handed out, where the
file cannot be made longer, or at a page of another schema. -/
theorem insert_stops (hf : Furnished e) (ht : e.catalog.table? table.id = some table)
    (hrow : row.fits table.schema) {stored : Row}
    (h : e.insert tx table.id row = (e', stored, .error f)) :
    e.Refuses (e.InsertStops tx table e') f := by
  have hlookup : e.catalog.lookup table.id = .ok table := by
    rw [Catalog.lookup, ht]
  simp only [insert, hlookup] at h
  split at h
  · rename_i e₁ g hi
    cases h
    exact insertInto_stops hf ht hrow hi
  · rename_i e₁ placed frames hi
    obtain ⟨pids, hadopt⟩ := adopt_of_insertInto hf ht hi
    rcases ha : adopt tx frames e₁ with ⟨e₂, r⟩
    rw [ha] at h hadopt
    cases h
    cases hadopt

/-- How an insert fails: as inserts do, or because a page of the table has another schema and
refuses the row. -/
inductive InsertFails (e : Engine) (table : TableFile) : Failure → Prop
  | known {f : Failure} : f.OfInsert → InsertFails e table f
  | misfit (row : Row) (schema : Schema) : ¬ e.Carries table.id table.schema →
      InsertFails e table (.misfit row schema)

theorem InsertStops.insertFails (h : e.InsertStops tx table e' f) : e.InsertFails table f := by
  cases h with
  | blocked _ hb => exact .known (.request hb.ofRequest)
  | tooLong text _ => exact .known (.file text)
  | newPageFull row _ _ _ => exact .known (.newPageFull _ row)
  | misfit row schema hc => exact .misfit row schema hc

/-- A page that had another schema later had it before. -/
theorem Onward.insertFails (h : Onward e₀ e) (ht : e₀.catalog.table? table.id = some table)
    (hr : e.Refuses (e.InsertFails table) f) : e₀.Refuses (e₀.InsertFails table) f := by
  refine (h.refuses hr).mono fun hf => ?_
  cases hf with
  | known hf => exact .known hf
  | misfit row schema hc => exact .misfit row schema (h.misfits ht hc)

/-- **An insert of a row that matches the table** is refused as requests are, or because the file
cannot be made longer, or by a page of another schema. -/
theorem insert_refuses (hf : Furnished e) (ht : e.catalog.table? id = some table)
    (hrow : row.fits table.schema) {stored : Row}
    (h : e.insert tx id row = (e', stored, .error f)) : e.Refuses (e.InsertFails table) f := by
  obtain rfl := hf.keyed ht
  exact (insert_stops hf ht hrow h).mono InsertStops.insertFails

/-! ## 5. Deleting -/

/-- Deleting a row from the table of its record id. -/
theorem deleteFrom_refuses {rid : RecordId} (hf : Furnished e) (hrid : row.rid = some rid)
    (ht : e.catalog.table? rid.page.table = some table)
    (h : e.deleteFrom tx table row = (e', .error f)) : e.Refuses Failure.OfDelete f := by
  have hown : table.own rid.page = .ok () := if_pos (hf.keyed ht).symm
  simp only [deleteFrom, hrid, hown] at h
  rcases hfetch : e.fetch tx .write rid.page with ⟨e₁, g | frame⟩
  · simp only [hfetch] at h
    cases h
    exact (fetch_refuses hf ht hfetch).mono .request
  · have hh := fetch_ok hfetch
    have hon := (Onward.refl hf).fetches (fetch_fetches hfetch)
    simp only [hfetch] at h
    cases hu : frame.use with
    | error g =>
      simp only [hu, Except.bind] at h
      cases h
      exact hon.refuses (use_refuses hh.cached hu)
    | ok page =>
      obtain rfl := Frame.page_of_use hu
      simp only [hu, Except.bind] at h
      cases hd : frame.page.delete row with
      | error g =>
        simp only [hd] at h
        cases h
        -- the row has a record id and names this page, so what is wrong is its slot
        simp only [Page.delete, hrid, hon.orderly.proper.keyed hh.cached, if_true] at hd
        split at hd <;> cases hd
        exact Or.inl (.slotFree _)
      | ok page =>
        simp only [hd] at h
        cases h

/-- **Once a row is off its page, the delete goes through**: marking the page does not fail. -/
theorem adopt_of_deleteFrom {frames : List Frame} (hp : e.cache.Proper)
    (h : e.deleteFrom tx table row = (e', .ok frames)) :
    ∃ pids, (adopt tx frames e').2 = .ok pids := by
  unfold deleteFrom at h
  split at h
  · cases h
  · rename_i rid hrid
    split at h
    · cases h
    · rcases hfetch : e.fetch tx .write rid.page with ⟨e₁, g | frame⟩
      · simp only [hfetch] at h
        cases h
      · have hh := fetch_ok hfetch
        simp only [hfetch] at h
        split at h
        · cases h
        · rename_i page hd
          cases h
          cases hu : frame.use with
          | error g =>
            rw [hu] at hd
            cases hd
          | ok old =>
            obtain rfl := Frame.page_of_use hu
            rw [hu] at hd
            obtain ⟨_, _, _, _, hq⟩ := Page.delete_eq_ok_iff.mp hd
            have hpid : page.pid = rid.page := by
              rw [hq]
              exact ((fetch_fetches hfetch).proper hp).keyed hh.cached
            exact ⟨[rid.page], by rw [adopt_changed hh hpid]⟩

/-- **A delete** is refused as requests are, or because the row stands nowhere. -/
theorem delete_refuses (hf : Furnished e) (h : e.delete tx row = (e', .error f)) :
    e.Refuses Failure.OfDelete f := by
  unfold delete at h
  split at h
  · cases h
    exact Or.inl (.noRecordId _)
  · rename_i rid hrid
    unfold Catalog.lookup at h
    cases ht : e.catalog.table? rid.page.table with
    | none =>
      simp only [ht] at h
      cases h
      exact Or.inl (.unknownTable _)
    | some table =>
      simp only [ht] at h
      split at h
      · rename_i e₁ g hd
        cases h
        exact deleteFrom_refuses hf hrid ht hd
      · rename_i e₁ frames hd
        obtain ⟨pids, hadopt⟩ := adopt_of_deleteFrom hf.orderly.proper hd
        rw [h] at hadopt
        cases hadopt

end Engine

/-! ## 6. Runs -/

/-- **The calls that register tables with room for rows only.** -/
def Call.Opened : Call → Prop
  | register table _ => table.Roomy
  | _ => True

namespace Engine

variable {e e' : Engine} {c : Call} {table : TableFile} {events : List Event}

/-- **Every such call leaves a store to work with.** -/
theorem Furnished.call (hf : Furnished e) (hc : c.Opened) (h : e.call c = (e', events)) :
    Furnished e' := by
  have ho := hf.orderly.call c h
  cases rearranges_of_call hf.orderly h with
  | same hi => exact hf.inherits hi ho
  | fewer hcache hfewer =>
    exact ⟨ho, hf.formed.congr hcache, fun _ _ ht => hf.keyed (hfewer ht),
      fun _ _ ht => hf.roomy (hfewer ht)⟩
  | @more table name hcache hcat hr =>
    have hroomy : table.Roomy := by
      cases c with
      | createTable file name schema =>
        exact hr.elim fun _ hcreate => (asked_of_createTable hcreate).roomy
      | register added name => exact hr ▸ hc
      | _ => cases hr
    refine ⟨ho, hf.formed.congr hcache, fun id found ht => ?_, fun id found ht => ?_⟩
    · rcases table?_of_add (hcat ▸ ht) with ⟨rfl, rfl⟩ | hold
      · rfl
      · exact hf.keyed hold
    · rcases table?_of_add (hcat ▸ ht) with ⟨rfl, rfl⟩ | hold
      · exact hroomy
      · exact hf.roomy hold

/-- A call that leaves the catalog as it is keeps the schema of each page. -/
theorem inherits_of_same (ho : Orderly e) (h : e.call c = (e', events))
    (hcat : e'.catalog = e.catalog) : Inherits e e' := by
  cases rearranges_of_call ho h with
  | same hi => exact hi
  | fewer hcache _ => exact inherits_of_cached hcat fun hf => ⟨_, hcache ▸ hf, rfl⟩
  | more hcache _ _ => exact inherits_of_cached hcat fun hf => ⟨_, hcache ▸ hf, rfl⟩

end Engine

open Engine

theorem Run.furnished {start e : Engine} {log : List Event} (hf : Furnished start)
    (h : Run (fun _ c => c.Opened) start e log) : Furnished e := by
  induction h with
  | nil => exact hf
  | call c _ hc he ih => exact ih.call hc he

end RowStore
