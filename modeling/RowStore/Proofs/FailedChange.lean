import RowStore.Proofs.Growing
import RowStore.Proofs.Engine.Refusing
import RowStore.Proofs.Transparency

/-!
# A change that fails

An insert may fail after it has locked and loaded many pages, after pages have left the cache, and
after it has written an empty page behind the last one; a delete after it has locked and loaded its
page.  Either leaves the data as it was (`Engine.Untouched`), and the empty page is all that a
failed insert may leave behind (`Engine.GrownBlank`), once.

A row that matches its table is put, unless a page of the table is locked by somebody else, or the
cache is full of changed pages (`Engine.Hinders`).  There are two further causes, which have nothing
to do with other transactions: the file cannot be longer, and the table has more pages than 32 bits
can count.  The pages of such a table are counted with 64 bits when room is looked for and with 32
when one of them is read.

Main statement: `failed_change`.
-/

namespace RowStore

/-! ## 1. What a failed change leaves -/

namespace Engine

variable {e e' : Engine} {tx : Tx} {table : TableFile} {id : TableId} {row : Row} {f : Failure}

/-- **The data is as it was**: the tables, what is seen and what is stored at every place, and the
pages that are marked by each transaction. -/
structure Untouched (e e' : Engine) : Prop where
  catalog_eq : e'.catalog = e.catalog
  content_eq : ∀ rid, e'.content rid = e.content rid
  stored_eq : ∀ rid, e'.stored rid = e.stored rid
  marks_iff : ∀ owner pid, e'.Marks owner pid ↔ e.Marks owner pid

/-- **A table has one page more**, of zeros, which is a page without rows.  No place in it was
free. -/
structure GrownBlank (e e' : Engine) (table : TableFile) : Prop where
  full : ∀ rid, ¬ e.Vacant table rid
  content_eq : e'.disk.content table.path
    = e.disk.content table.path ++ Bytes.zeros table.pageSize
  others_eq : ∀ path, path ≠ table.path → e'.disk.content path = e.disk.content path
  count_eq : table.pageCount e'.disk = table.pageCount e.disk + 1
  blank : ∃ page, e'.storedPage (table.pageId (table.pageCount e.disk)) = some page
    ∧ ∀ slot, page.row? slot = none

theorem Grows.grownBlank (h : e.Grows e' table) (hs : Sound e) (hw : Whole e)
    (hcat : e'.catalog = e.catalog) : e.GrownBlank e' table := by
  have hroomy := (hs.tables h.registered).2
  refine ⟨h.full, h.appends.content_eq (hw h.registered), fun _ hne => h.appends.content_of_ne hne,
    h.appends.pageCount_eq hroomy, ?_⟩
  obtain ⟨page, hpage, hrow⟩ := h.appends.pageAt_new hroomy
  refine ⟨page, ?_, hrow⟩
  unfold storedPage
  rw [hcat, show (table.pageId (table.pageCount e.disk)).table = table.id from rfl, h.registered]
  exact hpage

/-- **Exploring leaves the data as it was**, and one more page at most. -/
theorem Explored.untouched (h : Explored tx id e e') (hs : Sound e) (hw : Whole e) :
    e.Untouched e' ∧ ((∀ path, e'.disk.content path = e.disk.content path)
      ∨ ∃ table, e.catalog.table? id = some table ∧ e.GrownBlank e' table) := by
  have hsame := (h.sound hs).2
  refine ⟨⟨hsame.catalog_eq, hsame.content_eq, hsame.stored_eq, fun _ _ =>
    h.marks_iff hs.proper⟩, (h.files hs).imp_right ?_⟩
  rintro ⟨table, rfl, hgrows⟩
  exact ⟨table, hgrows.registered, hgrows.grownBlank hs hw hsame.catalog_eq⟩

/-! ## 2. Why an insert fails -/

/-- **What hinders an insert of a row that matches its table**, in the state that it leaves. -/
inductive Hinders (e : Engine) (tx : Tx) (table : TableFile) : Failure → Prop
  /-- Somebody else's lock is in the way on a page of the table. -/
  | locked {i : Nat} : i < table.pageCount e.disk →
      ¬ e.locks.Free tx .exclusive (table.pageId i) →
      Hinders e tx table (.lockTimeout tx .exclusive (table.pageId i))
  /-- The cache is full, and no page in it is clean. -/
  | crowded {f : Failure} : f = .cacheEmpty ∨ (∃ pages, f = .cacheDirty pages) → e.Crowded →
      Hinders e tx table f
  /-- The new page would not end at a position. -/
  | tooLong (text : String) :
      Disk.positions ≤ table.pageCount e.disk * table.pageSize + table.pageSize →
      Hinders e tx table (.file text)
  /-- The pages are more than 32 bits can count. -/
  | uncounted (pid : PageId) (pages : Nat) : UInt32.size ≤ table.pageCount e.disk →
      Hinders e tx table (.pageOutOfRange pid pages)

/-- A page that is counted is behind the end only of those that 32 bits can count. -/
theorem size_le_of_behind {i : Nat} (hi : i < table.pageCount e.disk)
    (h : ¬ (table.pageId i).index < UInt32.ofNat (table.pageCount e.disk)) :
    UInt32.size ≤ table.pageCount e.disk := by
  apply Nat.le_of_not_lt
  intro hlt
  apply h
  rw [UInt32.lt_iff_toNat_lt, table.index_pageId (Nat.lt_trans hi hlt), UInt32.toNat_ofNat',
    Nat.mod_eq_of_lt hlt]
  exact hi

/-- The cached pages of a registered table have its schema. -/
theorem Sound.carries (hs : Sound e) (ht : e.catalog.table? id = some table) :
    e.Carries id table.schema := by
  intro pid frame hf hid
  obtain ⟨other, ho, hshape, -⟩ := hs.lodged hf
  rw [hid, ht] at ho
  cases ho
  exact hshape.schema_eq

/-- **A new page has a free slot** when it is handed out. -/
theorem Sound.new_page_not_full {frame : Frame} (hs' : Sound e') (hs : Sound e)
    (hsame : SameRows e e') (ht : e.catalog.table? table.id = some table)
    (ha : table.Appends e.disk e'.disk)
    (hf : e'.cache.find? (table.pageId (table.pageCount e.disk)) = some frame) :
    frame.page.freeCount ≠ 0 := by
  intro hfull
  have hindex := table.index_pageId ha.count_lt
  have hroomy := (hs.tables ht).2
  obtain ⟨other, ho, hshown⟩ := hs'.shown hf
  rw [hsame.catalog_eq, show (table.pageId (table.pageCount e.disk)).table = table.id from rfl,
    ht] at ho
  cases ho
  have hnone : e.content ⟨table.pageId (table.pageCount e.disk), 0⟩ = none :=
    Classical.byContradiction fun hne => Nat.lt_irrefl _ (hindex ▸ hs.lt_of_content ht hne)
  have hvacant : e'.Vacant table ⟨table.pageId (table.pageCount e.disk), 0⟩ :=
    ⟨rfl, by rw [hindex, ha.pageCount_eq hroomy]; exact Nat.lt_succ_self _, hroomy,
      (hsame.content_eq _).trans hnone⟩
  exact Shown.not_vacant hshown hfull hvacant

/-- Where cache and disk agree, an insert of a row that matches its table is stopped by its pages,
and not by what is on them. -/
theorem InsertStops.hinders (h : e.InsertStops tx table e' f) (hs : Sound e) (hs' : Sound e')
    (hsame : SameRows e e') (ht : e.catalog.table? table.id = some table) :
    e'.Hinders tx table f := by
  cases h with
  | blocked hi hb =>
    cases hb with
    | locked hn => exact .locked hi hn
    | behind pages hlt => exact .uncounted _ pages (size_le_of_behind hi hlt)
    | noneCached hc => exact .crowded (Or.inl rfl) hc
    | allChanged pages hc => exact .crowded (Or.inr ⟨pages, rfl⟩) hc
  | tooLong text hle => exact .tooLong text hle
  | newPageFull row ha hf hfull =>
    exact absurd hfull (hs'.new_page_not_full hs hsame ht ha hf)
  | misfit row schema hc => exact absurd (hs.carries ht) hc

end Engine

/-! ## 3. Failed changes -/

theorem Call.KeepsTables.oneSize {e : Engine} {c : Call} (h : c.KeepsTables e) : c.OneSize e := by
  cases c with
  | register => exact h.elim
  | _ => trivial

theorem Call.KeepsTables.opened {e : Engine} {c : Call} (h : c.KeepsTables e) : c.Opened := by
  cases c with
  | register => exact h.elim
  | _ => trivial

open Engine

/-- **A change that fails leaves the data as it was.**  In every state that a new store reaches while
tables stay registered, over any files:

* an insert that fails leaves the caller's row as it is, and all data; the files are the same, or
  the table has a page of zeros behind the last one, without a row on it;
* a delete that fails leaves all data and the whole disk;
* however often an insert fails, and whatever is called in between, the table gets one page at
  most, as long as no row is put into it;
* an insert of a row that matches its table fails because a lock is not free, or because the cache
  is full of changed pages, or because the file is too long for one more page or for 32 bits to
  count its pages, if all files were sane when the store was made;
* once the row is on its page, or off it, marking the page does not fail. -/
theorem failed_change {config : Config} {disk : Disk} {e : Engine} {log : List Event}
    (h : Run (fun e c => c.KeepsTables e) { config := config, disk := disk } e log) :
    (∀ tx id row e' stored f, e.insert tx id row = (e', stored, .error f) →
      stored = row ∧ e.Untouched e' ∧ ((∀ path, e'.disk.content path = e.disk.content path)
        ∨ ∃ table, e.catalog.table? id = some table ∧ e.GrownBlank e' table))
    ∧ (∀ tx row e' f, e.delete tx row = (e', .error f) → e.Untouched e' ∧ e'.disk = e.disk)
    ∧ (∀ table e' log', e.catalog.table? table.id = some table →
      Run (fun e c => c.PutsNothing table.id e) e e' log' →
      table.pageCount e'.disk ≤ table.pageCount e.disk + 1)
    ∧ (disk.Sane → ∀ tx table row e' stored f, e.catalog.table? table.id = some table →
      row.fits table.schema → e.insert tx table.id row = (e', stored, .error f) →
      e'.Hinders tx table f)
    ∧ (∀ tx table row e' stored frames, e.catalog.table? table.id = some table →
      e.insertInto tx table row = (e', .ok (stored, frames)) →
      ∃ pids, (adopt tx frames e').2 = .ok pids)
    ∧ ∀ tx table row e' frames, e.deleteFrom tx table row = (e', .ok frames) →
      ∃ pids, (adopt tx frames e').2 = .ok pids := by
  have hs := h.sound_of_keepsTables (sound_new config disk)
  have hw := h.whole
  have ho := h.orderly (orderly_new config disk)
  have hf := (h.mono fun hc => hc.opened).furnished (furnished_new config disk)
  refine ⟨fun tx id row e' stored f hi => ?_, fun tx row e' f hd => ?_,
    fun table e' log' ht hrun => ?_, fun hd tx table row e' stored f ht hrow hi => ?_,
    fun tx table row e' stored frames ht hi => adopt_of_insertInto hf ht hi,
    fun tx table row e' frames hd => adopt_of_deleteFrom hs.proper hd⟩
  · rcases insert_cases hs.proper hi with ⟨hx, rfl, -⟩
      | ⟨_, _, _, _, _, _, -, -, -, -, -, -, -, hr⟩
    · exact ⟨rfl, hx.untouched hs hw⟩
    · cases hr
  · rcases delete_cases hs.proper hd with ⟨hfetch, -⟩ | ⟨_, _, _, _, -, -, -, -, -, hr⟩
    · have hx : Explored tx (.number 0) e e' := .within hfetch
      exact ⟨(hx.untouched hs hw).1, hfetch.same.2⟩
    · cases hr
  · rcases (hrun.grows_once ⟨ho, hs, ht⟩).2 with hcount | hgrown
    · exact hcount ▸ Nat.le_succ _
    · exact Nat.le_of_eq hgrown.count_eq
  · have hsane := (h.mono fun hc => hc.oneSize).sane hd
    rcases insert_cases hs.proper hi with ⟨hx, -⟩ | ⟨_, _, _, _, _, _, -, -, -, -, -, -, -, hr⟩
    · obtain ⟨hs', hsame⟩ := hx.sound hs
      rcases insert_stops hf ht hrow hi with hstops | ⟨-, hspoiled⟩
      · exact hstops.hinders hs hs' hsame ht
      · exact absurd hsane hspoiled
    · cases hr

namespace Sample

/-- The store of texts with room for one page, which has a row on it. -/
def lonely : Engine :=
  ((wordsOpened.withPages 1).call (.insert ⟨1⟩ wordTable.id ⟨[.text "a"], none⟩)).1

/-- The store after a second row was not put, for want of room in the cache. -/
def refused : Engine := (lonely.call (.insert ⟨1⟩ wordTable.id ⟨[.text "b"], none⟩)).1

theorem run_lonely : ∃ log,
    Run (fun e c => c.KeepsTables e) (tiny.withPages 1) lonely log :=
  ⟨_, ((run_wordsOpened.withPages 1).mono fun hc =>
    hc.transactional.onTables.keepsTables).call
      (.insert ⟨1⟩ wordTable.id ⟨[.text "a"], none⟩) trivial rfl⟩

end Sample

/-- A second row does not fit on the one page that the cache has room for, and that page is changed.
The insert leaves an empty page in the file, and no other one when it is tried again. -/
theorem failed_change_crowded : ∃ log stored,
    Run (fun e c => c.KeepsTables e) (Sample.tiny.withPages 1) Sample.lonely log
      ∧ Sample.lonely.insert ⟨1⟩ Sample.wordTable.id ⟨[.text "b"], none⟩
        = (Sample.refused, stored, .error (.cacheDirty 1))
      ∧ stored.rid = none ∧ Sample.lonely.Untouched Sample.refused
      ∧ Sample.lonely.GrownBlank Sample.refused Sample.wordTable
      ∧ Sample.refused.Hinders ⟨1⟩ Sample.wordTable (.cacheDirty 1)
      ∧ Sample.wordTable.pageCount
          (Sample.refused.call (.insert ⟨1⟩ Sample.wordTable.id ⟨[.text "b"], none⟩)).1.disk ≤ 2 := by
  obtain ⟨log, hrun⟩ := Sample.run_lonely
  have ht : Sample.lonely.catalog.table? Sample.wordTable.id = some Sample.wordTable := by
    decide +kernel
  have hrow : Row.fits ⟨[.text "b"], none⟩ Sample.wordTable.schema := by decide +kernel
  have hsane : Disk.Sane {} := ⟨rfl, fun _ => show 0 < Disk.positions by decide⟩
  rcases hi : Sample.lonely.insert ⟨1⟩ Sample.wordTable.id ⟨[.text "b"], none⟩ with ⟨e', stored, r⟩
  have hreply : (Sample.lonely.insert ⟨1⟩ Sample.wordTable.id ⟨[.text "b"], none⟩).2.2
      = .error (.cacheDirty 1) := by rfl
  rw [hi] at hreply
  cases hreply
  obtain rfl : Sample.refused = e' := by
    simp only [Sample.refused, call, hi]
  obtain ⟨hinsert, -, honce, hwhy, -⟩ := failed_change hrun
  obtain ⟨rfl, huntouched, hfiles⟩ := hinsert _ _ _ _ _ _ hi
  have hgrown : Sample.lonely.GrownBlank Sample.refused Sample.wordTable := by
    rcases hfiles with hsame | ⟨table, htable, hgrown⟩
    · have hlength : Sample.refused.disk.length Sample.wordTable.path
          ≠ Sample.lonely.disk.length Sample.wordTable.path := by decide +kernel
      exact absurd (Disk.length_congr hsame _) hlength
    · rw [ht] at htable
      cases htable
      exact hgrown
  -- the insert is tried twice, and fails both times
  have hfails : ∀ e, e = Sample.lonely ∨ e = Sample.refused → ∀ tx row,
      Call.insert ⟨1⟩ Sample.wordTable.id ⟨[.text "b"], none⟩
        = .insert tx Sample.wordTable.id row →
      ∃ f, (e.insert tx Sample.wordTable.id row).2.2 = .error f := by
    rintro e (rfl | rfl) tx row hc <;> cases hc <;> exact ⟨.cacheDirty 1, by rfl⟩
  have hfirst : Run (fun e c => c.PutsNothing Sample.wordTable.id e) Sample.lonely Sample.refused
      _ := .call (.insert ⟨1⟩ Sample.wordTable.id ⟨[.text "b"], none⟩) .nil
    ⟨trivial, hfails _ (Or.inl rfl)⟩ rfl
  have hagain := hfirst.call (.insert ⟨1⟩ Sample.wordTable.id ⟨[.text "b"], none⟩)
    ⟨trivial, hfails _ (Or.inr rfl)⟩ rfl
  have hcount : Sample.wordTable.pageCount Sample.lonely.disk = 1 := by decide +kernel
  exact ⟨log, _, hrun, hi, rfl, huntouched, hgrown, hwhy hsane _ _ _ _ _ _ ht hrow hi,
    hcount ▸ honce _ _ _ ht hagain⟩

/-! ## 4. More pages than 32 bits can count -/

namespace Sample

/-- One column of truth values. -/
def flags : Schema := ⟨[⟨"b", .bool⟩]⟩

/-- The table of truth values in the file `t`, one to a page. -/
def flagTable : TableFile := ⟨table.id, table.path, flags, 2, 0⟩

/-- A new store over a file of zeros, with one page more than 32 bits can count. -/
def vast : Engine :=
  { config := { pageSize := 2, pages := 2 }
    disk := { files := [(table.path, ⟨[.hole 0x200000000]⟩)] } }

/-- The store after the table was created. -/
def vastOpened : Engine :=
  { vast with
    disk := { vast.disk with opened := 1 }
    catalog := { tables := [(flagTable.id, flagTable)], names := [("t", flagTable.id)] } }

theorem createTable_vast : vast.createTable "t" "t" flags = (vastOpened, .ok flagTable) :=
  createTable_t rfl (by decide) (openFile_there rfl rfl) (by decide +kernel)

theorem run_vastOpened : Run (fun e c => c.KeepsTables e) vast vastOpened [] :=
  .call (.createTable "t" "t" flags) .nil (registersOnce_of_createTable createTable_vast rfl rfl)
    (by simp only [call, createTable_vast])

end Sample

/-- **A row that matches its table is not put**, though every page of the table is free, nothing is
locked and nothing is cached.  The pages are counted with 32 bits where one is read, and there are
none then. -/
theorem matching_row_refused : Run (fun e c => c.KeepsTables e) Sample.vast Sample.vastOpened []
    ∧ Sample.vastOpened.catalog.table? Sample.flagTable.id = some Sample.flagTable
    ∧ Row.fits ⟨[.bool true], none⟩ Sample.flagTable.schema
    ∧ (∀ tx mode pid, Sample.vastOpened.locks.Free tx mode pid)
    ∧ Sample.vastOpened.cache.size < Sample.vastOpened.config.pages
    ∧ (Sample.vastOpened.insert ⟨1⟩ Sample.flagTable.id ⟨[.bool true], none⟩).2.2
      = .error (.pageOutOfRange (Sample.flagTable.pageId 0) 0) := by
  refine ⟨Sample.run_vastOpened, by decide +kernel, by decide +kernel, fun tx mode pid => ?_,
    by decide +kernel, by rfl⟩
  intro holder hm
  cases hm

end RowStore
