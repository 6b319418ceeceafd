import RowStore.Proofs.Locking
import RowStore.Proofs.PageBytes
import RowStore.Proofs.Replies
import RowStore.Proofs.Uncut
import RowStore.Proofs.Views

/-!
# A scan can be repeated

A scan locks the pages of a table and not the table.  Still, as long as its transaction runs, nobody
else changes what it has seen (`Engine.HeldFast`): a row is deleted on its own page, which the scan
has locked, and a row is inserted after the first page was asked for, wherever it goes in the end.
What remains to others is to write pages, to evict them and to complete, and none of this changes
what is seen on a page that they have not marked (`Engine.LeavesAlone`).

So a second scan lists the same rows, every row cut to its columns.  Both reservations are needed
(`scan_differs`).  A table without pages offers a scan nothing to lock; and a text that is too long
is cut when its page leaves the cache.  Main statement: `scan_repeats`.
-/

namespace RowStore

/-! ## 1. A table that is left alone -/

namespace Engine

variable {e e' e₁ : Engine} {tx owner : Tx} {pid : PageId} {rid : RecordId} {table : TableFile}
  {id : TableId} {r : Except Failure Unit} {events : List Event}

/-- **A table is left alone**: it stays registered, it shows the same, and no page of it is newly
marked. -/
structure LeavesAlone (id : TableId) (e e' : Engine) : Prop where
  tables : ∀ table, e.catalog.table? id = some table → e'.catalog.table? id = some table
  content_eq : ∀ rid, rid.page.table = id → e'.content rid = e.content rid
  marks : ∀ owner pid, pid.table = id → e'.Marks owner pid → e.Marks owner pid

theorem LeavesAlone.trans (h : LeavesAlone id e e₁) (h' : LeavesAlone id e₁ e') :
    LeavesAlone id e e' where
  tables table ht := h'.tables table (h.tables table ht)
  content_eq rid hown := (h'.content_eq rid hown).trans (h.content_eq rid hown)
  marks owner pid hown hm := h.marks owner pid hown (h'.marks owner pid hown hm)

/-- Exploring leaves every table alone, also the one that it makes longer. -/
theorem Explored.leavesAlone {explored : TableId} (h : Explored tx explored e e') (hs : Sound e)
    (id : TableId) : LeavesAlone id e e' where
  tables _ ht := (h.sound hs).2.catalog_eq ▸ ht
  content_eq rid _ := (h.sound hs).2.content_eq rid
  marks _ _ _ := (h.marks_iff hs.proper).mp

/-- A change leaves every other table alone. -/
theorem Sound.leavesAlone_changePage {frame : Frame} {page : Page} {values : Option (List Value)}
    (hs : Sound e) (hf : e.cache.find? pid = some frame) (hc : frame.page.Changed page rid values)
    (hne : rid.page.table ≠ id) : LeavesAlone id e (e.changePage tx pid frame page) := by
  obtain ⟨rfl, -, -, table, -, hcontent⟩ := hs.changePage tx hf hc
  refine ⟨fun _ ht => ht, fun r hown => ?_, fun owner p hown hm => ?_⟩
  · rw [hcontent, if_neg]
    rintro rfl
    exact hne hown
  · rw [marks_changePage, if_neg] at hm
    · exact hm
    · rintro rfl
      exact hne hown

theorem Settles.leavesAlone (h : Settles e e') (hcontent : ∀ rid, e'.content rid = e.content rid)
    (id : TableId) : LeavesAlone id e e' where
  tables _ ht := h.same.1 ▸ ht
  content_eq rid _ := hcontent rid
  marks _ _ _ := h.marks

/-- A completion leaves a table alone where its transaction has changed nothing. -/
theorem leavesAlone_of_complete {commit : Bool} (hs : Sound e)
    (h : e.complete tx commit = (e', r)) (hno : ∀ pid, pid.table = id → ¬e.Marks tx pid) :
    LeavesAlone id e e' where
  tables table ht := by
    obtain ⟨e₁, hset, ⟨-, -, rfl⟩ | ⟨-, rfl⟩⟩ := complete_cases hs.proper h
    · exact hset.same.1 ▸ ht
    · exact hset.same.1 ▸ ht
  content_eq rid hown := complete_content hs h (hno rid.page hown)
  marks _ _ _ := complete_marks hs.proper h

theorem Created.leavesAlone {created : Except Failure TableFile} (h : Created e e' created)
    (ht : e.catalog.table? id = some table) : LeavesAlone id e e' where
  tables _ := h.table?_of_some
  content_eq rid hown := (h.rows (hown.symm ▸ ht)).2
  marks _ _ _ hm := by
    unfold Marks at hm
    rwa [h.cache_eq] at hm

/-- No table gets shorter. -/
theorem Orderly.pageCount_le {c : Call} (ho : Orderly e) (hc : c.OnTables e)
    (h : e.call c = (e', events)) (table : TableFile) :
    table.pageCount e.disk ≤ table.pageCount e'.disk := by
  refine Nat.div_le_div_right ?_
  by_cases hp : c.UsesPages
  · exact ((did_of_call ho.proper hp h).moves ho).length_le ho table.path
  · cases c with
    | createTable file name schema =>
      cases h
      exact Disk.length_le_congr (e.createTable_opens file name schema).content_eq table.path
    | _ => exact absurd hc hp

end Engine

/-! ## 2. What a scan holds fast -/

/-- **The calls that leave a transaction running**: any on tables that are registered once, but no
completion of this transaction. -/
def Call.Continues (tx : Tx) (e : Engine) : Call → Prop
  | complete other _ => other ≠ tx
  | c => c.OnTables e

theorem Call.Continues.onTables {tx : Tx} {e : Engine} {c : Call} (h : c.Continues tx e) :
    c.OnTables e := by
  cases c with
  | complete other commit => trivial
  | _ => exact h

theorem Call.OnTables.leavesLocks {e : Engine} {c : Call} (h : c.OnTables e) : c.LeavesLocks := by
  cases c with
  | releasePage _ _ => cases h
  | clear => cases h
  | _ => trivial

namespace Engine

variable {e e' e₁ start : Engine} {tx other owner : Tx} {pid : PageId} {rid : RecordId}
  {table : TableFile} {id : TableId} {values : Option (List Value)} {events log : List Event}

theorem fate_ofCompletion_of_ne {commit : Bool} (hne : other ≠ tx) (r : Except Failure Unit) :
    fate tx (Event.ofCompletion other commit r) = none := by
  cases r with
  | ok _ => simp [Event.ofCompletion, fate, hne]
  | error f => cases hf : f.isUndefined <;> simp [Event.ofCompletion, fate, hf, hne]

/-- The call completes another transaction or none. -/
theorem fate_of_continues {c : Call} (hp : e.cache.Proper) (hc : c.Continues tx e)
    (h : e.call c = (e', events)) : fate tx events = none := by
  by_cases hrows : c.OnRows
  · obtain ⟨_, _, hw⟩ := worked_of_call hp hrows h
    cases hw <;> rfl
  cases c with
  | complete other commit =>
    rcases hr : e.complete other commit with ⟨d, r⟩
    simp only [call, hr] at h
    cases h
    exact fate_ofCompletion_of_ne hc r
  | flushPage | flushChanged | flushAll | removePage | createTable | register | unregister
  | forgetTables | releasePage | clear =>
    cases h
    rfl
  | fetch | insert | delete | scan => exact absurd trivial hrows

/-- **A change comes from an insert or a delete that went through.** -/
theorem change_cases {c : Call} (h : e.call c = (e', events))
    (hm : .changed tx rid values ∈ events) :
    (∃ id row stored pids, e.insert tx id row = (e', stored, .ok pids) ∧ stored.rid = some rid)
      ∨ ∃ row pids, e.delete tx row = (e', .ok pids) ∧ row.rid = some rid := by
  cases c with
  | insert writer id row =>
    rcases hi : e.insert writer id row with ⟨d, stored, f | pids⟩
    · simp only [call, hi] at h
      cases h
      cases hm
    · simp only [call, hi] at h
      cases h
      simp only [Event.ofChange, List.mem_map, Option.mem_toList, Event.changed.injEq] at hm
      obtain ⟨place, hrid, rfl, rfl, -⟩ := hm
      exact Or.inl ⟨id, row, stored, pids, hi, hrid⟩
  | delete writer row =>
    rcases hd : e.delete writer row with ⟨d, f | pids⟩
    · simp only [call, hd] at h
      cases h
      cases hm
    · simp only [call, hd] at h
      cases h
      simp only [Event.ofChange, List.mem_map, Option.mem_toList, Event.changed.injEq] at hm
      obtain ⟨place, hrid, rfl, rfl, -⟩ := hm
      exact Or.inr ⟨row, pids, hd, hrid⟩
  | complete other commit =>
    rcases hr : e.complete other commit with ⟨d, r⟩
    simp only [call, hr] at h
    cases h
    cases r with
    | ok _ => simp [Event.ofCompletion] at hm
    | error f => cases hf : f.isUndefined <;> simp [Event.ofCompletion, hf] at hm
  | _ =>
    cases h
    cases hm

/-- **What a scan holds fast.**  The table shows what it showed at the start.  Its first page is
locked by the transaction that scanned it, and so is every page where something is seen; nobody else
has a page of it marked. -/
structure HeldFast (tx : Tx) (table : TableFile) (start e : Engine) : Prop where
  table_eq : e.catalog.table? table.id = some table
  content_eq : ∀ rid, rid.page.table = table.id → e.content rid = start.content rid
  nonempty : 0 < table.pageCount e.disk
  first : e.locks.Holds tx (table.pageId 0)
  shown : ∀ rid, rid.page.table = table.id → e.content rid ≠ none → e.locks.Holds tx rid.page
  marks : ∀ owner pid, pid.table = table.id → e.Marks owner pid → owner = tx

/-- **A scan of a table that has a page holds it fast.** -/
theorem heldFast_of_scan {rows : List Row} (hs : Sound e) (hm : Marked e)
    (ht : e.catalog.table? table.id = some table) (hpos : 0 < table.pageCount e.disk)
    (h : e.scan tx table = (e', rows, .ok ())) : HeldFast tx table e' e' := by
  have hf := (scan_cases h).1
  have hs' := (hf.sound hs).1
  have hm' := hf.marked hm
  have ht' : e'.catalog.table? table.id = some table := hf.same.1.symm ▸ ht
  have hheld : ∀ pid, pid.table = table.id → pid.index.toNat < table.pageCount e'.disk →
      e'.locks.Holds tx pid := fun pid hown hlt => by
    have hpid : table.pageId pid.index.toNat = pid := by
      rw [TableFile.pageId, ← hown, UInt32.ofNat_toNat]
    rw [hf.same.2] at hlt
    exact hpid ▸ scan_holds h _ hlt
  refine ⟨ht', fun _ _ => rfl, hf.same.2.symm ▸ hpos, scan_holds h 0 hpos, ?_, ?_⟩
  · intro rid hown hc
    exact hheld rid.page hown (hs'.lt_of_content (hown.symm ▸ ht') hc)
  · rintro owner pid hown ⟨frame, hcached, hd⟩
    obtain ⟨table', htable, -, hlt, -⟩ := hs'.lodged hcached
    rw [hown, ht'] at htable
    cases htable
    exact ((hm'.owns hcached hd).eq_of_holds (hheld pid hown hlt)).symm

/-- A table that is left alone, under locks that are kept, stays held fast. -/
theorem HeldFast.leavesAlone (h : HeldFast tx table start e) (hl : LeavesAlone table.id e e')
    (hk : LockTable.Keeps tx e.locks e'.locks)
    (hcount : table.pageCount e.disk ≤ table.pageCount e'.disk) : HeldFast tx table start e' where
  table_eq := hl.tables table h.table_eq
  content_eq rid hown := (hl.content_eq rid hown).trans (h.content_eq rid hown)
  nonempty := Nat.lt_of_lt_of_le h.nonempty hcount
  first := hk.holds h.first
  shown rid hown hc := hk.holds (h.shown rid hown (hl.content_eq rid hown ▸ hc))
  marks owner pid hown hm := h.marks owner pid hown (hl.marks owner pid hown hm)

/-- A row is put into the table that it was meant for. -/
theorem Sound.table_of_insert {row stored : Row} {pids : List PageId} (hs : Sound e)
    (h : e.insert tx id row = (e', stored, .ok pids)) (hrid : stored.rid = some rid) :
    rid.page.table = id := by
  cases ht : e.catalog.table? id with
  | none =>
    simp only [Engine.insert, Catalog.lookup, ht] at h
    cases h
  | some table =>
    obtain ⟨_, rfl, hfit, -⟩ := hs.insert ht h
    cases hrid
    exact hfit.own.trans (hs.tables ht).1

/-- An insert has to get past the first page. -/
theorem HeldFast.eq_of_insert {row stored : Row} {pids : List PageId}
    (h : HeldFast tx table start e) (hs : Sound e) (hk : LockTable.Keeps tx e.locks e'.locks)
    (hi : e.insert other table.id row = (e', stored, .ok pids)) : other = tx :=
  ((insert_owns hs.proper h.table_eq h.nonempty hi).eq_of_holds (hk.holds h.first)).symm

/-- A delete has to get the page that it takes the row off. -/
theorem HeldFast.eq_of_delete {row : Row} {pids : List PageId} (h : HeldFast tx table start e)
    (hs : Sound e) (hk : LockTable.Keeps tx e.locks e'.locks)
    (hd : e.delete other row = (e', .ok pids)) (hrid : row.rid = some rid)
    (hown : rid.page.table = table.id) : other = tx := by
  obtain ⟨rid', hrid', hthere, -⟩ := hs.delete hd
  cases hrid.symm.trans hrid'
  have howns : e'.locks.Owns other rid.page := by
    rcases delete_cases hs.proper hd with ⟨-, f, hr⟩ | ⟨rid', e₁, _, _, hrid', -, hh, -, rfl, -⟩
    · cases hr
    · cases hrid.symm.trans hrid'
      exact hh.owns rfl
  exact (howns.eq_of_holds (hk.holds (h.shown rid hown hthere))).symm

/-- **Whoever changes a table that is held fast is the one who holds it.** -/
theorem HeldFast.eq_of_changed {c : Call} (h : HeldFast tx table start e) (hs : Sound e)
    (hk : LockTable.Keeps tx e.locks e'.locks) (hcall : e.call c = (e', events))
    (hm : .changed other rid values ∈ events) (hown : rid.page.table = table.id) : other = tx := by
  rcases change_cases hcall hm with ⟨into, row, stored, pids, hi, hrid⟩ | ⟨row, pids, hd, hrid⟩
  · obtain rfl : table.id = into := hown.symm.trans (hs.table_of_insert hi hrid)
    exact h.eq_of_insert hs hk hi
  · exact h.eq_of_delete hs hk hd hrid hown

/-- **A call leaves a table alone that is held fast**, unless the one who holds it changes it. -/
theorem HeldFast.call_leavesAlone {c : Call} (h : HeldFast tx table start e) (hs : Sound e)
    (hk : LockTable.Keeps tx e.locks e'.locks) (hc : c.Continues tx e)
    (hcall : e.call c = (e', events))
    (hquiet : ∀ rid values, .changed tx rid values ∈ events → rid.page.table ≠ table.id) :
    LeavesAlone table.id e e' := by
  by_cases hrows : c.OnRows
  · obtain ⟨writer, id, hw⟩ := worked_of_call hs.proper hrows hcall
    cases hw with
    | explored hx => exact hx.leavesAlone hs table.id
    | @changed e₁ pid frame page rid values hx hh hpage =>
      have hne : rid.page.table ≠ table.id := fun hown => by
        obtain rfl := h.eq_of_changed hs hk hcall List.mem_cons_self hown
        exact hquiet rid values List.mem_cons_self hown
      exact (hx.leavesAlone hs table.id).trans
        ((hx.sound hs).1.leavesAlone_changePage hh.cached hpage hne)
  cases c with
  | complete other commit =>
    cases hcall
    refine leavesAlone_of_complete hs rfl fun pid hown hmarks => ?_
    exact hc (h.marks other pid hown hmarks)
  | flushPage pid =>
    cases hcall
    exact (flushPage_settles rfl).leavesAlone (flushPage_content hs rfl) table.id
  | flushChanged owner =>
    cases hcall
    exact (flushChanged_settles rfl).leavesAlone (flushChanged_content hs rfl) table.id
  | flushAll =>
    cases hcall
    exact (flushAll_settles rfl).leavesAlone (flushAll_content hs rfl) table.id
  | createTable file name schema =>
    cases hcall
    exact (createTable_cases hc rfl).leavesAlone h.table_eq
  | fetch | insert | delete | scan => exact absurd trivial hrows
  | removePage | register | unregister | forgetTables | releasePage | clear => cases hc

/-- **What a scan holds fast stays so** through any call that does not complete its transaction. -/
theorem HeldFast.call {c : Call} (h : HeldFast tx table start e) (hs : Sound e) (ho : Orderly e)
    (hm : Marked e) (hc : c.Continues tx e) (hcall : e.call c = (e', events))
    (hquiet : ∀ rid values, .changed tx rid values ∈ events → rid.page.table ≠ table.id) :
    HeldFast tx table start e' := by
  have hfate := fate_of_continues hs.proper hc hcall
  have hk := (follows_of_call hm hc.onTables.leavesLocks hcall).keeps hfate
  exact h.leavesAlone (h.call_leavesAlone hs hk hc hcall hquiet) hk
    (ho.pageCount_le hc.onTables hcall table)

end Engine

/-! ## 3. Runs -/

open Engine

theorem Run.heldFast {start e : Engine} {log : List Event} {tx : Tx} {table : TableFile}
    (hs : Sound start) (ho : Orderly start) (hm : Marked start)
    (hheld : HeldFast tx table start start) (h : Run (fun e c => c.Continues tx e) start e log)
    (hquiet : ∀ rid values, .changed tx rid values ∈ log → rid.page.table ≠ table.id) :
    Sound e ∧ Marked e ∧ HeldFast tx table start e := by
  induction h with
  | nil => exact ⟨hs, hm, hheld⟩
  | call c hr hc he ih =>
    obtain ⟨hs', hm', hheld'⟩ :=
      ih fun rid values hin => hquiet rid values (List.mem_append_left _ hin)
    refine ⟨hs'.call hc.onTables he, (follows_of_call hm' hc.onTables.leavesLocks he).marked, ?_⟩
    exact hheld'.call hs' (Run.orderly ho hr) hm' hc he fun rid values hin =>
      hquiet rid values (List.mem_append_right _ hin)

/-! ## 4. Main statement -/

/-- **A scan can be repeated.**  In any state that a new store reaches on tables registered once,
over any files, a transaction scans a table that has a page.  Then there are any calls of any
transactions, except that this one is not completed and changes nothing in the table.  A second scan
by the same transaction, if neither fails, lists the same rows at the same record ids, every row as
it is stored; and if all tables were created on empty files and no row was inserted with a value that
is longer than its column, it lists the very same rows. -/
theorem scan_repeats {config : Config} {folders : List Path} {files : List (Path × FileContent)}
    {e e₁ e₂ e₃ : Engine} {before between : List Event} {table : TableFile} {tx : Tx}
    {rows rows' : List Row}
    (h : Run (fun e c => c.OnTables e)
      { config := config, disk := { folders := folders, files := files } } e before)
    (ht : e.catalog.table? table.id = some table) (hpos : 0 < table.pageCount e.disk)
    (hfirst : e.scan tx table = (e₁, rows, .ok ()))
    (hrun : Run (fun e c => c.Continues tx e) e₁ e₂ between)
    (hquiet : ∀ rid values, .changed tx rid values ∈ between → rid.page.table ≠ table.id)
    (hsecond : e₂.scan tx table = (e₃, rows', .ok ())) :
    rows'.map (Row.asStored table.schema) = rows.map (Row.asStored table.schema)
      ∧ (Run (fun e c => c.Transactional e ∧ c.Uncut e.catalog)
          { config := config, disk := { folders := folders, files := files } } e before →
        Run (fun e c => c.Transactional e ∧ c.Uncut e.catalog) e₁ e₂ between → rows' = rows) := by
  have hnew := sound_new config { folders := folders, files := files }
  have hs := h.sound hnew
  have ho := h.orderly (orderly_new config _)
  have hm : Marked e :=
    ((h.mono Call.OnTables.leavesLocks).guarded (guarded_new config _)).marked
  have hf := (scan_cases hfirst).1
  obtain ⟨hlisting, hcontent₁⟩ := hs.scan ht hfirst
  obtain ⟨hs₁, hsame₁⟩ := hf.sound hs
  obtain ⟨hs₂, -, hheld⟩ := Run.heldFast hs₁ (hf.orderly ho) (hf.marked hm)
    (heldFast_of_scan hs hm ht hpos hfirst) hrun hquiet
  have hlisting' := (hs₂.scan hheld.table_eq hsecond).1
  have hrows := hlisting.rows_eq hlisting' fun rid hown =>
    (hheld.content_eq rid hown).trans (hcontent₁ rid)
  refine ⟨hrows, fun hcut hcut' => ?_⟩
  have hempty : Snug { config := config, disk := { folders := folders, files := files } } :=
    fun pid frame hf => by cases hf
  obtain ⟨ha, hn⟩ := Run.snug (accounted_new config folders files) hempty hcut
  have hallowed : Call.Transactional e (.scan tx table) := trivial
  have hscan : e.call (.scan tx table) = (e₁, []) := by simp only [call, hfirst]
  obtain ⟨ha₂, hn₂⟩ := Run.snug (ha.call hallowed hscan) (hn.call ha hallowed trivial hscan) hcut'
  rw [hn.scan ha ht hfirst, hn₂.scan ha₂ hheld.table_eq hsecond] at hrows
  exact hrows

/-- A scan that does not fail, by what can be computed of it. -/
theorem Engine.scan_eq_of_ok {e : Engine} {tx : Tx} {table : TableFile} {rows : List Row}
    (hrows : (e.scan tx table).2.1 = rows) (hok : (e.scan tx table).2.2.toOption = some ()) :
    e.scan tx table = ((e.scan tx table).1, rows, .ok ()) := by
  rcases h : e.scan tx table with ⟨e', found, f | u⟩
  · rw [h] at hok
    cases hok
  · rw [h] at hrows
    rw [← hrows]

namespace Sample

/-- The store after a third transaction scanned the table with its one row. -/
def scanned : Engine := (committed.scan ⟨3⟩ table).1

/-- The store after a fourth transaction tried to put a row there. -/
def tried : Engine := (scanned.call (.insert ⟨4⟩ table.id ⟨[.int 6], none⟩)).1

/-- The store after the fourth transaction completed, without a row. -/
def blocked : Engine := (tried.call (.complete ⟨4⟩ true)).1

theorem scan_committed :
    committed.scan ⟨3⟩ table = (scanned, [⟨[.int 5], some first⟩], .ok ()) :=
  scan_eq_of_ok (by decide +kernel) (by decide +kernel)

theorem run_blocked :
    Run (fun e c => c.Continues ⟨3⟩ e) scanned blocked [.completed ⟨4⟩ true] := by
  have hinsert : (scanned.call (.insert ⟨4⟩ table.id ⟨[.int 6], none⟩)).2 = [] := by
    decide +kernel
  have hcomplete : (tried.call (.complete ⟨4⟩ true)).2 = [.completed ⟨4⟩ true] := by
    decide +kernel
  have hne : (⟨4⟩ : Tx) ≠ ⟨3⟩ := by decide
  have h : Run (fun e c => c.Continues ⟨3⟩ e) scanned tried [] :=
    Run.nil.call (.insert ⟨4⟩ table.id ⟨[.int 6], none⟩) trivial (Prod.ext (by rw [tried]) hinsert)
  exact h.call (.complete ⟨4⟩ true) hne (Prod.ext (by rw [blocked]) hcomplete)

/-- One transaction scans the table before and after another one puts the first row there. -/
def phantom : List Call :=
  [.scan ⟨1⟩ table, .insert ⟨2⟩ table.id ⟨[.int 5], none⟩, .complete ⟨2⟩ true, .scan ⟨1⟩ table]

/-- Three pages are filled, and the text on the second is replaced by one that is too long.  Then a
transaction scans the table twice. -/
def shrinking : List Call :=
  [.insert ⟨1⟩ wordTable.id ⟨[.text "a"], none⟩, .insert ⟨1⟩ wordTable.id ⟨[.text "b"], none⟩,
    .complete ⟨1⟩ true, .insert ⟨2⟩ wordTable.id ⟨[.text "c"], none⟩, .complete ⟨2⟩ true,
    .delete ⟨3⟩ ⟨[.text "b"], some ⟨wordTable.pageId 1, 0⟩⟩,
    .insert ⟨3⟩ wordTable.id ⟨[.text "abc"], none⟩, .complete ⟨3⟩ true,
    .scan ⟨4⟩ wordTable, .scan ⟨4⟩ wordTable]

/-- The reply to a scan of the three pages, if the text on the second is read as this. -/
def wordRows (read : String) : Reply :=
  .rows words [⟨[.text "a"], some ⟨wordTable.pageId 0, 0⟩⟩,
    ⟨[.text read], some ⟨wordTable.pageId 1, 0⟩⟩, ⟨[.text "c"], some ⟨wordTable.pageId 2, 0⟩⟩]

end Sample

/-- **Two scans of one transaction may differ**, in two ways.  A table without pages has nothing that
a scan could lock, and the second scan lists a row that another transaction has committed in
between.  And a text that is too long for its column is listed uncut as long as its page is not
evicted, which the first scan does by itself. -/
theorem scan_differs :
    (Run (fun e c => c.Transactional e) Sample.start Sample.opened []
      ∧ (serve Sample.phantom Sample.opened).map Prod.snd
        = some [.rows Sample.schema [], .inserted ⟨[.int 5], some Sample.first⟩ [Sample.first.page],
          .done, .rows Sample.schema [⟨[.int 5], some Sample.first⟩]])
      ∧ Run (fun e c => c.Transactional e) Sample.tiny Sample.wordsOpened []
      ∧ (serve Sample.shrinking Sample.wordsOpened).map (fun served => served.2.drop 8)
        = some [Sample.wordRows "abc", Sample.wordRows "ab"] := by
  have hwords : Run (fun e c => c.Transactional e) Sample.tiny Sample.wordsOpened [] :=
    .call (.createTable "t" "t" Sample.words) .nil
      ⟨Sample.registersOnce_tiny, Sample.opensEmpty_tiny⟩ (by
        simp only [call, Sample.createTable_tiny])
  exact ⟨⟨Sample.run_opened, by decide +kernel⟩, hwords, by decide +kernel⟩

/-- A transaction scans the page with the first row.  Another one is kept from putting a row beside
it, and the second scan lists the same. -/
theorem scan_repeats_blocked : ∃ e rows,
    Sample.blocked.scan ⟨3⟩ Sample.table = (e, rows, .ok ())
      ∧ rows.map (Row.asStored Sample.schema) = [⟨[.int 5], some Sample.first⟩] := by
  have hcommitted : Run (fun e c => c.OnTables e) Sample.start Sample.committed _ :=
    Sample.run_committed.mono Call.Transactional.onTables
  have htable : Sample.committed.catalog.table? Sample.table.id = some Sample.table := by
    decide +kernel
  have hpos : 0 < Sample.table.pageCount Sample.committed.disk := by decide +kernel
  have hquiet : ∀ rid values, .changed ⟨3⟩ rid values ∈ [Event.completed ⟨4⟩ true] →
      rid.page.table ≠ Sample.table.id := fun rid values hm => by simp at hm
  have hsecond : Sample.blocked.scan ⟨3⟩ Sample.table = (_, _, .ok ()) :=
    scan_eq_of_ok rfl (by decide +kernel)
  refine ⟨_, _, hsecond, ?_⟩
  exact (scan_repeats hcommitted htable hpos Sample.scan_committed Sample.run_blocked hquiet
    hsecond).1.trans (by decide +kernel)

end RowStore
