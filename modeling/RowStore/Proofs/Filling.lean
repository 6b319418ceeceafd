import RowStore.Proofs.Cleanup
import RowStore.Proofs.Durability
import RowStore.Proofs.FailedChange
import RowStore.Proofs.PageAddressing

/-!
# Filling a table up

Where nothing is in its way (`Engine.Unhindered`), an insert of a row that matches its table goes
through as long as 32 bits can count the pages after it (`insert_goes_through`).  So a table that
has room for one row on a page can be filled, one transaction after the other, to any number of
pages below 2^32 (`filled_of_lt`).

The induction stops where it has to.  One more insert makes it 2^32 pages, and 32 bits count none
of them: all rows that were committed are still in the file, and no page of the table can be read
(`committed_rows_unreadable`); nor can the page that a transaction changed before it, though the
commit goes through that writes it (`committed_page_unreadable`).
-/

namespace RowStore

/-! ## 1. The locks of others -/

namespace LockTable

variable {t u : LockTable} {tx : Tx} {mode : LockMode} {pid : PageId}

/-- The locks on a page that are not the transaction's. -/
def others (t : LockTable) (tx : Tx) (pid : PageId) : List Holder :=
  (t.holders pid).filter fun holder => holder.tx ≠ tx

theorem mem_others {holder : Holder} :
    holder ∈ t.others tx pid ↔ holder ∈ t.holders pid ∧ holder.tx ≠ tx := by
  simp [others]

/-- What is free for a transaction depends on the locks of others only. -/
theorem Free.congr (h : t.Free tx mode pid) (ho : u.others tx pid = t.others tx pid) :
    u.Free tx mode pid := by
  intro holder hm hne
  have hmem : holder ∈ t.others tx pid := ho ▸ mem_others.mpr ⟨hm, hne⟩
  exact h holder (mem_others.mp hmem).1 hne

theorem Gains.others_eq {p : PageId} (h : Gains tx mode pid t u) :
    u.others tx p = t.others tx p := by
  by_cases hp : p = pid
  · rw [hp]
    exact h.others
  · have hholders : u.holders p = t.holders p := by
      unfold holders
      rw [h.pages p hp]
    unfold LockTable.others
    rw [hholders]

end LockTable

namespace Engine

variable {e e' : Engine} {tx : Tx} {id : TableId} {table : TableFile} {pid : PageId} {row : Row}
  {events log : List Event}

/-- **A transaction's requests leave the locks of others alone.** -/
theorem Fetches.others_eq (h : Fetches tx e e') (ho : Orderly e) :
    e'.locks.others tx pid = e.locks.others tx pid := by
  induction h with
  | refl => rfl
  | @tail e₁ e₂ hr hstep ih =>
    rw [← ih]
    cases hstep with
    | @lock locks mode p ha =>
      have hgains := (Fetches.orderly hr ho).consistent.gains (congrArg Prod.snd ha)
      rw [ha] at hgains
      exact hgains.others_eq
    | load _ _ _ => rfl
    | spoil _ _ => rfl

theorem Explored.others_eq (h : Explored tx id e e') (ho : Orderly e) :
    e'.locks.others tx pid = e.locks.others tx pid := by
  cases h with
  | within hf => exact hf.others_eq ho
  | @beyond table e₁ _ disk r ht hf hfull ha hf' =>
    have hc : table.pageCount e₁.disk < UInt32.size := hf.same.2 ▸ ho.lt_of_seenFull hfull
    have hmove : Move e₁ { e₁ with disk := disk } := .append (hf.same.1 ▸ ht) hc ha
    exact (hf'.others_eq (hmove.orderly (hf.orderly ho))).trans (hf.others_eq ho)

/-! ## 2. Inserts that go through -/

/-- **Nothing is in the way of an insert** into the table. -/
structure Unhindered (e : Engine) (tx : Tx) (table : TableFile) : Prop where
  /-- Nobody else has a lock on a page of the table, or on the one that would come next. -/
  free : ∀ i, i ≤ table.pageCount e.disk → e.locks.Free tx .exclusive (table.pageId i)
  /-- The cache has room for more pages than are changed. -/
  room : ∃ changed : List PageId, changed.length < e.config.pages
    ∧ ∀ owner pid, e.Marks owner pid → pid ∈ changed
  /-- With one page more, the file would have room for another one. -/
  short : (table.pageCount e.disk + 1) * table.pageSize + table.pageSize < Disk.positions

/-- A table gets one page at most while an insert looks for room. -/
theorem Explored.pageCount_le (h : Explored tx table.id e e') (hs : Sound e)
    (ht : e.catalog.table? table.id = some table) :
    table.pageCount e'.disk ≤ table.pageCount e.disk + 1 := by
  rcases h.files hs with hsame | ⟨grown, hid, hgrows⟩
  · rw [TableFile.pageCount_congr (hsame table.path)]
    exact Nat.le_succ _
  · obtain rfl : table = grown := by
      have hr := hgrows.registered
      rw [hid, ht] at hr
      exact Option.some.inj hr
    exact Nat.le_of_eq (hgrows.appends.pageCount_eq (hs.tables ht).2)

/-- The cache does not become crowded while an insert looks for room. -/
theorem Unhindered.not_crowded (h : e.Unhindered tx table) (hx : Explored tx id e e')
    (hs : Sound e) (ho : Orderly e) : ¬ e'.Crowded := by
  intro hcrowded
  obtain ⟨changed, hlt, hall⟩ := h.room
  have hp' := (hx.sound hs).1.proper
  have hsub : e'.cache.pids ⊆ changed := by
    intro p hm
    obtain ⟨frame, hf⟩ := hp'.exists_frame hm
    cases hd : frame.page.dirty with
    | none => exact absurd hd (hcrowded.changed hf)
    | some owner => exact hall owner p ((hx.marks_iff hs.proper).mp ⟨frame, hf, hd⟩)
  have hlength := (List.subperm_of_subset hp'.nodup hsub).length_le
  have hfull := hcrowded.full
  rw [hp'.size_eq_length_pids, (hx.moves ho).config_eq] at hfull
  exact Nat.lt_irrefl _ (Nat.lt_of_le_of_lt (Nat.le_trans hfull hlength) hlt)

/-- **An insert that nothing is in the way of goes through**, or leaves more pages than 32 bits can
count. -/
theorem Unhindered.insert (h : e.Unhindered tx table) (hf : Furnished e) (hs : Sound e)
    (hsane : Sane e) (ht : e.catalog.table? table.id = some table) (hrow : row.fits table.schema)
    {stored : Row} {r : Except Failure (List PageId)}
    (hi : e.insert tx table.id row = (e', stored, r)) :
    (∃ pids, r = .ok pids)
      ∨ Explored tx table.id e e' ∧ UInt32.size ≤ table.pageCount e'.disk := by
  rcases insert_cases hs.proper hi with ⟨hx, -, f, rfl⟩
    | ⟨_, pid, _, _, _, _, -, -, -, -, -, -, -, hr⟩
  · refine Or.inr ⟨hx, ?_⟩
    obtain ⟨hs', hsame⟩ := hx.sound hs
    have hcount := hx.pageCount_le hs ht
    rcases insert_stops hf ht hrow hi with hstops | ⟨-, hspoiled⟩
    · cases hstops.hinders hs hs' hsame ht with
      | @locked i hlt hn =>
        have hle : i ≤ table.pageCount e.disk := Nat.le_of_lt_succ (Nat.lt_of_lt_of_le hlt hcount)
        exact absurd ((h.free i hle).congr (hx.others_eq hf.orderly)) hn
      | crowded _ hc => exact absurd hc (h.not_crowded hx hs hf.orderly)
      | tooLong text hle =>
        have hend := Nat.add_le_add_right (Nat.mul_le_mul_right table.pageSize hcount)
          table.pageSize
        exact absurd (Nat.lt_of_le_of_lt (Nat.le_trans hle hend) h.short) (Nat.lt_irrefl _)
      | uncounted _ _ hle => exact hle
    · exact absurd hsane hspoiled
  · exact Or.inl ⟨[pid], hr⟩

end Engine

open Engine

/-- **Inserts that nothing is in the way of go through.**  In every state that a new store reaches
while tables stay registered, over sane files, a row that matches its table gets its place if no
lock of others is in the way, the cache has room for more pages than are changed, and 32 bits can
count the pages of the table when it has one more. -/
theorem insert_goes_through {config : Config} {disk : Disk} {e : Engine} {log : List Event}
    (h : Run (fun e c => c.KeepsTables e) { config := config, disk := disk } e log)
    (hd : disk.Sane) {tx : Tx} {table : TableFile} {row : Row}
    (ht : e.catalog.table? table.id = some table) (hrow : row.fits table.schema)
    (hfree : e.Unhindered tx table) (hfew : table.pageCount e.disk + 1 < UInt32.size) :
    ∃ e' stored pids, e.insert tx table.id row = (e', stored, .ok pids)
      ∧ Inserted e table row e' stored := by
  have hs := h.sound_of_keepsTables (sound_new config disk)
  have hf := (h.mono fun hc => hc.opened).furnished (furnished_new config disk)
  have hsane := (h.mono fun hc => hc.oneSize).sane hd
  rcases hi : e.insert tx table.id row with ⟨e', stored, r⟩
  rcases hfree.insert hf hs hsane ht hrow hi with ⟨pids, rfl⟩ | ⟨hx, hmany⟩
  · exact ⟨e', stored, pids, rfl, hs.insert ht hi⟩
  · exact absurd hmany (Nat.not_le.mpr (Nat.lt_of_le_of_lt (hx.pageCount_le hs ht) hfew))

namespace Engine

variable {e e' : Engine} {tx : Tx} {id : TableId} {events : List Event}

/-! ## 3. One transaction at work -/

/-- **Nobody but the transaction is at work**: all locks and all marks are its own. -/
structure Alone (e : Engine) (tx : Tx) : Prop where
  others_eq : ∀ pid, e.locks.others tx pid = []
  marks : ∀ {owner pid}, e.Marks owner pid → owner = tx

/-- **Nobody is at work**: no page is locked, and none is marked. -/
structure Resting (e : Engine) : Prop where
  holders_eq : ∀ pid, e.locks.holders pid = []
  marks : ∀ {owner pid}, ¬ e.Marks owner pid

theorem Resting.alone (h : e.Resting) (tx : Tx) : e.Alone tx where
  others_eq pid := by
    unfold LockTable.others
    rw [h.holders_eq, List.filter_nil]
  marks hm := absurd hm h.marks

/-- All pages are free for a transaction that is alone. -/
theorem Alone.free (h : e.Alone tx) (mode : LockMode) (pid : PageId) :
    e.locks.Free tx mode pid := by
  intro holder hm hne
  have hmem : holder ∈ e.locks.others tx pid := LockTable.mem_others.mpr ⟨hm, hne⟩
  rw [h.others_eq] at hmem
  cases hmem

/-- **Work on rows marks one page more at most**, and leaves the marks of its transaction. -/
theorem Worked.marks (h : Worked tx id e e' events) (hp : e.cache.Proper) :
    (∃ changed, ∀ owner pid, e'.Marks owner pid →
        pid = changed ∧ owner = tx ∨ e.Marks owner pid)
      ∧ ∀ pid, e.Marks tx pid → e'.Marks tx pid := by
  cases h with
  | explored hx =>
    exact ⟨⟨⟨id, 0⟩, fun owner pid hm => Or.inr ((hx.marks_iff hp).mp hm)⟩,
      fun pid hm => (hx.marks_iff hp).mpr hm⟩
  | @changed e₁ changed frame page rid values hx hh hc =>
    constructor
    · refine ⟨changed, fun owner pid hm => ?_⟩
      have hmarks := (marks_changePage changed page).mp hm
      split at hmarks
      · exact Or.inl ⟨‹_›, hmarks⟩
      · exact Or.inr ((hx.marks_iff hp).mp hmarks)
    · intro pid hm
      refine (marks_changePage changed page).mpr ?_
      split
      · rfl
      · exact (hx.marks_iff hp).mpr hm

theorem Worked.alone (h : Worked tx id e e' events) (ho : Orderly e) (ha : e.Alone tx) :
    e'.Alone tx where
  others_eq pid := by
    cases h with
    | explored hx => exact (hx.others_eq ho).trans (ha.others_eq pid)
    | changed hx _ _ => exact (hx.others_eq ho).trans (ha.others_eq pid)
  marks {owner pid} hm := by
    obtain ⟨changed, hall⟩ := (h.marks ho.proper).1
    rcases hall owner pid hm with ⟨-, howner⟩ | hold
    · exact howner
    · exact ha.marks hold

/-- **Nobody is at work when the only transaction has completed.** -/
theorem Alone.complete {commit : Bool} {r : Except Failure Unit} (ha : e.Alone tx)
    (ho : Orderly e) (h : e.complete tx commit = (e', r)) (hr : Returned r) : e'.Resting := by
  have hclean := ho.cleansUp h hr
  constructor
  · intro pid
    rw [hclean.locks.holders_eq]
    exact ha.others_eq pid
  · intro owner pid hm
    obtain ⟨frame, hf, hd⟩ := hm
    have howner := ha.marks (complete_marks ho.proper h ⟨frame, hf, hd⟩)
    exact hclean.unmarked pid frame hf (howner ▸ hd)

/-- What is worked on is not kept before it is committed. -/
theorem Worked.kept_eq (h : Worked tx id e e' events) (log : List Event) :
    kept (log ++ events) = kept log := by
  cases h with
  | explored _ => rw [List.append_nil]
  | changed _ _ _ => exact kept_append_changed ..

end Engine

/-! ## 4. Filling a table -/

namespace Sample

/-- A row of the table of truth values. -/
def flag : Row := ⟨[.bool true], none⟩

/-- A new store whose pages have room for one such row, two pages in its cache. -/
def blank : Engine := { config := { pageSize := 2, pages := 2 } }

/-- The store after the table was created. -/
def blankOpened : Engine :=
  { blank with
    disk := { files := [(table.path, .ofList [])], opened := 1 }
    catalog := { tables := [(flagTable.id, flagTable)], names := [("t", flagTable.id)] } }

theorem createTable_blank : blank.createTable "t" "t" flags = (blankOpened, .ok flagTable) :=
  createTable_t rfl (by decide) openFile_t rfl

theorem run_blankOpened : Run (fun e c => c.Transactional e) blank blankOpened [] :=
  .call (.createTable "t" "t" flags) .nil
    ⟨registersOnce_of_createTable createTable_blank rfl rfl,
      opensEmpty_of_createTable createTable_blank rfl⟩
    (by simp only [call, createTable_blank])

end Sample

open Sample

/-- **The table has so many pages**, in a state that transactions reach from the new store, and
nobody is at work but the first transaction. -/
structure Paged (n : Nat) (e : Engine) (log : List Event) : Prop where
  run : Run (fun e c => c.Transactional e) blank e log
  registered : e.catalog.table? flagTable.id = some flagTable
  alone : e.Alone ⟨1⟩
  count_eq : flagTable.pageCount e.disk = n

/-- **The table is full**: there is a row on each of its pages. -/
structure Filled (n : Nat) (e : Engine) (log : List Event) : Prop extends Paged n e log where
  rows : ∀ i, i < n → e.content ⟨flagTable.pageId i, 0⟩ = some [.bool true]

namespace Paged

variable {n : Nat} {e e' : Engine} {log events : List Event}

theorem accounted (h : Paged n e log) : Accounted e log :=
  h.run.accounted (accounted_new _ _ _)

theorem serving (h : Paged n e log) : Serving e flagTable :=
  ⟨h.run.orderly (orderly_new _ _), h.accounted.sound, h.registered⟩

/-- **The first transaction completes**, and nobody is at work. -/
theorem complete (h : Paged n e log) {commit : Bool} {r : Except Failure Unit}
    (hc : e.complete ⟨1⟩ commit = (e', r)) :
    Paged n e' (log ++ [.completed ⟨1⟩ commit]) ∧ e'.Resting := by
  obtain ⟨hr, -⟩ := h.accounted.completed hc
  have hcall : e.call (.complete ⟨1⟩ commit) = (e', [.completed ⟨1⟩ commit]) := by
    simp only [call, hc, Event.ofCompletion_of_returned hr]
  have hkeeps : (Call.complete ⟨1⟩ commit).KeepsTables e := trivial
  have hresting := h.alone.complete h.serving.orderly hc hr
  refine ⟨⟨h.run.call (.complete ⟨1⟩ commit) trivial hcall,
    (h.serving.call hkeeps hcall).registered, hresting.alone _, ?_⟩, hresting⟩
  rcases h.serving.pageCount_of_call hkeeps hcall with hsame | ⟨-, _, _, hinsert⟩
  · exact hsame.trans h.count_eq
  · cases hinsert

/-- The first transaction puts one more row, or fails to. -/
theorem insert (h : Paged n e log) {stored : Row} {r : Except Failure (List PageId)}
    (hi : e.insert ⟨1⟩ flagTable.id flag = (e', stored, r)) :
    Paged (flagTable.pageCount e'.disk) e'
      (log ++ Event.ofChange ⟨1⟩ stored.rid (some stored.values) r) := by
  have hcall : e.call (.insert ⟨1⟩ flagTable.id flag)
      = (e', Event.ofChange ⟨1⟩ stored.rid (some stored.values) r) := by
    simp only [call, hi]
  have hkeeps : (Call.insert ⟨1⟩ flagTable.id flag).KeepsTables e := trivial
  have hworked := insert_worked h.serving.sound.proper hi
  exact ⟨h.run.call (.insert ⟨1⟩ flagTable.id flag) trivial hcall,
    (h.serving.call hkeeps hcall).registered, hworked.alone h.serving.orderly h.alone, rfl⟩

/-- **Where the table has 2^32 pages, none of them can be read.** -/
theorem unreadable (h : Paged UInt32.size e log) {pid : PageId} (hown : pid.table = flagTable.id) :
    ¬ ∃ page, flagTable.readPage e.disk pid = .ok page :=
  TableFile.unreadable_of_size (h.accounted.sound.tables h.registered).2
    (h.accounted.healthy.usable _) hown h.count_eq

end Paged

namespace Filled

variable {n : Nat} {e e' : Engine} {log events : List Event}

/-- No place in the table is free. -/
theorem full (h : Filled n e log) (rid : RecordId) : ¬ e.Vacant flagTable rid := by
  intro hv
  have hslot : rid.slot = 0 := Nat.lt_one_iff.mp hv.slot_lt
  have hrid : rid = ⟨flagTable.pageId rid.page.index.toNat, 0⟩ := by
    rw [TableFile.pageId, ← hv.own, UInt32.ofNat_toNat, ← hslot]
  have hrow := h.rows _ (h.count_eq ▸ hv.index_lt)
  rw [← hrid, hv.free] at hrow
  cases hrow

theorem unhindered (h : Filled n e log) (hn : n < UInt32.size) {marked : List PageId}
    (hlt : marked.length < 2) (hall : ∀ owner pid, e.Marks owner pid → pid ∈ marked) :
    e.Unhindered ⟨1⟩ flagTable where
  free i _ := h.alone.free _ _
  room := by
    have hconfig := h.run.config_eq (orderly_new _ _)
    exact ⟨marked, by rw [hconfig]; exact hlt, hall⟩
  short := by
    have hsize : flagTable.pageSize = 2 := rfl
    have hmax : UInt32.size = 4294967296 := rfl
    have hpositions : Disk.positions = 9223372036854775808 := rfl
    rw [h.count_eq, hsize]
    omega

/-- What the insert of one more row does. -/
theorem insert_cases (h : Filled n e log) (hn : n < UInt32.size) {marked : List PageId}
    (hlt : marked.length < 2) (hall : ∀ owner pid, e.Marks owner pid → pid ∈ marked)
    {stored : Row} {r : Except Failure (List PageId)}
    (hi : e.insert ⟨1⟩ flagTable.id flag = (e', stored, r)) :
    (∃ pids, r = .ok pids ∧ Inserted e flagTable flag e' stored)
      ∨ Explored ⟨1⟩ flagTable.id e e' ∧ UInt32.size ≤ flagTable.pageCount e'.disk := by
  have hsane : Disk.Sane {} := ⟨rfl, fun _ => show 0 < Disk.positions by decide⟩
  have hone := h.run.mono Call.Transactional.oneSize
  have hopened := h.run.mono fun hc => hc.onTables.keepsTables.opened
  rcases (h.unhindered hn hlt hall).insert (hopened.furnished (furnished_new _ _))
    h.accounted.sound (hone.sane hsane) h.registered (by decide) hi with ⟨pids, rfl⟩ | hmany
  · exact Or.inl ⟨pids, rfl, h.accounted.sound.insert h.registered hi⟩
  · exact Or.inr hmany

/-- **One more row gets a page of its own.** -/
theorem insert (h : Filled n e log) (hn : n + 1 < UInt32.size) {marked : List PageId}
    (hlt : marked.length < 2) (hall : ∀ owner pid, e.Marks owner pid → pid ∈ marked)
    {stored : Row} {r : Except Failure (List PageId)}
    (hi : e.insert ⟨1⟩ flagTable.id flag = (e', stored, r)) :
    Filled (n + 1) e' (log ++ [.changed ⟨1⟩ ⟨flagTable.pageId n, 0⟩ (some [.bool true])]) := by
  have hpaged := h.toPaged.insert hi
  rcases h.insert_cases (Nat.lt_of_succ_lt hn) hlt hall hi with
    ⟨pids, rfl, rid, rfl, hfit, -, hcontent⟩ | ⟨hx, hmany⟩
  · obtain ⟨hown, hindex, hslot, hcount⟩ := hfit.appended fun ⟨r, hr⟩ => h.full r hr
    obtain rfl : rid = ⟨flagTable.pageId n, 0⟩ := by
      rw [TableFile.pageId, ← hown, ← h.count_eq, ← hindex, UInt32.ofNat_toNat, ← hslot]
    rw [hcount, h.count_eq] at hpaged
    refine ⟨hpaged, fun i hlt => ?_⟩
    rw [hcontent]
    split
    · rfl
    · rename_i hne
      refine h.rows i (Nat.lt_of_le_of_ne (Nat.le_of_lt_succ hlt) ?_)
      rintro rfl
      exact hne rfl
  · have hcount := hx.pageCount_le h.serving.sound h.registered
    rw [h.count_eq] at hcount
    exact absurd hmany (Nat.not_le.mpr (Nat.lt_of_le_of_lt hcount hn))

/-- **The insert that makes it 2^32 pages**, whether it fails or not: nothing more is kept than
before, and what was marked still is. -/
theorem overfill (h : Filled n e log) (hn : n + 1 = UInt32.size) {marked : List PageId}
    (hlt : marked.length < 2) (hall : ∀ owner pid, e.Marks owner pid → pid ∈ marked) :
    ∃ e' log', Paged UInt32.size e' log' ∧ kept log' = kept log
      ∧ ∀ pid, e.Marks ⟨1⟩ pid → e'.Marks ⟨1⟩ pid := by
  have hn' : n < UInt32.size := hn ▸ Nat.lt_succ_self n
  rcases hi : e.insert ⟨1⟩ flagTable.id flag with ⟨e', stored, r⟩
  have hpaged := h.toPaged.insert hi
  have hworked := insert_worked h.serving.sound.proper hi
  have hcount : flagTable.pageCount e'.disk = UInt32.size := by
    rcases h.insert_cases hn' hlt hall hi with ⟨_, _, rid, -, hfit, -, -⟩ | ⟨hx, hmany⟩
    · rw [(hfit.appended fun ⟨r, hr⟩ => h.full r hr).2.2.2, h.count_eq, hn]
    · have hle := hx.pageCount_le h.serving.sound h.registered
      rw [h.count_eq, hn] at hle
      exact Nat.le_antisymm hle hmany
  rw [hcount] at hpaged
  exact ⟨e', _, hpaged, hworked.kept_eq log, (hworked.marks h.serving.sound.proper).2⟩

/-- **The first transaction commits**, and nobody is at work. -/
theorem commit (h : Filled n e log) :
    ∃ e', Filled n e' (log ++ [.completed ⟨1⟩ true]) ∧ e'.Resting := by
  obtain ⟨e', hc, -⟩ := commit_healthy h.accounted.sound h.accounted.healthy ⟨1⟩
  obtain ⟨hpaged, hresting⟩ := h.toPaged.complete hc
  obtain ⟨e₁, hflush, rfl⟩ := commit_ok hc
  have hcontent := (flushEach_rows h.accounted.sound hflush).2.2
  exact ⟨_, ⟨hpaged, fun i hi => (hcontent _).trans (h.rows i hi)⟩, hresting⟩

/-- All rows of a full table are kept when nobody is at work. -/
theorem kept_eq (h : Filled n e log) (hresting : e.Resting) {i : Nat} (hi : i < n) :
    (replay (kept log) ⟨flagTable.pageId i, 0⟩).map
      (fun values => Row.cutValues values flags.columns) = some [.bool true] := by
  have hcut : e.cutAt ⟨flagTable.pageId i, 0⟩
      = fun values => Row.cutValues values flags.columns := by
    funext values
    unfold cutAt
    rw [show (flagTable.pageId i).table = flagTable.id from rfl, h.registered]
    rfl
  have hclean : ∀ frame, e.cache.find? (flagTable.pageId i) = some frame →
      frame.page.dirty = none := by
    intro frame hf
    cases hd : frame.page.dirty with
    | none => rfl
    | some owner => exact absurd ⟨frame, hf, hd⟩ hresting.marks
  rw [← hcut, ← h.accounted.tracked.stored_eq, ← h.rows i hi]
  exact (@Sound.content_eq_stored e ⟨flagTable.pageId i, 0⟩ h.accounted.sound hclean).symm

end Filled

/-- **The table can be filled to any number of pages** that 32 bits can count, each with a row that
is committed. -/
theorem filled_of_lt {n : Nat} (hn : n < UInt32.size) :
    ∃ e log, Filled n e log ∧ e.Resting := by
  induction n with
  | zero =>
    have hresting : blankOpened.Resting := ⟨fun _ => rfl, fun ⟨_, hf, _⟩ => by cases hf⟩
    exact ⟨blankOpened, [], ⟨⟨run_blankOpened, rfl, hresting.alone _, by decide +kernel⟩,
      fun i hi => absurd hi (Nat.not_lt_zero i)⟩, hresting⟩
  | succ n ih =>
    obtain ⟨e, log, hfilled, hresting⟩ := ih (Nat.lt_of_succ_lt hn)
    rcases hi : e.insert ⟨1⟩ flagTable.id flag with ⟨e₁, stored, r⟩
    have hmore := hfilled.insert hn (show [].length < 2 by decide)
      (fun _ _ hm => absurd hm hresting.marks) hi
    obtain ⟨e₂, hdone, hresting⟩ := hmore.commit
    exact ⟨e₂, _, hdone, hresting⟩

/-! ## 5. One page too many -/

/-- **Committed rows are missing** from what the pages of their table give to readers.  After
2^32 - 1 committed inserts, and one more that was aborted, every transaction has completed, and no
page of the table can be read. -/
theorem committed_rows_unreadable : ∃ e log,
    Run (fun e c => c.Transactional e) blank e log
      ∧ e.Resting ∧ (∀ tx rid, ¬ Pending log tx rid)
      ∧ e.catalog.table? flagTable.id = some flagTable
      ∧ (∀ i, i + 1 < UInt32.size → (replay (kept log) ⟨flagTable.pageId i, 0⟩).map
          (fun values => Row.cutValues values flags.columns) = some [.bool true])
      ∧ ∀ pid, pid.table = flagTable.id →
        ¬ ∃ page, flagTable.readPage e.disk pid = .ok page := by
  obtain ⟨n, hn⟩ : ∃ n, n + 1 = UInt32.size := ⟨4294967295, by decide⟩
  have hlt : n < UInt32.size := hn ▸ Nat.lt_succ_self n
  obtain ⟨e, log, hfilled, hresting⟩ := filled_of_lt hlt
  obtain ⟨e₁, log₁, hpaged, hkept, -⟩ := hfilled.overfill hn (show [].length < 2 by decide)
    fun _ _ hm => absurd hm hresting.marks
  rcases hc : e₁.complete ⟨1⟩ false with ⟨e₂, r⟩
  obtain ⟨hend, hresting₂⟩ := hpaged.complete hc
  refine ⟨e₂, _, hend.run, hresting₂, fun tx rid hp => ?_, hend.registered, fun i hi => ?_,
    fun pid hown => hend.unreadable hown⟩
  · exact hresting₂.marks (hend.accounted.tracked.marked hp)
  · rw [replay_kept_abort, hkept]
    exact hfilled.kept_eq hresting (by omega)

/-- **A page that was just committed cannot be read.**  After 2^32 - 2 committed inserts one
transaction puts a row on a new page, makes it 2^32 pages with the next one, and commits.  The
commit goes through; when the cache is dropped, nobody gets the page that it wrote. -/
theorem committed_page_unreadable : ∃ e log pid e' d,
    Run (fun e c => c.Filed .paths e) blank e log
      ∧ e.Marks ⟨1⟩ pid
      ∧ e.complete ⟨1⟩ true = (e', .ok ())
      ∧ e'.clear = (d, .ok ())
      ∧ ∀ reader access, ∃ f, (d.fetch reader access pid).2 = .error f := by
  obtain ⟨n, hn⟩ : ∃ n, n + 1 + 1 = UInt32.size := ⟨4294967294, by decide⟩
  have hlt : n + 1 < UInt32.size := hn ▸ Nat.lt_succ_self _
  obtain ⟨e, log, hfilled, hresting⟩ := filled_of_lt (Nat.lt_of_succ_lt hlt)
  rcases hi : e.insert ⟨1⟩ flagTable.id flag with ⟨e₁, stored, r⟩
  have hone := hfilled.insert hlt (show [].length < 2 by decide)
    (fun _ _ hm => absurd hm hresting.marks) hi
  -- the new page is marked, and no other one
  have hmarked : e₁.Marks ⟨1⟩ (flagTable.pageId n) :=
    hone.accounted.tracked.marked ⟨log, _, [], rfl, rfl⟩
  obtain ⟨⟨changed, hall⟩, -⟩ :=
    (insert_worked hfilled.serving.sound.proper hi).marks hfilled.serving.sound.proper
  obtain ⟨e₂, log₂, hpaged, -, hkeeps⟩ := hone.overfill hn
    (show [changed].length < 2 from Nat.lt_succ_self 1) fun owner pid hm => by
      rcases hall owner pid hm with ⟨rfl, -⟩ | hold
      · exact List.mem_singleton_self _
      · exact absurd hold hresting.marks
  obtain ⟨e₃, hc, hhealthy⟩ := commit_healthy hpaged.accounted.sound hpaged.accounted.healthy ⟨1⟩
  obtain ⟨hend, -⟩ := hpaged.complete hc
  have hrun := (hpaged.run.mono Call.Transactional.oneSize).on_paths (orderly_new _ _) rfl
  have hroom : 0 < e₃.config.pages := by
    rw [hend.run.config_eq (orderly_new _ _)]
    decide
  refine ⟨e₂, log₂, flagTable.pageId n, e₃, _, hrun, hkeeps _ hmarked, hc,
    clear_of_usable hhealthy.cache, fun reader access => ?_⟩
  have hfetch := fun d r => @fetch_of_empty
    { e₃ with cache := e₃.cache.clear, locks := e₃.locks.clear } d reader (flagTable.pageId n)
    access r rfl rfl hhealthy.cache hroom
  rcases hfetch _ _ rfl with ⟨page, _, hread, -⟩ | ⟨f, -, hr⟩
  · obtain ⟨table, ht, hreads⟩ := readPage_eq_ok_iff.mp hread
    obtain rfl : flagTable = table := Option.some.inj (hend.registered.symm.trans ht)
    exact absurd ⟨page, TableFile.readPage_eq_ok_iff.mpr hreads⟩
      (hend.unreadable (show (flagTable.pageId n).table = flagTable.id from rfl))
  · exact ⟨f, hr⟩

end RowStore
