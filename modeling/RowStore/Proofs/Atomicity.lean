import RowStore.Proofs.Health
import RowStore.Proofs.HeapTable
import RowStore.Proofs.Isolation
import RowStore.Proofs.Replay

/-!
# Transactions are atomic

At every moment of a run, what stands on disk is the log replayed without the changes of
transactions that are under way or were aborted, and what is seen is the log replayed without the
changes that were aborted (`Tracked`).  What joins the two is that a page with a pending change is
cached with the mark of the transaction that made it, so that a commit writes and an abort drops
exactly the pages where the two maps differ for this transaction.

Main statement: `atomic`.
-/

namespace RowStore

/-! ## 1. Rows on disk are cut -/

namespace Page

/-- A page without rows is the page it is stored as. -/
theorem asStored_of_no_row {p : Page} (hd : p.dirty = none) (h : ∀ slot, p.row? slot = none) :
    p.asStored = p := by
  have hslots : p.slots.map (Option.map (Row.asStored p.schema)) = p.slots := by
    refine (List.map_congr_left fun slot hm => ?_).trans (List.map_id p.slots)
    obtain ⟨i, hi⟩ := List.mem_iff_getElem?.mp hm
    have hnone := h i
    rw [row?, hi] at hnone
    cases slot with
    | none => rfl
    | some row => cases hnone
  cases p
  simp only [asStored] at hslots hd ⊢
  rw [hslots, hd]

/-- The rows of a page that is the page it is stored as are cut. -/
theorem cells_of_asStored_eq {p : Page} (h : p.asStored = p) (slot : Nat) :
    p.cells slot = (p.row? slot).map Row.values := by
  have hrow := p.row?_asStored slot
  rw [h] at hrow
  unfold cells
  cases hr : p.row? slot with
  | none => rfl
  | some row =>
    rw [hr, Option.map_some, Option.some.injEq] at hrow
    rw [Option.map_some, Option.map_some, ← Row.asStored_values, ← hrow]

end Page

namespace Engine

variable {e e' e₁ : Engine} {tx : Tx} {pid : PageId} {frame : Frame} {page : Page}
  {rid : RecordId} {table : TableFile} {id : TableId} {disk : Disk} {log events : List Event}

/-- **Every page on disk is the page it is stored as**: its rows are cut to their columns. -/
def Tidy (e : Engine) : Prop :=
  ∀ pid page, e.storedPage pid = some page → page.asStored = page

theorem Tidy.congr (h : Tidy e) (he : ∀ pid, e'.storedPage pid = e.storedPage pid) : Tidy e' :=
  fun pid page hp => h pid page ((he pid).symm.trans hp)

theorem Fetches.tidy (h : Fetches tx e e') (ht : Tidy e) : Tidy e' :=
  ht.congr (storedPage_congr h.same.1 fun _ => by rw [h.same.2])

theorem Explored.tidy (h : Explored tx id e e') (hs : Sound e) (hh : Healthy e) (ht : Tidy e) :
    Tidy e' := by
  cases h with
  | within hf => exact hf.tidy ht
  | @beyond table e₁ _ disk r htable hf hfull ha hf' =>
    obtain ⟨hs₁, -⟩ := hf.sound hs
    have hh₁ := hf.healthy hs hh
    have htable₁ : e₁.catalog.table? id = some table := hf.same.1 ▸ htable
    have hc : table.pageCount e₁.disk < UInt32.size := hf.same.2 ▸ lt_of_seenFull hs hfull
    refine hf'.tidy ?_
    rcases appendPage_defined (hh₁.usable _) (hh₁.files htable₁).1 hc ha with rfl | happ
    · exact (hf.tidy ht).congr fun _ => rfl
    · intro p page hp
      rcases storedPage_append hs₁ htable₁ happ p with hsame | ⟨-, blank, hblank, hd, hrow⟩
      · exact hf.tidy ht p page (hsame.symm.trans hp)
      · rw [hblank] at hp
        cases hp
        exact Page.asStored_of_no_row hd hrow

theorem Worked.tidy (h : Worked tx id e e' events) (hs : Sound e) (hh : Healthy e)
    (ht : Tidy e) : Tidy e' := by
  cases h with
  | explored hx => exact hx.tidy hs hh ht
  | changed hx _ _ => exact (hx.tidy hs hh ht).congr fun _ => rfl

theorem Settles.tidy (h : Settles e e') (hs : Sound e) (ht : Tidy e) : Tidy e' := by
  induction h with
  | refl => exact ht
  | @tail e₁ e₂ hsettles hstep ih =>
    have hs₁ := Settles.sound hsettles hs
    cases hstep with
    | write hf htable hw =>
      intro p page hp
      have hat := storedPage_write hs₁ hf htable hw p
      have hp := hat.symm.trans hp
      split at hp
      · cases hp
        exact Page.asStored_asStored _
      · exact ih p page hp
    | revert hr _ =>
      have hr := revertPage_recached hr
      exact ih.congr (storedPage_congr hr.catalog_eq fun _ => by rw [hr.disk_eq])
    | halt hh => exact ih.congr (storedPage_congr hh.catalog_eq (content_of_files hh.files_eq))

/-! ## 2. The invariant -/

/-- Values cut as the table of a record id cuts them. -/
def cutAt (e : Engine) (rid : RecordId) (values : List Value) : List Value :=
  match e.catalog.table? rid.page.table with
  | some table => Row.cutValues values table.schema.columns
  | none => values

/-- **The store and its log tell the same**: what is seen is the log without what was aborted, what
stands on disk is the log without what is pending either, and a page with a pending change is cached
with the mark of its transaction. -/
structure Tracked (e : Engine) (log : List Event) : Prop where
  content_eq : ∀ rid, e.content rid = (replay (live log) rid).map (e.cutAt rid)
  stored_eq : ∀ rid, e.stored rid = (replay (kept log) rid).map (e.cutAt rid)
  marked : ∀ {tx : Tx} {rid : RecordId}, Pending log tx rid →
    ∃ frame, e.cache.find? rid.page = some frame ∧ frame.page.dirty = some tx

theorem cutAt_congr (h : e'.catalog = e.catalog) (rid : RecordId) : e'.cutAt rid = e.cutAt rid := by
  funext values
  unfold cutAt
  rw [h]

/-! ## 3. Working on rows -/

/-- Exploring leaves changed pages where they are. -/
theorem Explored.find?_dirty (h : Explored tx id e e') (hp : e.cache.Proper)
    (hf : e.cache.find? pid = some frame) (hd : frame.page.dirty ≠ none) :
    e'.cache.find? pid = some frame := by
  cases h with
  | within hfetch => exact hfetch.find?_dirty hp hf hd
  | beyond _ hfetch _ _ hfetch' =>
    exact hfetch'.find?_dirty (hfetch.proper hp) (hfetch.find?_dirty hp hf hd) hd

theorem Explored.tracked (h : Explored tx id e e') (hs : Sound e) (ht : Tracked e log) :
    Tracked e' log := by
  obtain ⟨-, hsame⟩ := h.sound hs
  refine ⟨?_, ?_, fun {owner r} hp => ?_⟩
  · intro r
    rw [hsame.content_eq, ht.content_eq, cutAt_congr hsame.catalog_eq]
  · intro r
    rw [hsame.stored_eq, ht.stored_eq, cutAt_congr hsame.catalog_eq]
  · obtain ⟨frame, hf, hd⟩ := ht.marked hp
    exact ⟨frame, h.find?_dirty hs.proper hf (by rw [hd]; exact Option.some_ne_none _), hd⟩

/-- **A change goes into the content and into the live log**, and marks its page. -/
theorem Tracked.changePage {values : Option (List Value)} (ht : Tracked e log) (hs : Sound e)
    (hg : Guarded e log) (hh : Handed e tx .write pid frame)
    (hc : frame.page.Changed page rid values) :
    Tracked (e.changePage tx pid frame page) (log ++ [.changed tx rid values]) := by
  obtain ⟨hrid, -, hstored, table, htable, hcontent⟩ := hs.changePage tx hh.cached hc
  have hcut : ∀ r, (e.changePage tx pid frame page).cutAt r = e.cutAt r := cutAt_congr rfl
  refine ⟨?_, ?_, fun {owner r} hp => ?_⟩
  · intro r
    rw [hcontent, replay_live_append_changed, hcut]
    split
    · rename_i he
      subst he
      congr 1
      funext vs
      unfold cutAt
      rw [hrid, htable]
    · exact ht.content_eq r
  · intro r
    rw [hstored, kept_append_changed, hcut]
    exact ht.stored_eq r
  · rw [find?_changePage]
    rcases hp.of_append with ⟨hold, -⟩ | ⟨vs, hm⟩
    · split
      · rename_i he
        -- nobody else can have a pending change on a page that this transaction owns
        have howner : owner = tx := (he ▸ hg.pending hold).unique (hh.owns rfl)
        exact ⟨_, rfl, by rw [howner]; rfl⟩
      · exact ht.marked hold
    · simp only [List.mem_singleton, Event.changed.injEq] at hm
      obtain ⟨rfl, rfl, -⟩ := hm
      rw [if_pos hrid]
      exact ⟨_, rfl, rfl⟩

theorem Worked.tracked (h : Worked tx id e e' events) (hs : Sound e) (hg : Guarded e log)
    (ht : Tracked e log) : Tracked e' (log ++ events) := by
  cases h with
  | explored hx =>
    rw [List.append_nil]
    exact hx.tracked hs ht
  | changed hx hh hc =>
    have hg₁ : Guarded _ (log ++ []) := hg.follow ((Worked.explored hx).follows hg.marked)
    rw [List.append_nil] at hg₁
    exact (hx.tracked hs ht).changePage (hx.sound hs).1 hg₁ hh hc

/-! ## 4. Completing -/

/-- A pending change is on a page that its transaction changed. -/
theorem Tracked.mem_changedBy (ht : Tracked e log) (hs : Sound e) (hp : Pending log tx rid) :
    rid.page ∈ e.cache.changedBy tx := by
  obtain ⟨frame, hf, hd⟩ := ht.marked hp
  exact hs.proper.mem_changedBy_iff.mpr ⟨frame, hf, hd⟩

/-- On a page that a transaction changed nobody else has pending changes. -/
theorem Guarded.eq_of_pending (hg : Guarded e log) (hm : rid.page ∈ e.cache.changedBy tx)
    {other : Tx} (hp : Pending log other rid) : other = tx := by
  obtain ⟨frame, hf, hd⟩ := hg.marked.proper.mem_changedBy_iff.mp hm
  exact (hg.pending hp).unique (hg.marked.owns hf hd)

/-- What is pending after a completion is on a page that the completion left alone. -/
theorem Tracked.marked_of_cleans {commit : Bool} (ht : Tracked e log) (hs : Sound e)
    (hc : Cleans (e.cache.changedBy tx) e e₁) {owner : Tx}
    (hp : Pending (log ++ [.completed tx commit]) owner rid) :
    ∃ frame, e₁.cache.find? rid.page = some frame ∧ frame.page.dirty = some owner := by
  rcases hp.of_append with ⟨hold, hfate⟩ | ⟨vs, hm⟩
  · obtain ⟨frame, hf, hd⟩ := ht.marked hold
    have hnot : rid.page ∉ e.cache.changedBy tx := fun hm => by
      obtain ⟨frame', hf', hd'⟩ := hs.proper.mem_changedBy_iff.mp hm
      rw [hf] at hf'
      cases hf'
      rw [hd] at hd'
      cases hd'
      simp [fate] at hfate
    exact ⟨frame, (hc.find?_eq hnot).trans hf, hd⟩
  · simp at hm

/-- **A commit keeps what its transaction changed.** -/
theorem Tracked.commit (ht : Tracked e log) (hs : Sound e) (hg : Guarded e log)
    (h : e.complete tx true = (e', .ok ())) : Tracked e' (log ++ [.completed tx true]) := by
  obtain ⟨e₁, hflush, rfl⟩ := commit_ok h
  obtain ⟨-, hstored, hcontent⟩ := flushEach_rows hs hflush
  have hcut := cutAt_congr (flushEach_settles hflush).same.1
  have ht₁ : Tracked e₁ (log ++ [.completed tx true]) := by
    refine ⟨?_, ?_, ht.marked_of_cleans hs (flushEach_cleans hflush)⟩
    · intro r
      rw [hcontent, replay_live_commit, hcut]
      exact ht.content_eq r
    · intro r
      rw [hstored, hcut]
      split
      · rename_i hm
        rw [replay_kept_commit fun _ hp => hg.eq_of_pending hm hp]
        exact ht.content_eq r
      · rename_i hm
        rw [kept, replay_choose_of_not_pending _ _ fun hp => hm (ht.mem_changedBy hs hp)]
        exact ht.stored_eq r
  exact ⟨ht₁.content_eq, ht₁.stored_eq, ht₁.marked⟩

/-- **An abort takes back what its transaction changed.** -/
theorem Tracked.abort {r : Except Failure Unit} (ht : Tracked e log) (hs : Sound e)
    (hg : Guarded e log) (h : e.complete tx false = (e', r)) (hr : Returned r) :
    Tracked e' (log ++ [.completed tx false]) := by
  obtain ⟨e₁, hrevert, rfl⟩ := abort_returned h hr
  obtain ⟨-, hstored, hcontent⟩ := revertEach_rows hs hrevert hr
  have hcut := cutAt_congr (revertEach_changed_settles hs.proper hrevert).same.1
  have ht₁ : Tracked e₁ (log ++ [.completed tx false]) := by
    refine ⟨?_, ?_, ht.marked_of_cleans hs (revertEach_cleans hrevert hr)⟩
    · intro r
      rw [hcontent, hcut]
      split
      · rename_i hm
        rw [replay_live_abort fun _ hp => hg.eq_of_pending hm hp]
        exact ht.stored_eq r
      · rename_i hm
        rw [live, replay_choose_of_not_pending _ _ fun hp => hm (ht.mem_changedBy hs hp)]
        exact ht.content_eq r
    · intro r
      rw [hstored, replay_kept_abort, hcut]
      exact ht.stored_eq r
  exact ⟨ht₁.content_eq, ht₁.stored_eq, ht₁.marked⟩

/-! ## 5. New tables -/

/-- **A table is created on an empty file.** -/
def OpensEmpty (e : Engine) (file name : String) (schema : Schema) : Prop :=
  ∀ e' table, e.createTable file name schema = (e', .ok table) →
    e'.disk.length table.path = 0

theorem opensEmpty_of_createTable {file name : String} {schema : Schema}
    (h : e.createTable file name schema = (e', .ok table)) (hd : e'.disk.length table.path = 0) :
    e.OpensEmpty file name schema := by
  intro e₁ found hfound
  rw [h] at hfound
  cases hfound
  exact hd

/-- Nothing is seen and nothing stored in a table that is not registered. -/
theorem Sound.rows_of_unregistered (hs : Sound e) (hn : e.catalog.table? rid.page.table = none) :
    e.content rid = none ∧ e.stored rid = none := by
  have hstored : e.stored rid = none := by
    unfold stored storedPage
    rw [hn]
    rfl
  refine ⟨?_, hstored⟩
  cases hf : e.cache.find? rid.page with
  | none => rw [content_of_not_cached hf, hstored]
  | some frame =>
    obtain ⟨table, ht, -⟩ := hs.lodged hf
    rw [hn] at ht
    cases ht

namespace Created

variable {r : Except Failure TableFile}

/-- A table that is new has no page if its file is empty. -/
theorem storedPage_new (h : Created e e' r)
    (hempty : ∀ table, r = .ok table → e'.disk.length table.path = 0)
    (hn : e.catalog.table? pid.table = none) : e'.storedPage pid = none := by
  unfold Engine.storedPage
  rcases h.tables with hc | ⟨new, hr, -, -, hadd⟩
  · rw [hc, hn]
    rfl
  · rw [hadd]
    split
    · refine TableFile.pageAt_of_le ?_
      rw [TableFile.pageCount, hempty new hr, Nat.zero_div]
      exact Nat.zero_le _
    · rw [hn]
      rfl

theorem healthy (h : Created e e' r)
    (hempty : ∀ table, r = .ok table → e'.disk.length table.path = 0) (hh : Healthy e) :
    Healthy e' := by
  refine ⟨h.cache_eq ▸ hh.cache, fun hf => hh.frames (h.cache_eq ▸ hf),
    h.spoiled_eq.trans hh.handles, fun {id table} ht => ?_⟩
  have hold : e.catalog.table? id = some table →
      e'.disk.length table.path < Disk.positions ∧ table.pageCount e'.disk ≤ UInt32.size := by
    intro ht
    rw [← Disk.length_content, h.content_eq, Disk.length_content,
      TableFile.pageCount_congr (h.content_eq table.path)]
    exact hh.files ht
  rcases h.tables with hc | ⟨new, hr, -, -, hadd⟩
  · exact hold (hc ▸ ht)
  · rw [hadd] at ht
    split at ht
    · cases ht
      rw [TableFile.pageCount, hempty table hr, Nat.zero_div]
      exact ⟨by decide, Nat.zero_le _⟩
    · exact hold ht

theorem tidy (h : Created e e' r)
    (hempty : ∀ table, r = .ok table → e'.disk.length table.path = 0) (htidy : Tidy e) :
    Tidy e' := by
  intro pid page hp
  cases ht : e.catalog.table? pid.table with
  | none =>
    rw [h.storedPage_new hempty ht] at hp
    cases hp
  | some table => exact htidy pid page ((h.storedPage ht).symm.trans hp)

theorem tracked (h : Created e e' r)
    (hempty : ∀ table, r = .ok table → e'.disk.length table.path = 0) (hs : Sound e)
    (ht : Tracked e log) : Tracked e' log := by
  have hrows : ∀ rid, e'.content rid = (replay (live log) rid).map (e'.cutAt rid)
      ∧ e'.stored rid = (replay (kept log) rid).map (e'.cutAt rid) := by
    intro rid
    cases htable : e.catalog.table? rid.page.table with
    | none =>
      obtain ⟨hcontent, hstored⟩ := hs.rows_of_unregistered htable
      have hcached : e'.cache.find? rid.page = none := by
        rw [h.cache_eq]
        cases hf : e.cache.find? rid.page with
        | none => rfl
        | some frame =>
          obtain ⟨table, ht', -⟩ := hs.lodged hf
          rw [htable] at ht'
          cases ht'
      have hstored' : e'.stored rid = none := by
        unfold Engine.stored
        rw [h.storedPage_new hempty htable]
        rfl
      rw [ht.content_eq, Option.map_eq_none_iff] at hcontent
      rw [ht.stored_eq, Option.map_eq_none_iff] at hstored
      rw [content_of_not_cached hcached, hstored', hcontent, hstored]
      exact ⟨rfl, rfl⟩
    | some table =>
      obtain ⟨hstored, hcontent⟩ := h.rows htable
      have hcut : e'.cutAt rid = e.cutAt rid := by
        funext values
        unfold cutAt
        rw [h.table?_of_some htable, htable]
      rw [hstored, hcontent, hcut]
      exact ⟨ht.content_eq rid, ht.stored_eq rid⟩
  exact ⟨fun rid => (hrows rid).1, fun rid => (hrows rid).2, fun hp => h.cache_eq ▸ ht.marked hp⟩

end Created

end Engine

/-! ## 6. Runs -/

/-- **The calls of transactions**: requests and completions, but no flush; and the creation of a
table that is not known yet on an empty file. -/
def Call.Transactional (e : Engine) : Call → Prop
  | fetch .. | insert .. | delete .. | scan .. | complete .. => True
  | createTable file name schema =>
    e.RegistersOnce file name schema ∧ e.OpensEmpty file name schema
  | _ => False

theorem Call.Transactional.onTables {e : Engine} {c : Call} (h : c.Transactional e) :
    c.OnTables e := by
  cases c with
  | createTable file name schema => exact h.1
  | fetch _ _ _ => exact trivial
  | insert _ _ _ => exact trivial
  | delete _ _ => exact trivial
  | scan _ _ => exact trivial
  | complete _ _ => exact trivial
  | _ => cases h

theorem Call.Transactional.leavesLocks {e : Engine} {c : Call} (h : c.Transactional e) :
    c.LeavesLocks := by
  cases c with
  | releasePage _ _ => cases h
  | clear => cases h
  | _ => exact trivial

namespace Engine

variable {e e' : Engine} {log events : List Event}

/-- **All that holds along a run of transactions.** -/
structure Accounted (e : Engine) (log : List Event) : Prop where
  sound : Sound e
  guarded : Guarded e log
  healthy : Healthy e
  tidy : Tidy e
  tracked : Tracked e log

theorem Accounted.worked {tx : Tx} {id : TableId} (ha : Accounted e log)
    (h : Worked tx id e e' events) : Healthy e' ∧ Tidy e' ∧ Tracked e' (log ++ events) :=
  ⟨h.healthy ha.sound ha.healthy, h.tidy ha.sound ha.healthy ha.tidy,
    h.tracked ha.sound ha.guarded ha.tracked⟩

/-- **A completion returns**, and it leaves the store as the log says. -/
theorem Accounted.completed {tx : Tx} {commit : Bool} {r : Except Failure Unit}
    (ha : Accounted e log) (h : e.complete tx commit = (e', r)) :
    Returned r ∧ Healthy e' ∧ Tidy e' ∧ Tracked e' (log ++ [.completed tx commit]) := by
  have htidy : Tidy e' := by
    obtain ⟨e₁, hs, ⟨-, -, rfl⟩ | ⟨-, rfl⟩⟩ := complete_cases ha.sound.proper h
    · exact (hs.tidy ha.sound ha.tidy).congr fun _ => rfl
    · exact hs.tidy ha.sound ha.tidy
  cases commit with
  | true =>
    obtain ⟨d, hd, hh⟩ := commit_healthy ha.sound ha.healthy tx
    rw [h] at hd
    cases hd
    exact ⟨returned_ok _, hh, htidy, ha.tracked.commit ha.sound ha.guarded h⟩
  | false =>
    obtain ⟨hr, hh⟩ := abort_healthy ha.sound ha.healthy h
    exact ⟨hr, hh, htidy, ha.tracked.abort ha.sound ha.guarded h hr⟩

/-- A table that is created on an empty file adds no rows. -/
theorem Accounted.created {file name : String} {schema : Schema} {r : Except Failure TableFile}
    (ha : Accounted e log) (hone : e.RegistersOnce file name schema)
    (hempty : e.OpensEmpty file name schema) (h : e.createTable file name schema = (e', r)) :
    Healthy e' ∧ Tidy e' ∧ Tracked e' log := by
  have hcreated := createTable_cases hone h
  have hlen : ∀ table, r = .ok table → e'.disk.length table.path = 0 := by
    rintro table rfl
    exact hempty _ _ h
  exact ⟨hcreated.healthy hlen ha.healthy, hcreated.tidy hlen ha.tidy,
    hcreated.tracked hlen ha.sound ha.tracked⟩

/-- **Every call of a transaction keeps the account**: locks and pages as in any run, the rows by
what the call does. -/
theorem Accounted.call {c : Call} (ha : Accounted e log) (hc : c.Transactional e)
    (h : e.call c = (e', events)) : Accounted e' (log ++ events) := by
  have hrows : Healthy e' ∧ Tidy e' ∧ Tracked e' (log ++ events) := by
    by_cases hon : c.OnRows
    · obtain ⟨_, _, hw⟩ := worked_of_call ha.sound.proper hon h
      exact ha.worked hw
    cases c with
    | complete tx commit =>
      cases hr : e.complete tx commit with
      | mk d r =>
        simp only [Engine.call, hr] at h
        cases h
        obtain ⟨hret, hafter⟩ := ha.completed hr
        rwa [Event.ofCompletion_of_returned hret]
    | createTable file name schema =>
      cases h
      rw [List.append_nil]
      exact ha.created hc.1 hc.2 rfl
    | _ => exact absurd hc hon
  obtain ⟨hhealthy, htidy, htracked⟩ := hrows
  exact ⟨ha.sound.call hc.onTables h,
    ha.guarded.follow (follows_of_call ha.guarded.marked hc.leavesLocks h), hhealthy, htidy,
    htracked⟩

/-- A new store whose handles were never used. -/
theorem accounted_new (config : Config) (folders : List Path) (files : List (Path × FileContent)) :
    Accounted { config := config, disk := { folders := folders, files := files } } [] where
  sound := sound_new config _
  guarded := guarded_new config _
  healthy := ⟨rfl, fun h => (by cases h), rfl, fun h => (by cases h)⟩
  tidy pid page h := by cases h
  tracked := ⟨fun rid => ((sound_new config _).rows_of_unregistered rfl).1,
    fun rid => ((sound_new config _).rows_of_unregistered rfl).2,
    fun hp => absurd hp (not_pending_nil _ _)⟩

end Engine

open Engine

theorem Run.accounted {start e : Engine} {log : List Event} (ha : Accounted start [])
    (h : Run (fun e c => c.Transactional e) start e log) : Accounted e log := by
  induction h with
  | nil => exact ha
  | call c _ hc he ih => exact ih.call hc he

/-- The values that stand in a table's file at a record id, as they are read. -/
def TableFile.valuesAt (t : TableFile) (disk : Disk) (rid : RecordId) : Option (List Value) :=
  ((t.pageAt disk rid.page).bind fun page => page.row? rid.slot).map Row.values

/-- **Transactions are atomic.**  At every moment of a run of transactions from a new store, over
tables that were created once on empty files, what stands in a table's file is what the log leads to
if the changes are applied, in their order, whose transaction's next completion is a commit, every
value cut to its column.

Reading through the table gives exactly the pages that stand there.  The one exception is a file of
as many pages as 32 bits have values, for which the count that a page's index is checked against is
zero.  Inserts can make a file that long, and none that is longer. -/
theorem atomic {config : Config} {folders : List Path} {files : List (Path × FileContent)}
    {e : Engine} {log : List Event}
    (h : Run (fun e c => c.Transactional e)
      { config := config, disk := { folders := folders, files := files } } e log)
    {id : TableId} {table : TableFile} (ht : e.catalog.table? id = some table) :
    (∀ rid, rid.page.table = id → table.valuesAt e.disk rid
        = (replay (kept log) rid).map fun values => Row.cutValues values table.schema.columns)
      ∧ table.pageCount e.disk ≤ UInt32.size
      ∧ (table.pageCount e.disk < UInt32.size → ∀ pid, pid.table = id →
        (table.readPage e.disk pid).toOption = table.pageAt e.disk pid) := by
  have ha := h.accounted (accounted_new config folders files)
  obtain ⟨hid, -⟩ := ha.sound.tables ht
  refine ⟨?_, (ha.healthy.files ht).2, fun hc pid hpid =>
    TableFile.readPage_eq (ha.healthy.usable _) (hpid.trans hid.symm) hc⟩
  intro rid hrid
  have hstored := ha.tracked.stored_eq rid
  have hcut : e.cutAt rid = fun values => Row.cutValues values table.schema.columns := by
    funext values
    unfold cutAt
    rw [hrid, ht]
  have hpage : e.storedPage rid.page = table.pageAt e.disk rid.page := by
    unfold storedPage
    rw [hrid, ht]
    rfl
  rw [hcut] at hstored
  rw [← hstored, stored, hpage, TableFile.valuesAt]
  cases hat : table.pageAt e.disk rid.page with
  | none => rfl
  | some page => exact (Page.cells_of_asStored_eq (ha.tidy _ page (hpage.trans hat)) rid.slot).symm

namespace Sample

/-- The store after a first transaction put a row. -/
def inserted : Engine := (opened.call (.insert ⟨1⟩ table.id ⟨[.int 5], none⟩)).1

/-- The store after that transaction committed. -/
def committed : Engine := (inserted.call (.complete ⟨1⟩ true)).1

/-- The store after a second transaction put a row beside it. -/
def second : Engine := (committed.call (.insert ⟨2⟩ table.id ⟨[.int 6], none⟩)).1

/-- The store after the second transaction aborted. -/
def aborted : Engine := (second.call (.complete ⟨2⟩ false)).1

/-- What happened until then. -/
def history : List Event :=
  [.changed ⟨1⟩ first (some [.int 5]), .completed ⟨1⟩ true,
    .changed ⟨2⟩ ⟨table.pageId 0, 1⟩ (some [.int 6]), .completed ⟨2⟩ false]

theorem run_opened : Run (fun e c => c.Transactional e) start opened [] :=
  .call (.createTable "t" "t" schema) .nil
    ⟨registersOnce_start, opensEmpty_of_createTable createTable_start rfl⟩
    (by simp only [call, createTable_start])

theorem call_inserted : opened.call (.insert ⟨1⟩ table.id ⟨[.int 5], none⟩)
    = (inserted, [.changed ⟨1⟩ first (some [.int 5])]) :=
  Prod.ext (by rw [inserted]) (by rfl)

theorem call_committed : inserted.call (.complete ⟨1⟩ true)
    = (committed, [.completed ⟨1⟩ true]) :=
  Prod.ext (by rw [committed]) (by rfl)

theorem call_second : committed.call (.insert ⟨2⟩ table.id ⟨[.int 6], none⟩)
    = (second, [.changed ⟨2⟩ ⟨table.pageId 0, 1⟩ (some [.int 6])]) :=
  Prod.ext (by rw [second]) (by rfl)

theorem run_committed : Run (fun e c => c.Transactional e) start committed (history.take 2) := by
  have h : Run _ start inserted (history.take 1) :=
    run_opened.call (.insert ⟨1⟩ table.id ⟨[.int 5], none⟩) trivial call_inserted
  exact h.call (.complete ⟨1⟩ true) trivial call_committed

theorem run_aborted : Run (fun e c => c.Transactional e) start aborted history := by
  have haborted : (second.call (.complete ⟨2⟩ false)).2 = [.completed ⟨2⟩ false] := by
    decide +kernel
  have h : Run _ start second (history.take 3) :=
    run_committed.call (.insert ⟨2⟩ table.id ⟨[.int 6], none⟩) trivial call_second
  exact h.call (.complete ⟨2⟩ false) trivial (Prod.ext (by rw [aborted]) haborted)

theorem table?_aborted : aborted.catalog.table? table.id = some table := by
  decide +kernel

end Sample

/-- After one transaction committed a row and another aborted one, the first row stands in the file
and the second does not. -/
theorem atomic_first :
    Run (fun e c => c.Transactional e) Sample.start Sample.aborted Sample.history
      ∧ Sample.aborted.catalog.table? Sample.table.id = some Sample.table
      ∧ Sample.table.valuesAt Sample.aborted.disk Sample.first = some [.int 5]
      ∧ Sample.table.valuesAt Sample.aborted.disk ⟨Sample.table.pageId 0, 1⟩ = none := by
  have h := (atomic Sample.run_aborted Sample.table?_aborted).1
  exact ⟨Sample.run_aborted, Sample.table?_aborted, h _ rfl, h _ rfl⟩

end RowStore
