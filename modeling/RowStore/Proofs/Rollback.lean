import RowStore.Proofs.Durability
import RowStore.Proofs.Engine.Resolving
import RowStore.Proofs.Isolation

/-!
# An abort rolls back exactly its own transaction

An abort that goes through changes no file.  The pages of its transaction stand at the back of the
cache, clean, as they are read from disk; every other page is where and what it was, and of the
locks only those of the transaction are gone (`Engine.RollsBack`).

What is read then is what stood there before the transaction changed anything.  From a change on,
as long as pages are written by nothing but completions and the transaction keeps its locks, the
page is locked by the transaction and bears no other mark than its own, so that nobody else's commit
writes it (`Engine.Withheld`).  Main statement: `abort_rolls_back`.
-/

namespace RowStore

namespace Engine

variable {dir : Directory} {e e' e₁ : Engine} {tx other : Tx} {pid : PageId}
  {pids : List PageId} {frame : Frame}
  {id : TableId} {events : List Event}

/-! ## 1. Reverting -/

/-- **What reverting some pages does** when none of them fails. -/
structure Reverted (pids : List PageId) (e e' : Engine) : Prop where
  disk_eq : e'.disk = e.disk
  catalog_eq : e'.catalog = e.catalog
  /-- The pages are what is read from disk. -/
  restored : ∀ {pid : PageId}, pid ∈ pids → ∃ frame, e'.cache.find? pid = some frame
    ∧ e.readPage pid = .ok frame.page
  find?_eq : ∀ {pid : PageId}, pid ∉ pids → e'.cache.find? pid = e.cache.find? pid
  /-- The pages stand at the back, the others in front of them, each in their order. -/
  pids_eq : e'.cache.pids = (e.cache.pids.filter fun pid => pid ∉ pids) ++ pids

/-- **Reverting without a failure** is dropping the pages and reading all of them again. -/
theorem revertEach_reverted (hp : e.cache.Proper) (hn : pids.Nodup)
    (h : revertEach pids e = (e', .ok ())) : Reverted pids e e' := by
  obtain ⟨dropped, rest, rfl, hd, hret⟩ := revertEach_reread hp hn h
  obtain rfl := hret (returned_ok _)
  have hcached : ∀ {pid : PageId}, pid ∈ dropped → ∃ frame, e'.cache.find? pid = some frame
      ∧ e.readPage pid = .ok frame.page := fun {pid} hm => by
    obtain ⟨page, hread⟩ := readPage_of_revertEach h (List.mem_append_left [] hm)
    rcases hd.reread hm with ⟨frame, hf, hframe, -⟩ | ⟨-, f, hfail⟩
    · exact ⟨frame, hf, hframe⟩
    · rw [hread] at hfail
      cases hfail
  rw [List.append_nil]
  refine ⟨hd.disk_eq, hd.catalog_eq, hcached, hd.find?_eq, ?_⟩
  rw [hd.pids_eq]
  refine congrArg _ (List.filter_eq_self.mpr fun pid hm => ?_)
  obtain ⟨frame, hf, -⟩ := hcached hm
  rw [hf]
  rfl

/-! ## 2. Aborts -/

/-- **What an abort does that goes through.** -/
structure RollsBack (tx : Tx) (e e' : Engine) : Prop where
  disk_eq : e'.disk = e.disk
  /-- Every page the transaction changed is cached, clean, and what is read from disk. -/
  restored : ∀ {pid : PageId}, pid ∈ e.cache.changedBy tx → ∃ frame,
    e'.cache.find? pid = some frame ∧ frame.page.dirty = none
      ∧ e'.readPage pid = .ok frame.page
  /-- Every other page is cached as before. -/
  find?_eq : ∀ {pid : PageId}, pid ∉ e.cache.changedBy tx →
    e'.cache.find? pid = e.cache.find? pid
  /-- The pages of the transaction stand at the back, the others in front of them, each in their
  order. -/
  pids_eq : e'.cache.pids
    = (e.cache.pids.filter fun pid => pid ∉ e.cache.changedBy tx) ++ e.cache.changedBy tx
  /-- The transaction holds no lock, and all others hold theirs. -/
  locks : LockTable.Frees tx e.locks e'.locks

/-- **An abort that goes through rolls back**, in any state. -/
theorem Orderly.abort (ho : Orderly e) (h : e.complete tx false = (e', .ok ())) :
    RollsBack tx e e' := by
  obtain ⟨e₁, hrevert, rfl⟩ := abort_returned h (returned_ok _)
  have hr := revertEach_reverted ho.proper (ho.proper.nodup_changedBy tx) hrevert
  have hlocks := (revertEach_changed_settles ho.proper hrevert).same.2
  refine ⟨hr.disk_eq, ?restored, hr.find?_eq, hr.pids_eq, ?locks⟩
  case restored =>
    intro pid hm
    obtain ⟨frame, hf, hread⟩ := hr.restored hm
    have hread' : e₁.readPage pid = .ok frame.page :=
      (readPage_congr hr.catalog_eq hr.disk_eq pid).trans hread
    exact ⟨frame, hf, (readPage_eq_ok hread).2, hread'⟩
  case locks =>
    simp only [hlocks]
    exact ho.consistent.frees tx

/-! ## 3. What a completion writes -/

theorem flushPage_differs {r : Except Failure Unit} (ho : Orderly e) (hu : Filed dir e)
    (h : e.flushPage pid = (e', r)) :
    Disk.Differs dir e.config.pageSize [pid] e.disk e'.disk := by
  rcases flushPage_cases h with ⟨rfl, -⟩ | ⟨frame, table, disk, hf, ht, hw, rfl, -⟩ | ⟨hh, -⟩
  · exact .of_content _ fun _ => rfl
  · exact (hu.write ho.proper hf ht hw).1
  · exact .of_content _ (content_of_files hh.files_eq)

/-- **A flush of some pages writes no other**, also where it fails or stops. -/
theorem flushEach_differs {r : Except Failure Unit} (ho : Orderly e) (hu : Filed dir e)
    (h : flushEach pids e = (e', r)) : Disk.Differs dir e.config.pageSize pids e.disk e'.disk := by
  induction pids generalizing e with
  | nil =>
    cases h
    exact .of_content _ fun _ => rfl
  | cons pid pids ih =>
    rcases flushEach_cons_cases h with ⟨f, hp, -⟩ | ⟨e₁, hp, hrest⟩
    · exact (flushPage_differs ho hu hp).cons (.of_content _ fun _ => rfl)
    · have hmoves := (flushPage_settles hp).moves
      have hd := ih (hmoves.orderly ho) (hmoves.filed ho hu) hrest
      rw [hmoves.config_eq] at hd
      exact (flushPage_differs ho hu hp).cons hd

theorem flushChanged_differs {r : Except Failure Unit} (ho : Orderly e) (hu : Filed dir e)
    (h : e.flushChanged tx = (e', r)) :
    Disk.Differs dir e.config.pageSize (e.cache.changedBy tx) e.disk e'.disk := by
  rcases flushChanged_cases h with ⟨hh, -⟩ | hflush
  · exact .of_content _ (content_of_files hh.files_eq)
  · exact flushEach_differs ho hu hflush

theorem conclude_differs {commit : Bool} {r : Except Failure Unit} (ho : Orderly e)
    (hu : Filed dir e) (h : e.conclude tx commit = (e', r)) :
    Disk.Differs dir e.config.pageSize (e.cache.changedBy tx) e.disk e'.disk := by
  unfold conclude at h
  split at h
  · -- a commit that cannot write a page reverts the rest, which writes nothing
    unfold settle at h
    split at h
    · rename_i e₁ _ hf
      cases h
      exact flushChanged_differs ho hu hf
    · rename_i e₁ f hf
      have hd := flushChanged_differs ho hu hf
      split at h
      · cases h
        exact hd
      · cases h
        exact hd.trans (.of_content _ (content_of_files (by rw [revertChanged_disk rfl])))
  · exact .of_content _ (content_of_files (by rw [revertChanged_disk h]))

/-- **A completion writes pages of its own transaction only**, however it ends. -/
theorem complete_differs {commit : Bool} {r : Except Failure Unit} (ho : Orderly e)
    (hu : Filed dir e) (h : e.complete tx commit = (e', r)) :
    Disk.Differs dir e.config.pageSize (e.cache.changedBy tx) e.disk e'.disk := by
  unfold complete at h
  split at h
  · rename_i e₁ _ hc
    cases h
    exact (conclude_differs ho hu hc :)
  · rename_i e₁ f hc
    cases h
    have hd := conclude_differs ho hu hc
    split <;> exact hd

/-! ## 4. Pages that nobody else can write -/

/-- **A page that is withheld from all others**: the transaction is its sole holder, no mark on it is
anybody else's, and on disk it has these bytes. -/
structure Withheld (dir : Directory) (tx : Tx) (pid : PageId) (bytes : List UInt8) (e : Engine) :
    Prop where
  owns : e.locks.Owns tx pid
  marks : ∀ {frame : Frame} {other : Tx}, e.cache.find? pid = some frame →
    frame.page.dirty = some other → other = tx
  inside : e.disk.Holds dir e.config.pageSize pid
  bytes_eq : e.disk.pageBytes dir e.config.pageSize pid = bytes

namespace Withheld

variable {bytes : List UInt8}

/-- No other transaction has changed the page. -/
theorem not_mem_changedBy (hw : Withheld dir tx pid bytes e) (hp : e.cache.Proper)
    (hne : other ≠ tx) :
    pid ∉ e.cache.changedBy other := by
  intro hm
  obtain ⟨frame, hf, hd⟩ := hp.mem_changedBy_iff.mp hm
  exact hne (hw.marks hf hd)

/-- Locks that grow, marks that were there, and a disk on which the page is the same. -/
theorem of_grows (hw : Withheld dir tx pid bytes e) (hg : e.locks.Grows e'.locks)
    (hc : e'.config = e.config)
    (hmarks : ∀ {frame : Frame}, e'.cache.find? pid = some frame → frame.page.dirty ≠ none →
      e.cache.find? pid = some frame)
    (hlen : ∀ path, e.disk.length path ≤ e'.disk.length path)
    (hbytes : e'.disk.pageBytes dir e.config.pageSize pid
      = e.disk.pageBytes dir e.config.pageSize pid) :
    Withheld dir tx pid bytes e' where
  owns := hg.owns hw.owns
  marks hf hd := hw.marks (hmarks hf (by rw [hd]; exact Option.some_ne_none _)) hd
  inside := hc.symm ▸ hw.inside.mono hlen
  bytes_eq := by rw [hc, hbytes, hw.bytes_eq]

theorem fetches (hw : Withheld dir tx pid bytes e) (ho : Orderly e) (h : Fetches other e e') :
    Withheld dir tx pid bytes e' := by
  have hdisk := h.same.2
  refine hw.of_grows h.grows h.moves.config_eq (h.find?_of_dirty ho.proper) (fun _ => ?_) ?_
  · exact Nat.le_of_eq (by rw [hdisk])
  · rw [hdisk]

/-- **Exploring leaves the page alone**, also where it writes an empty one behind the last. -/
theorem explored (hw : Withheld dir tx pid bytes e) (ho : Orderly e) (hu : Filed dir e)
    (h : Explored other id e e') : Withheld dir tx pid bytes e' := by
  cases h with
  | within hf => exact hw.fetches ho hf
  | @beyond table e₁ _ disk r ht hf hfull ha hf' =>
    have hw₁ := hw.fetches ho hf
    have ho₁ := hf.orderly ho
    have hu₁ := hf.moves.filed ho hu
    obtain ⟨hcat, hdisk⟩ := hf.same
    have hcount : table.pageCount e₁.disk < UInt32.size := hdisk ▸ ho.lt_of_seenFull hfull
    have hsize := (hu₁.tables (hcat ▸ ht)).pageSize_eq
    obtain ⟨hlen, hbytes⟩ := pageBytes_appendPage hcount ha
    rw [hsize] at hbytes
    have happ : Withheld dir tx pid bytes { e₁ with disk := disk } :=
      hw₁.of_grows (.refl _) rfl (fun hf _ => hf) hlen (hbytes dir pid hw₁.inside)
    have hmove : Move e₁ { e₁ with disk := disk } := .append (hcat ▸ ht) hcount ha
    exact happ.fetches (hmove.orderly ho₁) hf'

/-- **Whoever changes a page that is withheld is its owner.** -/
theorem worked (hw : Withheld dir tx pid bytes e) (ho : Orderly e) (hu : Filed dir e)
    (h : Worked other id e e' events) : Withheld dir tx pid bytes e' := by
  cases h with
  | explored hx => exact hw.explored ho hu hx
  | @changed e₁ p frame page rid values hx hh hc =>
    have hw₁ := hw.explored ho hu hx
    refine ⟨hw₁.owns, fun {found marker} hf hd => ?_, hw₁.inside, hw₁.bytes_eq⟩
    rw [find?_changePage] at hf
    split at hf
    · rename_i he
      cases hf
      cases hd
      exact (hh.owns rfl).unique (he ▸ hw₁.owns)
    · exact hw₁.marks hf hd

/-- **The completion of another transaction leaves the page alone**, however it ends. -/
theorem complete {commit : Bool} {r : Except Failure Unit} (hw : Withheld dir tx pid bytes e)
    (ho : Orderly e) (hu : Filed dir e) (hne : other ≠ tx)
    (h : e.complete other commit = (e', r)) : Withheld dir tx pid bytes e' := by
  have hd := complete_differs ho hu h
  have hbytes := hd.pageBytes_eq (hw.not_mem_changedBy ho.proper hne)
  have hconfig := (complete_moves ho.proper h).config_eq
  have hinside : e'.disk.Holds dir e'.config.pageSize pid := by
    rw [hconfig]
    exact hw.inside.mono fun path => Nat.le_of_eq (hd.length_eq path).symm
  have hbytes' : e'.disk.pageBytes dir e'.config.pageSize pid = bytes := by
    rw [hconfig, hbytes, hw.bytes_eq]
  obtain ⟨e₁, hs, hend⟩ := complete_cases ho.proper h
  have hmarks : ∀ {frame : Frame} {marker : Tx}, e₁.cache.find? pid = some frame →
      frame.page.dirty = some marker → marker = tx := by
    intro frame marker hf hm
    obtain ⟨old, hold, he⟩ := hs.dirty hf (by rw [hm]; exact Option.some_ne_none _)
    exact hw.marks hold (by rw [he, hm])
  have howns : e₁.locks.Owns tx pid := hs.same.2.symm ▸ hw.owns
  rcases hend with ⟨-, -, rfl⟩ | ⟨-, rfl⟩
  · exact ⟨howns.releaseAll (Ne.symm hne), hmarks, hinside, hbytes'⟩
  · exact ⟨howns, hmarks, hinside, hbytes'⟩

/-- What the owner, the marks and the disk are is all that matters. -/
theorem of_same (hw : Withheld dir tx pid bytes e) (hg : e'.config = e.config)
    (hl : e'.locks = e.locks) (hcontent : ∀ path, e'.disk.content path = e.disk.content path)
    (hcache : ∀ {frame : Frame}, e'.cache.find? pid = some frame →
      e.cache.find? pid = some frame) : Withheld dir tx pid bytes e' :=
  hw.of_grows (hl ▸ .refl _) hg (fun hf _ => hcache hf)
    (Disk.length_le_congr hcontent)
    (Disk.pageBytes_congr fun path i _ => by rw [hcontent])

end Withheld

end Engine

/-! ## 5. Runs -/

/-- **The calls that leave a transaction's pages to it**: no flush, no dropping of the cache, no
early release of a lock, and no completion of the transaction itself. -/
def Call.Spares (dir : Directory) (tx : Tx) (e : Engine) : Call → Prop
  | complete other _ => other ≠ tx
  | flushPage _ | flushChanged _ | flushAll | clear | releasePage .. => False
  | c => c.Filed dir e

theorem Call.Spares.filed {dir : Directory} {tx : Tx} {e : Engine} {c : Call}
    (h : c.Spares dir tx e) : c.Filed dir e := by
  cases c with
  | complete => exact ⟨trivial, fun hr => hr.elim⟩
  | flushPage | flushChanged | flushAll | releasePage | clear => exact h.elim
  | _ => exact h

namespace Engine

variable {dir : Directory} {e e' e₁ : Engine} {tx : Tx} {pid : PageId} {rid : RecordId}
  {bytes : List UInt8}
  {values : Option (List Value)} {id : TableId} {events log : List Event}

theorem Withheld.call {c : Call} (hw : Withheld dir tx pid bytes e) (ho : Orderly e)
    (hu : Filed dir e) (hc : c.Spares dir tx e) (h : e.call c = (e', events)) :
    Withheld dir tx pid bytes e' := by
  by_cases hrows : c.OnRows
  · obtain ⟨other, id, hworked⟩ := worked_of_call ho.proper hrows h
    exact hw.worked ho hu hworked
  cases c with
  | complete other commit =>
    cases h
    exact hw.complete ho hu hc rfl
  | removePage p =>
    cases h
    rcases e.removePage_cases p with he | he
    · exact he.symm ▸ hw
    · exact he.symm ▸ hw.of_same rfl rfl (fun _ => rfl) find?_of_remove
  | createTable file name schema =>
    cases h
    have hopens := e.createTable_opens file name schema
    exact hw.of_same hopens.config_eq hopens.locks_eq hopens.content_eq fun hf => hopens.cache_eq ▸ hf
  | register table name =>
    cases h
    exact hw.of_same rfl rfl (fun _ => rfl) fun hf => hf
  | unregister table =>
    cases h
    exact hw.of_same rfl rfl (fun _ => rfl) fun hf => hf
  | forgetTables =>
    cases h
    exact hw.of_same rfl rfl (fun _ => rfl) fun hf => hf
  | fetch | insert | delete | scan => exact absurd trivial hrows
  | flushPage | flushChanged | flushAll | releasePage | clear => cases hc

theorem Run.withheld {start : Engine} (ho : Orderly start) (hu : Filed dir start)
    (hw : Withheld dir tx pid bytes start) (h : Run (fun e c => c.Spares dir tx e) start e log) :
    Withheld dir tx pid bytes e ∧ Filed dir e := by
  induction h with
  | nil => exact ⟨hw, hu⟩
  | call c hr hc he ih =>
    have ho' := Run.orderly ho hr
    exact ⟨ih.1.call ho' ih.2 hc he, ih.2.call ho' hc.filed he⟩

/-! ## 6. The first change -/

/-- A page that an append brings into its file is empty. -/
theorem pageBytes_appended {table : TableFile} {d d' : Disk} (ha : table.Appends d d')
    (hroomy : table.Roomy) (hnot : ¬d.Holds dir table.pageSize pid)
    (hin : d'.Holds dir table.pageSize pid) :
    d'.pageBytes dir table.pageSize pid = Bytes.zeros table.pageSize := by
  obtain ⟨path, hpath, hstop⟩ := hin
  by_cases hp : path = table.path
  · subst hp
    have hindex : pid.index.toNat < table.pageCount d' :=
      index_lt_of_stop_le hroomy hstop
    rw [ha.pageCount_eq hroomy] at hindex
    have hle : table.pageCount d ≤ pid.index.toNat := by
      apply Nat.le_of_not_lt
      intro hlt
      exact hnot ⟨_, hpath, TableFile.stop_le_length hlt⟩
    have hoffset : pid.offset table.pageSize = table.pageCount d * table.pageSize := by
      rw [PageId.offset, Nat.le_antisymm (Nat.le_of_lt_succ hindex) hle]
    have hslice := Bytes.slice_writeAt_self (d.content table.path)
      (table.pageCount d * table.pageSize) (Bytes.zeros table.pageSize)
    rw [Bytes.length_zeros] at hslice
    rw [Disk.pageBytes_of_path hpath, hoffset, ha.disk_eq, Disk.content_writeAt_self, hslice]
  · refine absurd ⟨path, hpath, ?_⟩ hnot
    rwa [← Disk.length_content, ha.content_of_ne hp, Disk.length_content] at hstop

/-- **The bytes of a page before an exploration**, or zeros if it was not in its file yet. -/
theorem Explored.pageBytes (h : Explored tx id e e') (ho : Orderly e) (hu : Filed dir e)
    (hin : e'.disk.Holds dir e.config.pageSize pid) :
    (e.disk.Holds dir e.config.pageSize pid →
        e'.disk.pageBytes dir e.config.pageSize pid = e.disk.pageBytes dir e.config.pageSize pid)
      ∧ (¬e.disk.Holds dir e.config.pageSize pid →
        e'.disk.pageBytes dir e.config.pageSize pid = Bytes.zeros e.config.pageSize) := by
  cases h with
  | within hf =>
    rw [hf.same.2] at hin ⊢
    exact ⟨fun _ => rfl, fun hnot => absurd hin hnot⟩
  | @beyond table e₁ _ disk r ht hf hfull ha hf' =>
    obtain ⟨-, -, hsize, hroomy⟩ := hu.tables ht
    have hcount : table.pageCount e₁.disk < UInt32.size := hf.same.2 ▸ ho.lt_of_seenFull hfull
    have hmore := appends_or_same hcount ha
    rw [hf'.same.2] at hin ⊢
    rw [hf.same.2] at hmore
    rw [← hsize] at hin ⊢
    rcases hmore with hmore | hsame
    · exact ⟨(Disk.pageBytes_append hmore).2 dir pid,
        fun hnot => pageBytes_appended hmore hroomy hnot hin⟩
    · have hbefore : e.disk.Holds dir table.pageSize pid :=
        hin.mono (Disk.length_le_congr fun path => (hsame path).symm)
      exact ⟨fun _ => Disk.pageBytes_congr fun path i _ => by rw [hsame],
        fun hnot => absurd hbefore hnot⟩

/-- Only a call that works on rows logs a change. -/
theorem worked_of_changed {c : Call} (hp : e.cache.Proper) (h : e.call c = (e', events))
    (hm : .changed tx rid values ∈ events) : ∃ other id, Worked other id e e' events := by
  by_cases hpages : c.UsesPages
  · cases did_of_call hp hpages h with
    | worked hw => exact ⟨_, _, hw⟩
    | settled _ => cases hm
    | completed _ _ => simp at hm
  · cases c with
    | removePage | createTable | register | unregister | forgetTables | releasePage | clear =>
      cases h
      cases hm
    | _ => exact absurd trivial hpages

/-- A call that logs a change registers no table. -/
theorem filed_of_changed {c : Call} (h : e.call c = (e', events))
    (hm : .changed tx rid values ∈ events) : c.Filed dir e := by
  cases c with
  | createTable | register =>
    cases h
    cases hm
  | _ => exact ⟨trivial, fun hr => hr.elim⟩

/-- **From its change on, a page is withheld from all others**, with the bytes it had before. -/
theorem withheld_of_changed {c : Call} (ho : Orderly e) (hu : Filed dir e)
    (h : e.call c = (e', events)) (hm : .changed tx rid values ∈ events) :
    Withheld dir tx rid.page (e'.disk.pageBytes dir e'.config.pageSize rid.page) e'
      ∧ (e.disk.Holds dir e.config.pageSize rid.page →
        e'.disk.pageBytes dir e.config.pageSize rid.page
          = e.disk.pageBytes dir e.config.pageSize rid.page)
      ∧ (¬e.disk.Holds dir e.config.pageSize rid.page →
        e'.disk.pageBytes dir e.config.pageSize rid.page = Bytes.zeros e.config.pageSize) := by
  obtain ⟨other, id, hw⟩ := worked_of_changed ho.proper h hm
  cases hw with
  | explored _ => cases hm
  | @changed e₁ pid frame page _ _ hx hh hc =>
    simp only [List.mem_singleton, Event.changed.injEq] at hm
    obtain ⟨rfl, rfl, rfl⟩ := hm
    have hmoves := hx.moves ho
    have ho₁ := hmoves.orderly ho
    have hu₁ := hmoves.filed ho hu
    obtain rfl : rid.page = pid := hc.same.1.trans (ho₁.proper.keyed hh.cached)
    have hin := hu₁.holds hh.cached
    refine ⟨⟨hh.owns rfl, fun {found marker} hf hd => ?_, hin, rfl⟩, ?_⟩
    · rw [find?_changePage, if_pos rfl] at hf
      cases hf
      cases hd
      rfl
    · rw [hmoves.config_eq] at hin
      exact hx.pageBytes ho hu hin

end Engine

open Engine

/-- **An abort rolls back exactly its own transaction.**  In every state that a new store reaches,
over any files and by any calls, an abort that goes through changes no file; every page that its
transaction changed is cached, clean, and what is read from disk, and these pages stand at the back
in their order; every other page is where and what it was; the transaction holds no lock, and all
others hold theirs.

Moreover, take a change of the transaction, made while all tables had pages of the store's size and
no two files had one id, and suppose that since then the transaction was not completed, no page was
flushed otherwise than by the completion of another transaction, the cache was not dropped and no
lock released early.  Then the changed page has on disk the bytes it had before the change, or zeros
if it was appended for it. -/
theorem abort_rolls_back {config : Config} {disk : Disk} {e e' : Engine} {log : List Event}
    {tx : Tx} (h : Run (fun _ _ => True) { config := config, disk := disk } e log)
    (ha : e.complete tx false = (e', .ok ())) :
    RollsBack tx e e'
      ∧ ∀ (dir : Directory) e₀ e₁ before events after c rid values,
        Run (fun e c => c.Filed dir e) { config := config, disk := disk } e₀ before →
        e₀.call c = (e₁, events) → .changed tx rid values ∈ events →
        Run (fun e c => c.Spares dir tx e) e₁ e after →
        (e₀.disk.Holds dir config.pageSize rid.page → e'.disk.pageBytes dir config.pageSize rid.page
            = e₀.disk.pageBytes dir config.pageSize rid.page)
          ∧ (¬e₀.disk.Holds dir config.pageSize rid.page →
            e'.disk.pageBytes dir config.pageSize rid.page = Bytes.zeros config.pageSize) := by
  have hnew := orderly_new config disk
  have hroll := (h.orderly hnew).abort ha
  refine ⟨hroll, fun dir e₀ e₁ before events after c rid values hr hcall hm hafter => ?_⟩
  have ho₀ := hr.orderly hnew
  have hu₀ := hr.filed hnew (filed_new dir config disk)
  have ho₁ := ho₀.call c hcall
  obtain ⟨hw, hbefore⟩ := withheld_of_changed ho₀ hu₀ hcall hm
  have hu₁ := hu₀.call ho₀ (filed_of_changed hcall hm) hcall
  have hbytes := (Run.withheld ho₁ hu₁ hw hafter).1.bytes_eq
  have hconfig₀ : e₀.config = config := hr.config_eq hnew
  have hconfig₁ := (ho₀.config_eq c hcall).trans hconfig₀
  have hconfig := (hafter.config_eq ho₁).trans hconfig₁
  rw [hconfig, hconfig₁] at hbytes
  rw [hconfig₀] at hbefore
  rw [hroll.disk_eq, hbytes]
  exact hbefore

/-- A second row was put on the page where the first one is committed: when its transaction aborts,
the page has on disk what it had before. -/
theorem abort_rolls_back_second : ∃ log e',
    Run (fun _ _ => True) Sample.start Sample.second log
      ∧ Sample.second.complete ⟨2⟩ false = (e', .ok ())
      ∧ e'.disk = Sample.second.disk
      ∧ e'.disk.pageBytes .paths 40 Sample.first.page
        = Sample.committed.disk.pageBytes .paths 40 Sample.first.page := by
  have hbefore :=
    (Sample.run_committed.mono Call.Transactional.oneSize).on_paths (orderly_new _ _) rfl
  have hrun := (hbefore.mono fun _ => trivial).call _ trivial Sample.call_second
  have hok : (Sample.second.complete ⟨2⟩ false).2.toOption = some () := by decide +kernel
  rcases ha : Sample.second.complete ⟨2⟩ false with ⟨e', r | u⟩
  · rw [ha] at hok
    cases hok
  · obtain ⟨hroll, hbytes⟩ := abort_rolls_back hrun ha
    have hheld : Sample.committed.disk.Holds .paths 40 Sample.first.page :=
      ⟨Sample.table.path, rfl, by decide +kernel⟩
    exact ⟨_, e', hrun, rfl, hroll.disk_eq,
      (hbytes _ _ _ _ _ _ _ _ _ hbefore Sample.call_second List.mem_cons_self .nil).1 hheld⟩

end RowStore
