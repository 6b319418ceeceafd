import RowStore.Proofs.Cleanup
import RowStore.Proofs.Lock.Granting

/-!
# A request for a page is all or nothing

A request locks, looks into the cache, finds the table, reads the page, makes room for it and puts
it into the cache, in this order, and may fail at each of these points.

* **It is denied** exactly if somebody else's lock is in the way, and then nothing has changed.
* **It fails under its lock** (`Engine.OnlyLocks`): the table is unknown, the page is not there, or
  there is no room.  Then nothing but the lock has changed; room is made only for a page that has
  been read, so that no page leaves for one that cannot be loaded.
* **It hands the page out** (`Engine.Obtains`): the cached one, or the one that the bytes of the
  file are, and the transaction holds the lock for it.

It stops in the middle only where something was spoiled before.  Main statement:
`request_all_or_nothing`, for every page id, also one of a table that is not registered any more.
-/

namespace RowStore

/-- Bytes are no page only if they have no room for one row. -/
theorem Page.ofBytes_fails {pid : PageId} {bytes : List UInt8} {schema : Schema} {f : Failure}
    (h : ofBytes pid bytes schema = .error f) : f = .pageTooSmall pid bytes.length := by
  have hzero := ofBytes_eq_error_iff.mp ⟨f, h⟩
  unfold ofBytes at h
  rw [if_pos (Or.inl hzero)] at h
  cases h
  rfl

namespace Engine

variable {e e' : Engine} {tx : Tx} {access : Access} {pid : PageId} {frame : Frame} {f : Failure}

/-! ## 1. Failures under the lock -/

/-- A failure of the store, or one of a store in which something was spoiled before. -/
def FailsUnderLock (e : Engine) (f : Failure) : Prop :=
  f.kind = .storage ∨ f = .spoiled ∧ ¬ Sane e

/-- **How a page cannot be read.** -/
theorem readPage_fails (h : e.readPage pid = .error f) : e.FailsUnderLock f := by
  unfold readPage Catalog.lookup at h
  cases ht : e.catalog.table? pid.table with
  | none =>
    simp only [ht] at h
    cases h
    exact Or.inl rfl
  | some table =>
    simp only [ht, TableFile.readPage, TableFile.own, TableFile.countPages] at h
    split at h
    · rename_i g hown
      cases h
      split at hown
      · cases hown
      · cases hown
        exact Or.inl rfl
    · split at h
      · rename_i g hcount
        cases h
        split at hcount
        · cases hcount
        · rename_i hu
          cases hcount
          exact Or.inr ⟨rfl, fun hs => hu (isUsable_of_none hs.disk.handles _)⟩
      · split at h
        · rw [Page.ofBytes_fails h]
          exact Or.inl rfl
        · cases h
          exact Or.inl rfl

/-- **How there is no room.** -/
theorem makeRoom_fails (h : e.makeRoom = .error f) :
    e.FailsUnderLock f := by
  unfold makeRoom Cache.evict at h
  split at h
  · split at h
    · rename_i hblocked
      cases h
      refine Or.inr ⟨rfl, fun hs => ?_⟩
      have hfree : e.cache.isBlocked = false := Cache.isBlocked_eq_false hs.cache.frames
      exact Bool.noConfusion (hblocked.symm.trans hfree)
    · split at h
      · cases h
      · split at h <;> cases h <;> exact Or.inl rfl
  · cases h

/-! ## 2. What a request leaves behind -/

/-- **The request was granted its lock and did nothing else.** -/
structure OnlyLocks (tx : Tx) (access : Access) (pid : PageId) (e e' : Engine) : Prop where
  gains : LockTable.Gains tx access.mode pid e.locks e'.locks
  rest : e' = { e with locks := e'.locks }

/-- **The request handed out a page.** -/
structure Obtains (tx : Tx) (access : Access) (pid : PageId) (e e' : Engine) (frame : Frame) :
    Prop where
  /-- The transaction holds a lock as strong as the one asked for, and the others hold what they
  held. -/
  gains : LockTable.Gains tx access.mode pid e.locks e'.locks
  lock : ∃ mode, e'.locks.modeOf? tx pid = some mode ∧ access.mode.AtMost mode
  /-- The page is the one that is cached under the id, and has that id. -/
  cached : e'.cache.find? pid = some frame
  pid_eq : frame.page.pid = pid
  /-- If the page was cached before, it is still the same, and so is the cache. -/
  resident : ∀ old, e.cache.find? pid = some old → frame = old ∧ e'.cache = e.cache
  /-- If it was not, it is what the bytes of the file are to its table. -/
  loaded : e.cache.find? pid = none → ∃ table, e.catalog.table? pid.table = some table
    ∧ Page.ofBytes pid (e.disk.read table.path (pid.offset table.pageSize) table.pageSize)
      table.schema = .ok frame.page
  disk_eq : e'.disk = e.disk
  catalog_eq : e'.catalog = e.catalog

/-- A lock as strong as the one asked for comes with a grant. -/
theorem atMost_orStronger (mode : LockMode) (held? : Option LockMode) :
    mode.AtMost (mode.orStronger held?) := by
  intro he
  unfold LockMode.orStronger
  split
  · rfl
  · exact he

/-- How a request goes once it has its lock. -/
theorem inCache_bringIn_cases {locks : LockTable} {r : Except Failure Frame}
    (ho : Orderly e) (hg : LockTable.Gains tx access.mode pid e.locks locks)
    (h : inCache { e with locks := locks } (fun e => e.bringIn pid) = (e', r)) :
    (∃ frame, r = .ok frame ∧ Obtains tx access pid e e' frame)
      ∨ ∃ f, r = .error f ∧ (f.kind = .storage ∧ OnlyLocks tx access pid e e'
        ∨ f = .spoiled ∧ ¬ Sane e) := by
  rcases inCache_cases h with ⟨hspoiled, -, hr⟩ | ⟨-, frame, hb, hr⟩ | ⟨-, f, e₁, hb, hr, he⟩
  · refine Or.inr ⟨.spoiled, hr, Or.inr ⟨rfl, fun hs => ?_⟩⟩
    exact Bool.noConfusion (hspoiled.symm.trans hs.cache.usable)
  · have hlock : ∃ mode, locks.modeOf? tx pid = some mode ∧ access.mode.AtMost mode :=
      ⟨_, hg.lock, atMost_orStronger _ _⟩
    rcases bringIn_cases hb with ⟨rfl, old, hf, hold⟩ | ⟨-, -, _, herror, -⟩
      | ⟨hn, page, cache, hread, hm, rfl, hloaded⟩
    · cases hold
      refine Or.inl ⟨_, hr, hg, hlock, hf, ho.proper.keyed hf, fun other hother => ?_,
        fun hn => ?_, rfl, rfl⟩
      · exact ⟨Option.some.inj (hf.symm.trans hother), rfl⟩
      · cases hn.symm.trans hf
    · cases herror
    · cases hloaded
      refine Or.inl ⟨_, hr, hg, hlock, ?_, (readPage_eq_ok hread).1, fun other hother => ?_,
        fun _ => ?_, rfl, rfl⟩
      · simp only [Cache.find?_load, if_pos]
      · cases hn.symm.trans hother
      · obtain ⟨table, ht, hreads⟩ := readPage_eq_ok_iff.mp hread
        exact ⟨table, ht, hreads.ofBytes⟩
  · rcases bringIn_cases hb with ⟨-, _, -, hok⟩ | ⟨rfl, -, g, hg', hwhy⟩ | ⟨-, _, _, -, -, -, hok⟩
    · cases hok
    · cases hg'
      -- the new lock makes no difference to what is read and to what has to leave
      have hwhy : e.FailsUnderLock f :=
        hwhy.elim (fun hread => readPage_fails hread) fun hroom => makeRoom_fails hroom
      rcases hwhy with hk | hs
      · refine Or.inr ⟨f, hr, Or.inl ⟨hk, ?_⟩⟩
        rcases he with ⟨-, rfl⟩ | ⟨hu, -⟩
        · exact ⟨hg, rfl⟩
        · exact Bool.noConfusion (hu.symm.trans (isUndefined_of_storage hk))
      · exact Or.inr ⟨f, hr, Or.inr hs⟩
    · cases hok

end Engine

open Engine

/-- **A request for a page is all or nothing.**  In every state, whatever was called before and
whatever became of the tables, for every transaction, access and page id:

* if a page is handed out, the transaction holds the lock for it, and the page is the cached one, or
  was loaded from the bytes of its table's file;
* if the request is denied, the state is the one before; it is denied exactly if somebody else's
  lock is in the way;
* if it fails with a fault of the store, the state is the one before but for the lock;
* it stops in the middle only if something was spoiled before. -/
theorem request_all_or_nothing {config : Config} {disk : Disk} {e e' : Engine} {log : List Event}
    (h : Run (fun _ _ => True) { config := config, disk := disk } e log) {tx : Tx} {access : Access}
    {pid : PageId} {r : Except Failure Frame} (hf : e.fetch tx access pid = (e', r)) :
    (∀ frame, r = .ok frame → Obtains tx access pid e e' frame)
    ∧ (∀ f, r = .error f → f.kind = .aborted → e' = e)
    ∧ ((∃ f, r = .error f ∧ f.kind = .aborted) ↔ ¬ e.locks.Free tx access.mode pid)
    ∧ (∀ f, r = .error f → f.kind = .storage → OnlyLocks tx access pid e e')
    ∧ ∀ f, r = .error f → f.isUndefined = true → f = .spoiled ∧ ¬ Sane e := by
  have ho := Run.orderly (orderly_new config disk) h
  rcases fetch_cases hf with ⟨rfl, rfl, hdenied⟩ | ⟨locks, ha, hin⟩
  · refine ⟨nofun, fun _ _ _ => rfl, ⟨fun _ hfree => ?_, fun _ => ⟨_, rfl, rfl⟩⟩, ?_, ?_⟩
    · exact Bool.noConfusion (hdenied.symm.trans (ho.consistent.granted_iff.mpr hfree))
    · intro f hr hk
      cases hr
      cases hk
    · intro f hr hu
      cases hr
      cases hu
  · have hgranted : (e.locks.acquire tx access.mode pid).2 = true := congrArg Prod.snd ha
    have hgains := ho.consistent.gains hgranted
    rw [ha] at hgains
    have hfree := ho.consistent.granted_iff.mp hgranted
    rcases inCache_bringIn_cases ho hgains hin with ⟨frame, rfl, hobtains⟩ | ⟨f, rfl, hwhy⟩
    · refine ⟨fun _ hr => Except.ok.inj hr ▸ hobtains, fun _ hr => ?_,
        ⟨fun ⟨_, hr, _⟩ => ?_, fun hn => absurd hfree hn⟩, fun _ hr => ?_, fun _ hr => ?_⟩
      all_goals cases hr
    · -- under the lock, no failure asks for a rollback
      have hkind : f.kind ≠ .aborted := by
        rcases hwhy with ⟨hk, -⟩ | ⟨rfl, -⟩
        · rw [hk]
          decide
        · decide
      refine ⟨nofun, fun g hr hk => ?_, ⟨fun ⟨g, hr, hk⟩ => ?_, fun hn => absurd hfree hn⟩,
        fun g hr hk => ?_, fun g hr hu => ?_⟩
      · cases hr
        exact absurd hk hkind
      · cases hr
        exact absurd hk hkind
      · cases hr
        rcases hwhy with ⟨-, hlocks⟩ | ⟨rfl, -⟩
        · exact hlocks
        · cases hk
      · cases hr
        rcases hwhy with ⟨hk, -⟩ | hspoiled
        · exact Bool.noConfusion (hu.symm.trans (isUndefined_of_storage hk))
        · exact hspoiled

/-- A row was put into a table that is then taken out of the catalog.  Its transaction is handed the
changed page from the cache; another one is denied that page, and a page that is not cached cannot
be read any more, though it stays locked. -/
theorem request_all_or_nothing_orphaned : ∃ log frame e₁ e₂ e₃ f₂ f₃,
    Run (fun _ _ => True) Sample.start Sample.orphaned log
      ∧ Sample.orphaned.fetch ⟨1⟩ .write Sample.first.page = (e₁, .ok frame)
      ∧ Obtains ⟨1⟩ .write Sample.first.page Sample.orphaned e₁ frame
      ∧ Sample.orphaned.fetch ⟨2⟩ .read Sample.first.page = (e₂, .error f₂)
      ∧ f₂.kind = .aborted ∧ e₂ = Sample.orphaned
      ∧ Sample.orphaned.fetch ⟨2⟩ .read (Sample.table.pageId 1) = (e₃, .error f₃)
      ∧ f₃.kind = .storage
      ∧ OnlyLocks ⟨2⟩ .read (Sample.table.pageId 1) Sample.orphaned e₃ := by
  have hinserted : Run (fun _ _ => True) Sample.start Sample.inserted _ :=
    (Sample.run_opened.mono fun _ => trivial).call
      (.insert ⟨1⟩ Sample.table.id ⟨[.int 5], none⟩) trivial (by rw [Sample.inserted])
  have hrun : Run (fun _ _ => True) Sample.start Sample.orphaned _ :=
    hinserted.call (.unregister Sample.table.id) trivial rfl
  have hcached : (Sample.orphaned.fetch ⟨1⟩ .write Sample.first.page).2.toOption.isSome := by
    decide +kernel
  have hdenied : (Sample.orphaned.fetch ⟨2⟩ .read Sample.first.page).2
      = .error (.lockTimeout ⟨2⟩ .shared Sample.first.page) := by rfl
  have hunknown : (Sample.orphaned.fetch ⟨2⟩ .read (Sample.table.pageId 1)).2
      = .error (.unknownTable Sample.table.id) := by rfl
  rcases h₁ : Sample.orphaned.fetch ⟨1⟩ .write Sample.first.page with ⟨e₁, f | frame⟩
  · rw [h₁] at hcached
    cases hcached
  rcases h₂ : Sample.orphaned.fetch ⟨2⟩ .read Sample.first.page with ⟨e₂, r₂⟩
  rcases h₃ : Sample.orphaned.fetch ⟨2⟩ .read (Sample.table.pageId 1) with ⟨e₃, r₃⟩
  rw [h₂] at hdenied
  rw [h₃] at hunknown
  cases hdenied
  cases hunknown
  exact ⟨_, frame, e₁, e₂, e₃, _, _, hrun, rfl, (request_all_or_nothing hrun h₁).1 frame rfl, rfl,
    rfl, (request_all_or_nothing hrun h₂).2.1 _ rfl rfl, rfl, rfl,
    (request_all_or_nothing hrun h₃).2.2.2.1 _ rfl rfl⟩

end RowStore
