import RowStore.Proofs.History

/-!
# Nobody sees another transaction's changes

The lock of a page, the mark on it and the change itself stand in three places and are written at
three moments.  One invariant ties them together (`Guarded`): a transaction whose mark is on a
cached page, or whose change to the page is pending, is the sole holder of the page's lock.

It survives every call that leaves locks alone until their transaction completes: requests only add
locks (`LockTable.Grows`), a change is made by the sole holder, flushes and completions mark
nothing, and a completion releases locks only after the last mark is gone.  Main statement:
`isolated`.
-/

namespace RowStore

/-! ## 1. Locks only grow -/

/-- **No lock is dropped or weakened, and sole writers stay sole writers.** -/
structure LockTable.Grows (t u : LockTable) : Prop where
  keeps : ∀ tx, Keeps tx t u
  owns : ∀ {tx : Tx} {pid : PageId}, t.Owns tx pid → u.Owns tx pid

namespace LockTable

theorem Grows.refl (t : LockTable) : Grows t t := ⟨fun tx => .refl tx t, id⟩

theorem Grows.trans {t u v : LockTable} (h : Grows t u) (h' : Grows u v) : Grows t v :=
  ⟨fun tx => (h.keeps tx).trans (h'.keeps tx), fun ho => h'.owns (h.owns ho)⟩

theorem grows_acquire (t : LockTable) (tx : Tx) (mode : LockMode) (pid : PageId) :
    Grows t (t.acquire tx mode pid).1 :=
  ⟨fun other => keeps_acquire other t tx mode pid, fun ho => ho.acquire tx mode pid⟩

end LockTable

namespace Engine

variable {e e' : Engine} {tx other : Tx} {pid : PageId} {frame : Frame} {id : TableId}
  {events log : List Event}

theorem FetchStep.grows (h : FetchStep tx e e') : e.locks.Grows e'.locks := by
  cases h with
  | lock mode pid ha =>
    have hg := e.locks.grows_acquire tx mode pid
    rwa [ha] at hg
  | load _ _ _ => exact .refl _
  | spoil _ _ => exact .refl _

theorem Fetches.grows (h : Fetches tx e e') : e.locks.Grows e'.locks := by
  induction h with
  | refl => exact .refl _
  | tail _ hs ih => exact ih.trans hs.grows

theorem Explored.grows (h : Explored tx id e e') : e.locks.Grows e'.locks := by
  cases h with
  | within hf => exact hf.grows
  | @beyond _ e₁ _ disk _ _ hf _ _ hf' =>
    have hg : LockTable.Grows e₁.locks e'.locks := hf'.grows
    exact hf.grows.trans hg

theorem Worked.grows (h : Worked tx id e e' events) : e.locks.Grows e'.locks := by
  cases h with
  | explored hx => exact hx.grows
  | changed hx _ _ => exact hx.grows

/-! ## 2. Marks stand under locks -/

/-- **Every mark on a cached page stands under an exclusive lock.** -/
structure Marked (e : Engine) : Prop where
  proper : e.cache.Proper
  owns : ∀ {pid : PageId} {frame : Frame} {tx : Tx}, e.cache.find? pid = some frame →
    frame.page.dirty = some tx → e.locks.Owns tx pid

/-- No request marks a page. -/
theorem FetchStep.find?_of_dirty (h : FetchStep tx e e') (hp : e.cache.Proper)
    (hf : e'.cache.find? pid = some frame) (hd : frame.page.dirty ≠ none) :
    e.cache.find? pid = some frame := by
  cases h with
  | lock _ _ _ => exact hf
  | @load loaded page cache hn hr hm =>
    simp only [Cache.find?_load] at hf
    split at hf
    · cases hf
      exact absurd (readPage_eq_ok hr).2 hd
    · rcases makeRoom_eq_ok hp hm with rfl | ⟨victim, old, _, _, rfl⟩
      · exact hf
      · rw [Cache.find?_remove] at hf
        split at hf
        · cases hf
        · exact hf
  | spoil _ _ => exact hf

theorem Fetches.find?_of_dirty (h : Fetches tx e e') (hp : e.cache.Proper)
    (hf : e'.cache.find? pid = some frame) (hd : frame.page.dirty ≠ none) :
    e.cache.find? pid = some frame := by
  induction h with
  | refl => exact hf
  | tail hr hs ih => exact ih (hs.find?_of_dirty (Fetches.proper hr hp) hf hd)

theorem FetchStep.marked (h : FetchStep tx e e') (hm : Marked e) : Marked e' where
  proper := h.proper hm.proper
  owns hf hd :=
    h.grows.owns (hm.owns (h.find?_of_dirty hm.proper hf (by rw [hd]; exact Option.some_ne_none _))
      hd)

theorem Fetches.marked (h : Fetches tx e e') (hm : Marked e) : Marked e' := by
  induction h with
  | refl => exact hm
  | tail _ hs ih => exact hs.marked ih

theorem Explored.marked (h : Explored tx id e e') (hm : Marked e) : Marked e' := by
  cases h with
  | within hf => exact hf.marked hm
  | beyond _ hf _ _ hf' => exact hf'.marked ⟨(hf.marked hm).proper, (hf.marked hm).owns⟩

theorem Marked.changePage (hm : Marked e) (hh : Handed e tx .write pid frame) {page : Page}
    (hp : page.pid = pid) : Marked (e.changePage tx pid frame page) where
  proper := hm.proper.insert hp
  owns {p found owner} hf hd := by
    rw [find?_changePage] at hf
    split at hf
    · rename_i he
      cases hf
      cases hd
      rw [he]
      exact hh.owns rfl
    · exact hm.owns hf hd

theorem Worked.marked (h : Worked tx id e e' events) (hm : Marked e) : Marked e' := by
  cases h with
  | explored hx => exact hx.marked hm
  | changed hx hh hc =>
    have hm₁ := hx.marked hm
    exact hm₁.changePage hh (hc.same.2.pid_eq.trans (hm₁.proper.keyed hh.cached))

theorem Settles.marked (h : Settles e e') (hm : Marked e) : Marked e' where
  proper := h.proper hm.proper
  owns hf hd := by
    obtain ⟨old, hold, he⟩ := h.dirty hf (by rw [hd]; exact Option.some_ne_none _)
    rw [h.same.2]
    exact hm.owns hold (by rw [he, hd])

theorem Marked.complete {commit : Bool} {r : Except Failure Unit} (hm : Marked e)
    (h : e.complete tx commit = (e', r)) : Marked e' := by
  obtain ⟨e₁, hs, ⟨-, hu, rfl⟩ | ⟨-, rfl⟩⟩ := complete_cases hm.proper h
  · have hm₁ := hs.marked hm
    refine ⟨hm₁.proper, fun {p found owner} hf hd => ?_⟩
    have hne : owner ≠ tx := by
      rintro rfl
      exact hu p found hf hd
    exact (hm₁.owns hf hd).releaseAll hne
  · exact hs.marked hm

/-! ## 3. What a call does to locks and marks -/

/-- Two engines with the same cache and the same locks are marked alike. -/
theorem Marked.congr (hm : Marked e) (hc : e'.cache = e.cache) (hl : e'.locks = e.locks) :
    Marked e' :=
  ⟨hc ▸ hm.proper, fun hf hd => hl ▸ hm.owns (hc ▸ hf) hd⟩

/-- **What a state owes to the one before**: marks stand under locks, the locks of every
transaction that is not completed grow, and a change was made by a sole writer. -/
structure Follows (e : Engine) (events : List Event) (e' : Engine) : Prop where
  marked : Marked e'
  keeps : ∀ {tx : Tx}, fate tx events = none → LockTable.Keeps tx e.locks e'.locks
  owns : ∀ {tx : Tx} {pid : PageId}, fate tx events = none → e.locks.Owns tx pid →
    e'.locks.Owns tx pid
  changed : ∀ {tx : Tx} {rid : RecordId} {values : Option (List Value)},
    .changed tx rid values ∈ events → e'.locks.Owns tx rid.page

/-- A call without changes whose locks grow. -/
theorem follows_of_grows (hm : Marked e') (hg : e.locks.Grows e'.locks) : Follows e [] e' :=
  ⟨hm, fun {tx} _ => hg.keeps tx, fun _ => hg.owns, fun h => by cases h⟩

theorem Worked.follows (h : Worked tx id e e' events) (hm : Marked e) : Follows e events e' where
  marked := h.marked hm
  keeps {tx} _ := h.grows.keeps tx
  owns _ := h.grows.owns
  changed {writer rid values} hc := by
    cases h with
    | explored _ => cases hc
    | changed hx hh hpage =>
      simp only [List.mem_singleton, Event.changed.injEq] at hc
      obtain ⟨rfl, rfl, -⟩ := hc
      rw [hpage.same.1, (hx.marked hm).proper.keyed hh.cached]
      exact hh.owns rfl

/-- A completion that returns releases the locks of its own transaction only. -/
theorem follows_of_complete {commit : Bool} {r : Except Failure Unit} (hm : Marked e)
    (h : e.complete tx commit = (e', r)) (hr : Returned r) :
    Follows e [.completed tx commit] e' := by
  have hne : ∀ {owner : Tx}, fate owner [.completed tx commit] = none → owner ≠ tx := by
    rintro owner hf rfl
    simp [fate] at hf
  obtain ⟨e₁, hs, ⟨-, -, rfl⟩ | ⟨hn, -⟩⟩ := complete_cases hm.proper h
  · refine ⟨hm.complete h, fun hf => ?_, fun hf ho => ?_, fun hc => by simp at hc⟩
    · simp only [hs.same.2]
      exact e.locks.keeps_releaseAll (hne hf)
    · simp only [hs.same.2]
      exact ho.releaseAll (hne hf)
  · exact absurd hr hn

theorem Did.follows (h : Did e e' events) (hm : Marked e) : Follows e events e' := by
  cases h with
  | worked hw => exact hw.follows hm
  | settled hs => exact follows_of_grows (hs.marked hm) (hs.same.2 ▸ .refl _)
  | completed hc hr => exact follows_of_complete hm hc hr

theorem follows_of_removePage {r : Except Failure Unit} (hm : Marked e)
    (h : e.removePage pid = (e', r)) : Follows e [] e' := by
  unfold removePage at h
  rcases inCache_cases h with ⟨-, rfl, -⟩ | ⟨-, u, hu, -⟩ | ⟨-, f, e₁, hu, -, -⟩
  · exact follows_of_grows hm (.refl _)
  · cases hu
    refine follows_of_grows ⟨hm.proper.remove pid, fun {p found owner} hf hd => ?_⟩ (.refl _)
    simp only [Cache.find?_remove] at hf
    split at hf
    · cases hf
    · exact hm.owns hf hd
  · cases hu

theorem follows_of_createTable {file name : String} {schema : Schema}
    {r : Except Failure TableFile} (hm : Marked e)
    (h : e.createTable file name schema = (e', r)) : Follows e [] e' := by
  unfold createTable at h
  split at h <;> cases h <;> exact follows_of_grows (hm.congr rfl rfl) (.refl _)

end Engine

/-- **The calls that leave locks alone** until their transaction completes: all but the early
release of a page and the release of everything. -/
def Call.LeavesLocks : Call → Prop
  | releasePage .. => False
  | clear => False
  | _ => True

namespace Engine

variable {e e' : Engine} {tx : Tx} {pid : PageId} {events log : List Event}

theorem follows_of_call {c : Call} (hm : Marked e) (hc : c.LeavesLocks)
    (h : e.call c = (e', events)) : Follows e events e' := by
  by_cases hp : c.UsesPages
  · exact (did_of_call hm.proper hp h).follows hm
  · cases c with
    | removePage pid =>
      cases h
      exact follows_of_removePage hm rfl
    | createTable file name schema =>
      cases h
      exact follows_of_createTable hm rfl
    | register table name =>
      cases h
      exact follows_of_grows (hm.congr rfl rfl) (.refl _)
    | unregister table =>
      cases h
      exact follows_of_grows (hm.congr rfl rfl) (.refl _)
    | forgetTables =>
      cases h
      exact follows_of_grows (hm.congr rfl rfl) (.refl _)
    | releasePage tx pid => cases hc
    | clear => cases hc
    | _ => exact absurd trivial hp

/-! ## 4. Runs -/

/-- **The invariant**: whoever has a mark on a cached page or a pending change on a page is the sole
holder of the page's lock. -/
structure Guarded (e : Engine) (log : List Event) : Prop where
  marked : Marked e
  pending : ∀ {tx : Tx} {rid : RecordId}, Pending log tx rid → e.locks.Owns tx rid.page

theorem Guarded.follow (hg : Guarded e log) (h : Follows e events e') :
    Guarded e' (log ++ events) where
  marked := h.marked
  pending hp := by
    rcases hp.of_append with ⟨hp, hf⟩ | ⟨values, hm⟩
    · exact h.owns hf (hg.pending hp)
    · exact h.changed hm

/-- A new store has no cached page and an empty log. -/
theorem guarded_new (config : Config) (disk : Disk) :
    Guarded { config := config, disk := disk } [] where
  marked := ⟨.empty, fun h => by cases h⟩
  pending h := absurd h (not_pending_nil _ _)

end Engine

open Engine

/-- **The invariant holds along every run.** -/
theorem Run.guarded {start e : Engine} {log : List Event} (hs : Guarded start [])
    (h : Run (fun _ c => c.LeavesLocks) start e log) : Guarded e log := by
  induction h with
  | nil => exact hs
  | call c _ hc he ih => exact ih.follow (follows_of_call ih.marked hc he)

/-- **Along a run that does not complete a transaction its locks grow.** -/
theorem Run.keeps {start e : Engine} {log : List Event} {tx : Tx} (hm : Marked start)
    (h : Run (fun _ c => c.LeavesLocks) start e log) (hf : fate tx log = none) :
    Marked e ∧ LockTable.Keeps tx start.locks e.locks := by
  induction h with
  | nil => exact ⟨hm, .refl _ _⟩
  | call c _ hc he ih =>
    rw [fate_append, Option.or_eq_none_iff] at hf
    obtain ⟨hm', hk⟩ := ih hf.1
    have hfollows := follows_of_call hm' hc he
    exact ⟨hfollows.marked, hk.trans (hfollows.keeps hf.2)⟩

/-- **Write isolation.**  In every state that a new store reaches while locks are left to their
transactions:

* as long as a transaction is not completed, none of its locks is dropped or weakened by anybody;
* a page that a transaction has changed since its last completion, and a cached page with its mark,
  is locked by it exclusively and by nobody else;
* a page that is handed to a transaction has no pending change of another one, and no mark of
  another one either. -/
theorem isolated {config : Config} {disk : Disk} {e : Engine} {log : List Event}
    (h : Run (fun _ c => c.LeavesLocks) { config := config, disk := disk } e log) :
    (∀ tx e' log', Run (fun _ c => c.LeavesLocks) e e' log' → fate tx log' = none →
        LockTable.Keeps tx e.locks e'.locks)
      ∧ (∀ tx rid, Pending log tx rid → e.locks.Owns tx rid.page)
      ∧ (∀ tx pid frame, e.cache.find? pid = some frame → frame.page.dirty = some tx →
          e.locks.Owns tx pid)
      ∧ ∀ tx access pid e' frame, e.fetch tx access pid = (e', .ok frame) →
          (∀ other rid, Pending log other rid → rid.page = pid → other = tx)
            ∧ ∀ other, frame.page.dirty = some other → other = tx := by
  have hg := h.guarded (guarded_new config disk)
  refine ⟨fun tx e' log' hr hf => (hr.keeps hg.marked hf).2, fun tx rid => hg.pending,
    fun tx pid frame => hg.marked.owns, ?_⟩
  intro tx access pid e' frame hfetch
  have hfetches := fetch_fetches hfetch
  have hm' := hfetches.marked hg.marked
  -- whoever owns the page before the request still owns it when it is granted
  have hsole : ∀ {other : Tx}, e.locks.Owns other pid → other = tx := fun ho => by
    rcases fetch_cases hfetch with ⟨-, hr, -⟩ | ⟨locks, ha, -⟩
    · cases hr
    · exact (ho.eq_of_granted (congrArg Prod.snd ha)).symm
  refine ⟨fun other rid hp hpid => hsole (hpid ▸ hg.pending hp), ?_⟩
  intro other hd
  apply hsole
  have hne : frame.page.dirty ≠ none := by simp [hd]
  exact hg.marked.owns (hfetches.find?_of_dirty hg.marked.proper (fetch_ok hfetch).cached hne) hd

/-- A row that one transaction put in: its page is locked by that transaction alone, and is handed
to no other. -/
theorem isolated_first : ∃ e log, Run (fun _ c => c.LeavesLocks) Sample.start e log
    ∧ Pending log ⟨1⟩ Sample.first ∧ e.locks.Owns ⟨1⟩ Sample.first.page
    ∧ ∀ tx access e' frame, e.fetch tx access Sample.first.page = (e', .ok frame) → ⟨1⟩ = tx := by
  have h₁ : Run (fun _ c => c.LeavesLocks) Sample.start Sample.opened [] :=
    .call (.createTable "t" "t" Sample.schema) .nil trivial (by
      simp only [call, Sample.createTable_start])
  have h₂ := Run.call (.insert ⟨1⟩ Sample.table.id ⟨[.int 5], none⟩) h₁ trivial rfl
  have hp : Pending ([] ++ [.changed ⟨1⟩ Sample.first (some [.int 5])]) ⟨1⟩ Sample.first :=
    ⟨[], _, [], rfl, rfl⟩
  obtain ⟨-, howns, -, hfetch⟩ := isolated h₂
  exact ⟨_, _, h₂, hp, howns _ _ hp, fun tx access e' frame hf =>
    (hfetch tx access _ e' frame hf).1 ⟨1⟩ Sample.first hp rfl⟩

end RowStore
