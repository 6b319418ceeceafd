import RowStore.Proofs.Lock.Consistency

/-!
# The grant rule is the compatibility of locks

An attempt to lock a page looks at the number of its holders, and at most at the first one.  It
never goes through the holders to see whether one of them is in the way.  In a table whose two maps
agree that comes to the same: a page with more than one holder has readers only.

* **Granted exactly if nobody is in the way** (`LockTable.Free`): no other transaction holds a lock
  on the page that conflicts with the one asked for.
* **What a grant changes** (`LockTable.Gains`): the transaction has the stronger of the lock it had
  and the one it asked for, and nothing else moves.

Main statement: `LockQueue.granted_iff_free`, of every state that a lock manager reaches.
-/

namespace RowStore

/-! ## 1. Modes -/

/-- Two transactions can share a page for reading; any other pair of locks conflicts. -/
def LockMode.Conflicts (wanted held : LockMode) : Prop := ¬(wanted = .shared ∧ held = .shared)

/-- The stronger of the lock that is held, if any, and the lock that is asked for. -/
def LockMode.orStronger (wanted : LockMode) (held? : Option LockMode) : LockMode :=
  if held? = some .exclusive then .exclusive else wanted

theorem LockMode.not_conflicts_iff {wanted held : LockMode} :
    ¬wanted.Conflicts held ↔ wanted = .shared ∧ held = .shared :=
  Classical.not_not

/-! ## 2. Holders of one page -/

namespace Holder

variable {hs hs' : List Holder} {tx : Tx} {mode : LockMode}

/-- No transaction but this one holds a lock that conflicts with the one asked for. -/
def Free (hs : List Holder) (tx : Tx) (mode : LockMode) : Prop :=
  ∀ holder ∈ hs, holder.tx ≠ tx → ¬mode.Conflicts holder.mode

/-- Among two holders or more there is one that is not the transaction. -/
theorem Legal.exists_other {first second : Holder} {rest : List Holder}
    (h : Legal (first :: second :: rest)) (tx : Tx) :
    ∃ holder ∈ first :: second :: rest, holder.tx ≠ tx := by
  by_cases hf : first.tx = tx
  · refine ⟨second, List.mem_cons_of_mem _ List.mem_cons_self, fun hs => ?_⟩
    have hn := h.nodup
    rw [List.map_cons, List.map_cons, List.nodup_cons] at hn
    exact hn.1 (by rw [hf, hs]; exact List.mem_cons_self)
  · exact ⟨first, List.mem_cons_self, hf⟩

/-- **The grant rule sees every conflict**, though it looks at the first holder only. -/
theorem Legal.grant_isSome_iff (h : Legal hs) (tx : Tx) (mode : LockMode) :
    (grant hs tx mode).isSome ↔ Free hs tx mode := by
  match hs, h with
  | [], _ => simp [grant, Free]
  | [holder], _ =>
    by_cases ho : holder.tx = tx
    · simp only [grant, ho, if_true, Free, List.mem_singleton, forall_eq, ne_eq, not_true_eq_false,
        false_implies, iff_true]
      split <;> rfl
    · simp only [grant, ho, if_false, Free, List.mem_singleton, forall_eq, ne_eq,
        not_false_eq_true, true_implies, LockMode.not_conflicts_iff]
      split
      · rename_i hshared
        simp [hshared]
      · rename_i hshared
        simpa [and_comm] using hshared
  | first :: second :: rest, h =>
    have hshared := h.shared_of_two
    cases mode with
    | shared =>
      constructor
      · intro _ holder hm _
        exact LockMode.not_conflicts_iff.mpr ⟨rfl, hshared holder hm⟩
      · intro _
        simp only [grant, reduceCtorEq, if_false]
        split <;> rfl
    | exclusive =>
      obtain ⟨holder, hm, hne⟩ := h.exists_other tx
      constructor
      · intro hg
        simp [grant] at hg
      · intro hfree
        exact absurd (LockMode.not_conflicts_iff.mp (hfree holder hm hne)).1 (by decide)

/-- **The lock after a grant** is the stronger of the one before and the one asked for. -/
theorem Granted.modeIn_self (hg : Granted tx mode hs hs') :
    modeIn hs' tx = some (mode.orStronger (modeIn hs tx)) := by
  cases hg with
  | upgraded he hm => simp [modeIn, LockMode.orStronger, he, hm]
  | @kept held hm hle =>
    rw [hm]
    cases held with
    | exclusive => rfl
    | shared =>
      have hmode : mode ≠ .exclusive := fun he => absurd (hle he) (by decide)
      cases mode with
      | exclusive => exact absurd rfl hmode
      | shared => rfl
  | joined hnew _ =>
    have hnone := modeIn_eq_none_iff.mpr hnew
    rw [hnone]
    simp only [modeIn, Option.map_eq_none_iff] at hnone
    simp [modeIn, List.find?_append, hnone, LockMode.orStronger]

/-- **The other holders** keep their locks and their order. -/
theorem Granted.filter_others (hg : Granted tx mode hs hs') :
    hs'.filter (fun holder => holder.tx ≠ tx) = hs.filter fun holder => holder.tx ≠ tx := by
  cases hg with
  | upgraded he _ => simp [he]
  | kept _ _ => rfl
  | joined _ _ => simp

end Holder

/-! ## 3. Tables -/

namespace LockTable

variable {t u : LockTable} {tx : Tx} {pid : PageId} {mode : LockMode}

/-- **Nobody is in the way**: no other transaction holds a lock on the page that conflicts with the
one asked for. -/
def Free (t : LockTable) (tx : Tx) (mode : LockMode) (pid : PageId) : Prop :=
  Holder.Free (t.holders pid) tx mode

/-- **What a grant does to the table.** -/
structure Gains (tx : Tx) (mode : LockMode) (pid : PageId) (t u : LockTable) : Prop where
  /-- The transaction has the stronger of the lock it had and the one it asked for. -/
  lock : u.modeOf? tx pid = some (mode.orStronger (t.modeOf? tx pid))
  /-- The others who hold the page keep their locks and their order. -/
  others : (u.holders pid).filter (fun holder => holder.tx ≠ tx)
    = (t.holders pid).filter fun holder => holder.tx ≠ tx
  /-- If the page had an entry, only its holders changed. -/
  entry : ∀ old, t.pages[pid]? = some old →
    u.pages[pid]? = some { old with holders := u.holders pid }
  /-- No other page changed. -/
  pages : ∀ p, p ≠ pid → u.pages[p]? = t.pages[p]?
  /-- The page is among the transaction's pages. -/
  mine : ∀ p, p ∈ u.pagesOf tx ↔ p = pid ∨ p ∈ t.pagesOf tx
  /-- No other transaction's set of pages changed. -/
  sets : ∀ other, other ≠ tx → Assoc.find? other u.held = Assoc.find? other t.held

theorem Consistent.granted_iff (h : t.Consistent) :
    (t.acquire tx mode pid).2 = true ↔ t.Free tx mode pid := by
  rw [acquire_snd]
  exact (h.legal pid).grant_isSome_iff tx mode

/-- **A granted attempt gives the lock and moves nothing else.** -/
theorem Consistent.gains (h : t.Consistent) (hg : (t.acquire tx mode pid).2 = true) :
    Gains tx mode pid t (t.acquire tx mode pid).1 := by
  rw [acquire_snd, Option.isSome_iff_exists] at hg
  obtain ⟨hs, hg⟩ := hg
  have hgranted := (h.legal pid).granted hg
  have hholders : (t.acquire tx mode pid).1.holders pid = hs := by
    rw [holders_acquire hg, if_pos rfl]
  constructor
  case lock =>
    rw [modeOf?_eq, modeOf?_eq, hholders]
    exact hgranted.modeIn_self
  case others =>
    rw [hholders]
    exact hgranted.filter_others
  case entry =>
    intro old ho
    rw [getElem?_acquire hg, if_pos rfl, hholders]
    rcases t.entryFor_snd pid with he | ⟨hn, -⟩
    · rw [ho] at he
      cases he
      rfl
    · rw [ho] at hn
      cases hn
  case pages =>
    intro p hp
    rw [getElem?_acquire hg, if_neg hp]
  case mine =>
    intro p
    rw [mem_pagesOf_acquire hg]
    simp
  case sets =>
    intro other hne
    rw [find?_held_acquire hg, if_neg hne]

theorem request_of_granted (hg : (t.acquire tx mode pid).2 = true) :
    t.request tx mode pid = ((t.acquire tx mode pid).1, .ok ()) := by
  unfold request
  split <;> rename_i ha <;> rw [ha] at hg ⊢
  cases hg

theorem request_of_denied (hd : (t.acquire tx mode pid).2 = false) :
    t.request tx mode pid = (t, .error (.lockTimeout tx mode pid)) := by
  have ha : t.acquire tx mode pid = (t, false) := Prod.ext (acquire_of_denied hd) hd
  unfold request
  rw [ha]

end LockTable

/-! ## 4. Lock managers -/

namespace LockQueue

variable {q : LockQueue}

/-- **The grant rule is the compatibility of locks.**  In every state that a lock manager reaches,
by whatever operations, for every transaction, lock and page:

* an attempt is granted exactly if no other transaction holds a conflicting lock on the page;
* when it is granted, the transaction has the stronger of the lock it had and the one it asked for,
  the other holders of the page keep their locks and their order, and no other page and no other
  transaction's set of pages changes; a request whose deadline has come does the same;
* when it is denied, nothing changes, and the request fails with the transaction, the lock and the
  page it is about. -/
theorem granted_iff_free (h : Reached (fun _ _ => True) q) (tx : Tx) (mode : LockMode)
    (pid : PageId) :
    ((q.acquire tx mode pid).2 = true ↔ q.table.Free tx mode pid)
      ∧ ((q.acquire tx mode pid).2 = true →
        LockTable.Gains tx mode pid q.table (q.acquire tx mode pid).1.table
        ∧ q.table.request tx mode pid = ((q.acquire tx mode pid).1.table, .ok ()))
      ∧ ((q.acquire tx mode pid).2 = false →
        (q.acquire tx mode pid).1 = q
        ∧ q.table.request tx mode pid = (q.table, .error (.lockTimeout tx mode pid))) := by
  refine ⟨h.consistent.granted_iff, fun hg => ?_, fun hd => ?_⟩
  · exact ⟨h.consistent.gains hg, LockTable.request_of_granted hg⟩
  · have hd : (q.table.acquire tx mode pid).2 = false := hd
    refine ⟨?_, LockTable.request_of_denied hd⟩
    show { q with table := (q.table.acquire tx mode pid).1 } = q
    rw [LockTable.acquire_of_denied hd]

/-- A reader may not become the writer of a page that another one reads; when that one is gone, it
may. -/
theorem granted_iff_free_upgrade :
    let pid : PageId := ⟨.number 1, 0⟩
    let both := [LockOp.acquire ⟨1⟩ .shared pid, .acquire ⟨2⟩ .shared pid].foldl apply {}
    let alone := both.apply (.release ⟨2⟩ pid)
    ¬both.table.Free ⟨1⟩ .exclusive pid ∧ (both.acquire ⟨1⟩ .exclusive pid).1 = both
      ∧ alone.table.Free ⟨1⟩ .exclusive pid
      ∧ (alone.acquire ⟨1⟩ .exclusive pid).1.table.modeOf? ⟨1⟩ pid = some .exclusive := by
  intro pid both alone
  have hboth : Reached (fun _ _ => True) both :=
    (Reached.new.op (.acquire ⟨1⟩ .shared pid) trivial).op (.acquire ⟨2⟩ .shared pid) trivial
  have hdenied : (both.acquire ⟨1⟩ .exclusive pid).2 = false := by decide +kernel
  have hgranted : (alone.acquire ⟨1⟩ .exclusive pid).2 = true := by decide +kernel
  have hb := granted_iff_free hboth ⟨1⟩ .exclusive pid
  have ha := granted_iff_free (hboth.op (.release ⟨2⟩ pid) trivial) ⟨1⟩ .exclusive pid
  refine ⟨fun hfree => ?_, (hb.2.2 hdenied).1, ha.1.mp hgranted, ?_⟩
  · rw [hb.1.mpr hfree] at hdenied
    cases hdenied
  · have hlock := (ha.2.1 hgranted).1.lock
    have hheld : alone.table.modeOf? ⟨1⟩ pid = some .shared := by decide +kernel
    rw [hheld] at hlock
    exact hlock

end LockQueue

end RowStore
