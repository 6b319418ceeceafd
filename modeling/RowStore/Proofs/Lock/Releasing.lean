import RowStore.Proofs.Lock.Alike
import RowStore.Proofs.Lock.Counting

/-!
# Releasing everything is releasing page after page

A transaction that releases everything goes by the set of its pages and never looks at the rest of
the table.  The set has no order of its own, and entries vanish while it is gone through.

* **It comes to the same as a release of every page of the table**, one after the other in any order
  (`Reached.same_release`): a page that the set lacks has nothing of the transaction's to release.
* **The order of the set does not matter** (`same_releaseIn`): what is left of each page depends on
  that page alone.

"The same" is `LockQueue.Same`, so nobody can tell afterwards how the locks were released.  Main
statement: `released_pagewise`.
-/

namespace RowStore

/-! ## 1. Releases in an order -/

namespace LockTable

variable {t : LockTable} {tx other : Tx} {p : PageId} {order : List PageId}

/-- Release a transaction's pages in an order that is given, going by nothing else. -/
def releaseIn (t : LockTable) (tx : Tx) (order : List PageId) : LockTable :=
  match Assoc.find? tx t.held with
  | none => t
  | some _ => order.foldl (fun t pid => t.dropHolder tx pid) { t with held := Assoc.erase tx t.held }

/-- Release pages one after the other. -/
def releaseEach (t : LockTable) (tx : Tx) (order : List PageId) : LockTable :=
  order.foldl (fun t pid => t.release tx pid) t

/-- **The order of the pages does not matter.** -/
theorem same_releaseIn (t : LockTable) (tx : Tx) (h : order.Perm (t.pagesOf tx).toList) :
    (t.releaseAll tx).Same (t.releaseIn tx order) := by
  unfold releaseAll releaseIn
  unfold pagesOf at h
  cases hf : Assoc.find? tx t.held with
  | none => exact .refl t
  | some pages =>
    rw [hf, Option.getD_some] at h
    constructor
    case entry_eq =>
      intro p
      rw [getElem?_foldl_dropHolder, getElem?_foldl_dropHolder]
      simp only [h.mem_iff]
    case held_eq => rw [foldl_dropHolder_held, foldl_dropHolder_held]
    case made_eq => rw [LockQueue.made_foldl_dropHolder, LockQueue.made_foldl_dropHolder]

/-! ## 2. One page after the other -/

/-- A holder is taken out of the entry, whatever the other map says. -/
theorem dropHolder_pages_congr {u : LockTable} (h : t.pages = u.pages) (tx : Tx) (pid : PageId) :
    (t.dropHolder tx pid).pages = (u.dropHolder tx pid).pages := by
  unfold dropHolder
  rw [h]
  split
  · exact h
  · unfold keep
    rw [h]

/-- The entries after some pages were released are those that the transaction left. -/
theorem releaseEach_pages (tx : Tx) (order : List PageId) {u : LockTable} (h : t.pages = u.pages) :
    (t.releaseEach tx order).pages
      = (order.foldl (fun t pid => t.dropHolder tx pid) u).pages := by
  induction order generalizing t u with
  | nil => exact h
  | cons pid order ih =>
    refine @ih (t.release tx pid) (u.dropHolder tx pid) ?_
    rw [LockTable.release, dropHeld_pages]
    exact dropHolder_pages_congr h tx pid

theorem mem_pagesOf_releaseEach (tx other : Tx) (p : PageId) (order : List PageId)
    (t : LockTable) :
    p ∈ (t.releaseEach tx order).pagesOf other
      ↔ ¬(other = tx ∧ p ∈ order) ∧ p ∈ t.pagesOf other := by
  induction order generalizing t with
  | nil => simp [releaseEach]
  | cons pid order ih =>
    have ht := ih (t.release tx pid)
    unfold releaseEach at ht ⊢
    rw [List.foldl_cons, ht, mem_pagesOf_release, List.mem_cons]
    constructor
    · rintro ⟨hlater, hnow, hp⟩
      exact ⟨fun ⟨ho, hm⟩ => hm.elim (fun he => hnow ⟨ho, he⟩) fun hm => hlater ⟨ho, hm⟩, hp⟩
    · rintro ⟨hnot, hp⟩
      exact ⟨fun ⟨ho, hm⟩ => hnot ⟨ho, Or.inr hm⟩, fun ⟨ho, he⟩ => hnot ⟨ho, Or.inl he⟩, hp⟩

theorem Consistent.releaseEach (h : t.Consistent) (tx : Tx) (order : List PageId) :
    (t.releaseEach tx order).Consistent := by
  induction order generalizing t with
  | nil => exact h
  | cons pid order ih => exact ih (h.release tx pid)

theorem made_releaseEach (tx : Tx) (order : List PageId) (t : LockTable) :
    (t.releaseEach tx order).made = t.made := by
  induction order generalizing t with
  | nil => rfl
  | cons pid order ih => exact (ih (t.release tx pid)).trans (LockQueue.made_release t tx pid)

/-- Only the transaction's own set of pages changes. -/
theorem erase_held_releaseEach (tx : Tx) (order : List PageId) (t : LockTable) :
    Assoc.erase tx (t.releaseEach tx order).held = Assoc.erase tx t.held := by
  induction order generalizing t with
  | nil => rfl
  | cons pid order ih =>
    refine (ih (t.release tx pid)).trans ?_
    unfold LockTable.release dropHeld
    rw [dropHolder_held]
    split
    · rw [dropHolder_held]
    · simp only
      split
      · exact Assoc.erase_of_find?_eq_none (Assoc.find?_erase_self tx t.held)
      · rw [Assoc.erase_set_self]

/-- A transaction without pages has no set of pages. -/
theorem Consistent.find?_held_eq_none (h : t.Consistent) (hp : ∀ p, p ∉ t.pagesOf tx) :
    Assoc.find? tx t.held = none := by
  cases hf : Assoc.find? tx t.held with
  | none => rfl
  | some pages =>
    have hpages : t.pagesOf tx = pages := by rw [pagesOf, hf, Option.getD_some]
    obtain ⟨p, hm⟩ := Std.TreeSet.isEmpty_eq_false_iff_exists_mem.mp (h.nonempty hf)
    exact absurd (hpages ▸ hm) (hp p)

/-- A page that a transaction holds has an entry. -/
theorem Consistent.mem_pages (h : t.Consistent) (hp : p ∈ t.pagesOf tx) : p ∈ t.pages := by
  have hholds := (h.inverse tx p).mp hp
  rw [Std.TreeMap.mem_iff_isSome_getElem?]
  unfold holders at hholds
  split at hholds
  · rename_i entry he
    rw [he]
    rfl
  · exact absurd hholds List.not_mem_nil

/-- **Releasing every page of the table is releasing everything.**  Pages beyond those of the table,
and pages that come twice, do no harm. -/
theorem Consistent.same_releaseEach (h : t.Consistent) (tx : Tx)
    (hall : ∀ p, p ∈ t.pages → p ∈ order) : (t.releaseAll tx).Same (t.releaseEach tx order) := by
  constructor
  case entry_eq =>
    intro p
    rw [getElem?_releaseAll, releaseEach_pages tx order rfl, getElem?_foldl_dropHolder]
    by_cases hp : p ∈ t.pagesOf tx
    · rw [if_pos hp, if_pos (hall p (h.mem_pages hp))]
    · rw [if_neg hp]
      -- the transaction is not among the holders of a page that its set lacks
      cases he : t.pages[p]? with
      | none => simp
      | some entry =>
        have hleft : entry.left tx = some entry := by
          refine PageLocks.left_of_forall_ne (fun holder hm hx => hp ?_) (h.entries p entry he).used
          rw [h.inverse, holders_of_entry he]
          exact hx ▸ List.mem_map_of_mem hm
        simp [hleft]
  case held_eq =>
    have hnone : Assoc.find? tx (t.releaseEach tx order).held = none := by
      refine (h.releaseEach tx order).find?_held_eq_none fun p hp => ?_
      obtain ⟨hnot, hp⟩ := (mem_pagesOf_releaseEach tx tx p order t).mp hp
      exact hnot ⟨rfl, hall p (h.mem_pages hp)⟩
    rw [← Assoc.erase_of_find?_eq_none hnone, erase_held_releaseEach,
      ← Assoc.erase_of_find?_eq_none (find?_held_releaseAll t tx)]
    unfold LockTable.releaseAll
    split
    · rfl
    · rw [foldl_dropHolder_held]
      exact Assoc.erase_of_find?_eq_none (Assoc.find?_erase_self tx t.held)
  case made_eq => rw [LockQueue.made_releaseAll, made_releaseEach]

/-! ## 3. What a release of everything leaves -/

/-- **The transaction is gone, and nobody else noticed** but by what has become free. -/
structure Withdraws (tx : Tx) (t u : LockTable) : Prop where
  /-- It is among the holders of no page. -/
  gone : ∀ pid, ∀ holder ∈ u.holders pid, holder.tx ≠ tx
  /-- It has no set of pages. -/
  no_set : Assoc.find? tx u.held = none
  /-- The other holders of every page stay, with their locks and in their order. -/
  others : ∀ pid, u.holders pid = (t.holders pid).filter fun holder => holder.tx ≠ tx
  /-- Every other transaction has the locks it had. -/
  modes : ∀ other, other ≠ tx → ∀ pid, u.modeOf? other pid = t.modeOf? other pid
  /-- Every other transaction has the set of pages it had. -/
  sets : ∀ other, other ≠ tx → Assoc.find? other u.held = Assoc.find? other t.held
  /-- An attempt is granted if what was in its way was the transaction only. -/
  granted_iff : ∀ other mode pid, (u.acquire other mode pid).2 = true
    ↔ ∀ holder ∈ t.holders pid, holder.tx ≠ tx → holder.tx ≠ other → ¬mode.Conflicts holder.mode

theorem find?_held_releaseAll_of_ne (t : LockTable) (hne : other ≠ tx) :
    Assoc.find? other (t.releaseAll tx).held = Assoc.find? other t.held := by
  unfold releaseAll
  split
  · rfl
  · rw [foldl_dropHolder_held]
    exact Assoc.find?_erase_of_ne hne t.held

theorem Consistent.withdraws (h : t.Consistent) (tx : Tx) : Withdraws tx t (t.releaseAll tx) := by
  have hfrees := h.frees tx
  constructor
  case gone =>
    intro pid holder hm
    rw [hfrees.holders_eq] at hm
    exact of_decide_eq_true (List.mem_filter.mp hm).2
  case no_set => exact find?_held_releaseAll t tx
  case others => exact hfrees.holders_eq
  case modes =>
    intro other hne pid
    rw [modeOf?_eq, modeOf?_eq, hfrees.holders_eq]
    exact Holder.modeIn_filter_of_ne hne _
  case sets => exact fun other hne => find?_held_releaseAll_of_ne t hne
  case granted_iff =>
    intro other mode pid
    rw [(h.releaseAll tx).granted_iff]
    unfold LockTable.Free Holder.Free
    rw [hfrees.holders_eq]
    simp only [List.mem_filter, decide_eq_true_eq, and_imp]

end LockTable

/-! ## 4. Lock managers -/

namespace LockQueue

variable {q : LockQueue} {tx : Tx} {order : List PageId}

/-- Release a transaction's pages in an order that is given, and wake who sleeps on any of them. -/
def releaseIn (q : LockQueue) (tx : Tx) (order : List PageId) : LockQueue :=
  { q with
    table := q.table.releaseIn tx order
    waiting := q.wake fun entry => order.any fun pid => announced? q.table tx pid == some entry }

/-- Release pages one after the other, each as a call of its own. -/
def releaseEach (q : LockQueue) (tx : Tx) (order : List PageId) : LockQueue :=
  order.foldl (fun q pid => q.release tx pid) q

theorem same_releaseIn (q : LockQueue) (tx : Tx) (h : order.Perm (q.table.pagesOf tx).toList) :
    (q.releaseAll tx).Same (q.releaseIn tx order) where
  table := q.table.same_releaseIn tx h
  waiting_eq := by
    simp only [releaseAll, releaseIn, h.any_eq]
  spoiled_eq := rfl

/-- A release announces nothing twice. -/
theorem announced?_release (t : LockTable) (tx : Tx) (pid p : PageId) :
    announced? (t.release tx pid) tx p = if p = pid then none else announced? t tx p := by
  unfold announced?
  rw [LockTable.getElem?_release]
  by_cases hp : p = pid
  · rw [if_pos hp, if_pos hp]
    cases t.pages[p]? with
    | none => rfl
    | some entry =>
      rw [Option.bind_some]
      cases hl : entry.left tx with
      | none => rfl
      | some rest =>
        obtain ⟨hrest, -⟩ := PageLocks.of_left hl
        simp [hrest]
  · rw [if_neg hp, if_neg hp]

/-- Who is woken twice is woken. -/
theorem wake_wake (q : LockQueue) (table : LockTable) (first second : Nat → Bool) :
    LockQueue.wake { q with table := table, waiting := q.wake first } second
      = q.wake fun entry => first entry || second entry := by
  simp only [wake, List.map_map]
  refine List.map_congr_left fun entry _ => ?_
  rw [Function.comp_apply]
  by_cases hf : first entry.2.entry = true <;> simp [hf]

/-- **What a release of several pages does**: each page is announced as if it were alone. -/
theorem releaseEach_eq (tx : Tx) (order : List PageId) (q : LockQueue) :
    q.releaseEach tx order = { q with
      table := q.table.releaseEach tx order
      waiting := q.wake fun entry => order.any fun pid =>
        announced? q.table tx pid == some entry } := by
  induction order generalizing q with
  | nil => simp [releaseEach, LockTable.releaseEach, wake]
  | cons pid order ih =>
    have hannounced : ∀ entry, (announced? q.table tx pid == some entry
          || order.any fun p => announced? (q.table.release tx pid) tx p == some entry)
        = (pid :: order).any fun p => announced? q.table tx p == some entry := by
      intro entry
      rw [List.any_cons]
      cases hfirst : announced? q.table tx pid == some entry with
      | true => rfl
      | false =>
        -- a later release of the same page announces nothing, and the first did not announce this
        rw [Bool.false_or, Bool.false_or]
        refine List.any_congr rfl fun p => ?_
        rw [announced?_release]
        split
        · rename_i hp
          rw [hp, hfirst]
          rfl
        · rfl
    have hq : q.releaseEach tx (pid :: order) = (q.release tx pid).releaseEach tx order := rfl
    rw [hq, ih]
    simp only [release, wake_wake, hannounced, LockTable.releaseEach, List.foldl_cons]

/-- **Releasing every page of the table is releasing everything**, also for those who wait. -/
theorem same_releaseEach (h : q.table.Consistent) (tx : Tx)
    (hall : ∀ pid, pid ∈ q.table.pages → pid ∈ order) :
    (q.releaseAll tx).Same (q.releaseEach tx order) := by
  have hannounced : ∀ pid entry, announced? q.table tx pid = some entry →
      pid ∈ q.table.pagesOf tx := by
    intro pid serial ha
    unfold announced? at ha
    split at ha
    · rename_i entry he
      split at ha
      · rename_i hany
        obtain ⟨holder, hm, htx⟩ := List.any_eq_true.mp hany
        rw [h.inverse, LockTable.holders_of_entry he]
        exact of_decide_eq_true htx ▸ List.mem_map_of_mem hm
      · cases ha
    · cases ha
  rw [releaseEach_eq]
  refine ⟨h.same_releaseEach tx hall, ?_, rfl⟩
  simp only [releaseAll]
  congr 1
  funext entry
  rw [Bool.eq_iff_iff, List.any_eq_true, List.any_eq_true]
  simp only [beq_iff_eq, Std.TreeSet.mem_toList]
  constructor
  · rintro ⟨pid, hp, ha⟩
    exact ⟨pid, hall pid (h.mem_pages hp), ha⟩
  · rintro ⟨pid, -, ha⟩
    exact ⟨pid, hannounced pid entry ha, ha⟩

/-- A request that only the transaction kept waiting is woken by its leaving. -/
theorem Reached.woken_releaseAll (h : Reached (fun _ _ => True) q) (tx : Tx) {n : Nat}
    {r : WaitingRequest} (hm : (n, r) ∈ (q.releaseAll tx).waiting)
    (hway : ∀ holder ∈ q.table.holders r.page, holder.tx ≠ tx → holder.tx ≠ r.tx →
      ¬r.mode.Conflicts holder.mode) : r.woken = true := by
  rw [← Bool.not_eq_false]
  intro hr
  have hleft := h.op (.releaseAll tx) trivial
  have hdenied := (hleft.asleep n r hm hr).denied hleft.consistent
  have hgranted := ((h.consistent.withdraws tx).granted_iff r.tx r.mode r.page).mpr hway
  rw [show (q.apply (.releaseAll tx)).table = q.table.releaseAll tx from rfl, hgranted] at hdenied
  cases hdenied

/-- **Releasing everything is releasing page after page.**  In every state that a lock manager
reaches, by whatever operations, a transaction's release of everything

* leaves the same locks, and wakes the same requests, as a release of every page of the table, one
  after the other in any order;
* and as a release of the transaction's pages in any order that its set may have them in;
* leaves the transaction nowhere, and every other one with its locks, in the order in which they
  were given; what was denied on account of this transaction alone is granted now;
* wakes every request that waited on account of this transaction alone.

Nobody can tell the difference, whatever is done afterwards. -/
theorem released_pagewise (h : Reached (fun _ _ => True) q) (tx : Tx) :
    (∀ order : List PageId, (∀ pid, pid ∈ q.table.pages → pid ∈ order) →
      (q.releaseAll tx).Same (q.releaseEach tx order))
      ∧ (∀ order : List PageId, order.Perm (q.table.pagesOf tx).toList →
        (q.releaseAll tx).Same (q.releaseIn tx order))
      ∧ LockTable.Withdraws tx q.table (q.releaseAll tx).table
      ∧ (∀ n r, (n, r) ∈ (q.releaseAll tx).waiting →
        (∀ holder ∈ q.table.holders r.page, holder.tx ≠ tx → holder.tx ≠ r.tx →
          ¬r.mode.Conflicts holder.mode) → r.woken = true)
      ∧ ∀ r, (q.releaseAll tx).Same r → ∀ ops : List LockOp,
        LooksAlike (ops.foldl apply (q.releaseAll tx)) (ops.foldl apply r) :=
  ⟨fun _ hall => same_releaseEach h.consistent tx hall,
    fun _ horder => q.same_releaseIn tx horder,
    h.consistent.withdraws tx,
    fun _ _ hm hway => h.woken_releaseAll tx hm hway,
    fun _ hsame ops => (hsame.foldl_apply ops).looksAlike⟩

/-- A transaction holds two pages, and another one waits for the first of them.  Releasing the
second page before the first is releasing everything, and wakes the one that waits. -/
theorem released_pagewise_reversed :
    let first : PageId := ⟨.number 1, 0⟩
    let second : PageId := ⟨.number 1, 1⟩
    let q := [LockOp.acquire ⟨1⟩ .exclusive first, .acquire ⟨1⟩ .shared second,
      .acquire ⟨2⟩ .shared second, .attempt 7 ⟨3⟩ .shared first].foldl apply {}
    (q.releaseAll ⟨1⟩).Same (q.releaseEach ⟨1⟩ [second, first])
      ∧ (q.releaseAll ⟨1⟩).table.holders second = [⟨⟨2⟩, .shared⟩]
      ∧ ((q.releaseAll ⟨1⟩).table.acquire ⟨3⟩ .shared first).2 = true
      ∧ (q.releaseAll ⟨1⟩).waiting = [(7, ⟨⟨3⟩, .shared, first, 0, true⟩)] := by
  intro first second q
  have hq : Reached (fun _ _ => True) q :=
    (((Reached.new.op (.acquire ⟨1⟩ .exclusive first) trivial).op
      (.acquire ⟨1⟩ .shared second) trivial).op (.acquire ⟨2⟩ .shared second) trivial).op
      (.attempt 7 ⟨3⟩ .shared first) trivial
  have hr := released_pagewise hq ⟨1⟩
  have hpages : q.table.pages.keys = [first, second] := by decide +kernel
  have hfirst : q.table.holders first = [⟨⟨1⟩, .exclusive⟩] := by decide +kernel
  refine ⟨hr.1 [second, first] fun pid hm => ?_, by decide +kernel,
    (hr.2.2.1.granted_iff ⟨3⟩ .shared first).mpr fun holder hm hne => ?_, by decide +kernel⟩
  · rw [← Std.TreeMap.mem_keys, hpages] at hm
    simpa [or_comm] using hm
  · rw [hfirst, List.mem_singleton] at hm
    exact absurd (congrArg Holder.tx hm) hne

end LockQueue

end RowStore
