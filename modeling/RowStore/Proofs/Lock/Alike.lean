import RowStore.Lock.Listing
import RowStore.Proofs.Lock.Waking

/-!
# Lock tables that cannot be told apart

The pages of a lock table are kept as a search tree, and two trees that hold the same may have grown
in different orders.  `LockTable.Same` is what two tables have in common that hold the same locks:
the same entry for every page, and the same set of pages for every transaction.

Nobody can tell such tables apart, now or later: every operation answers the same on both and leaves
the same behind (`LockQueue.Same.apply`, one lemma per operation before it), and so they look alike
after any further operations (`LockQueue.Same.looksAlike`).  An attempt that puts the page's entry
into the table before it decides leaves such a table, too (`LockTable.acquireOpened_same`).
-/

namespace RowStore

/-! ## 1. Tables -/

namespace LockTable

/-- **The same locks**, whatever the search trees look like inside. -/
structure Same (t u : LockTable) : Prop where
  entry_eq : ∀ pid : PageId, t.pages[pid]? = u.pages[pid]?
  held_eq : t.held = u.held
  made_eq : t.made = u.made

namespace Same

variable {t u : LockTable} {tx : Tx} {pid : PageId}

theorem refl (t : LockTable) : Same t t := ⟨fun _ => rfl, rfl, rfl⟩

/-- The entries come in the same order. -/
theorem toList_eq (h : Same t u) : t.pages.toList = u.pages.toList :=
  (Std.TreeMap.Equiv.of_forall_constGet?_eq h.entry_eq).toList_eq

theorem text_eq (h : Same t u) : t.text = u.text := by
  unfold text
  rw [h.toList_eq, h.held_eq]

theorem holders_eq (h : Same t u) (pid : PageId) : t.holders pid = u.holders pid := by
  unfold holders
  rw [h.entry_eq]

theorem pagesOf_eq (h : Same t u) (tx : Tx) : t.pagesOf tx = u.pagesOf tx :=
  pagesOf_congr h.held_eq tx

theorem modeOf?_eq (h : Same t u) (tx : Tx) (pid : PageId) : t.modeOf? tx pid = u.modeOf? tx pid := by
  unfold modeOf?
  rw [h.holders_eq]

/-! ### Steps -/

theorem insert (h : Same t u) (pid : PageId) (entry : PageLocks) :
    Same { t with pages := t.pages.insert pid entry }
      { u with pages := u.pages.insert pid entry } where
  entry_eq p := by
    rw [getElem?_insert, getElem?_insert, h.entry_eq]
  held_eq := h.held_eq
  made_eq := h.made_eq

theorem keep (h : Same t u) (pid : PageId) (entry : PageLocks) :
    Same (t.keep pid entry) (u.keep pid entry) where
  entry_eq p := by
    rw [getElem?_keep, getElem?_keep, h.entry_eq]
  held_eq := h.held_eq
  made_eq := h.made_eq

theorem entryFor (h : Same t u) (pid : PageId) :
    Same (t.entryFor pid).1 (u.entryFor pid).1 ∧ (t.entryFor pid).2 = (u.entryFor pid).2 := by
  unfold LockTable.entryFor
  rw [h.entry_eq pid]
  cases u.pages[pid]? with
  | none => exact ⟨⟨h.entry_eq, h.held_eq, by rw [h.made_eq]⟩, by rw [h.made_eq]⟩
  | some entry => exact ⟨h, rfl⟩

theorem noteHeld (h : Same t u) (tx : Tx) (pid : PageId) :
    Same (t.noteHeld tx pid) (u.noteHeld tx pid) where
  entry_eq := h.entry_eq
  held_eq := by
    simp only [LockTable.noteHeld, h.pagesOf_eq, h.held_eq]
  made_eq := h.made_eq

theorem acquire (h : Same t u) (tx : Tx) (mode : LockMode) (pid : PageId) :
    Same (t.acquire tx mode pid).1 (u.acquire tx mode pid).1
      ∧ (t.acquire tx mode pid).2 = (u.acquire tx mode pid).2 := by
  unfold LockTable.acquire
  rw [h.holders_eq]
  cases Holder.grant (u.holders pid) tx mode with
  | none => exact ⟨h, rfl⟩
  | some hs =>
    obtain ⟨hs', he⟩ := h.entryFor pid
    simp only [he]
    exact ⟨(hs'.insert pid _).noteHeld tx pid, trivial⟩

theorem request (h : Same t u) (tx : Tx) (mode : LockMode) (pid : PageId) :
    Same (t.request tx mode pid).1 (u.request tx mode pid).1
      ∧ (t.request tx mode pid).2 = (u.request tx mode pid).2 := by
  obtain ⟨hs, hanswer⟩ := h.acquire tx mode pid
  refine ⟨by rw [request_fst, request_fst]; exact hs, ?_⟩
  unfold LockTable.request
  cases ht : t.acquire tx mode pid
  cases hu : u.acquire tx mode pid
  rw [ht, hu] at hanswer
  simp only at hanswer
  subst hanswer
  split <;> simp_all

theorem dropHolder (h : Same t u) (tx : Tx) (pid : PageId) :
    Same (t.dropHolder tx pid) (u.dropHolder tx pid) := by
  unfold LockTable.dropHolder
  rw [h.entry_eq pid]
  cases u.pages[pid]? with
  | none => exact h
  | some entry => exact h.keep pid _

theorem foldl_dropHolder (tx : Tx) (pages : List PageId) (h : Same t u) :
    Same (pages.foldl (fun t pid => t.dropHolder tx pid) t)
      (pages.foldl (fun t pid => t.dropHolder tx pid) u) := by
  induction pages generalizing t u with
  | nil => exact h
  | cons pid pages ih => exact ih (h.dropHolder tx pid)

theorem dropHeld (h : Same t u) (tx : Tx) (pid : PageId) :
    Same (t.dropHeld tx pid) (u.dropHeld tx pid) := by
  unfold LockTable.dropHeld
  rw [h.held_eq]
  split
  · exact h
  · exact ⟨h.entry_eq, rfl, h.made_eq⟩

theorem release (h : Same t u) (tx : Tx) (pid : PageId) :
    Same (t.release tx pid) (u.release tx pid) :=
  (h.dropHolder tx pid).dropHeld tx pid

theorem releaseAll (h : Same t u) (tx : Tx) : Same (t.releaseAll tx) (u.releaseAll tx) := by
  unfold LockTable.releaseAll
  rw [h.held_eq]
  split
  · exact h
  · exact foldl_dropHolder tx _ ⟨h.entry_eq, rfl, h.made_eq⟩

theorem clear (h : Same t u) : Same t.clear u.clear := ⟨fun _ => rfl, rfl, h.made_eq⟩

theorem addWaiter (h : Same t u) (pid : PageId) :
    Same (t.addWaiter pid).1 (u.addWaiter pid).1 ∧ (t.addWaiter pid).2 = (u.addWaiter pid).2 := by
  obtain ⟨hs, he⟩ := h.entryFor pid
  unfold LockTable.addWaiter
  simp only [he]
  exact ⟨hs.insert pid _, trivial⟩

/-- Both tables have a count to take a request off, or neither has. -/
theorem removeWaiter? (h : Same t u) (pid : PageId) :
    Option.Rel Same (t.removeWaiter? pid) (u.removeWaiter? pid) := by
  unfold LockTable.removeWaiter?
  rw [h.entry_eq pid]
  cases u.pages[pid]? with
  | none => exact .some h
  | some entry =>
    simp only
    cases entry.waiters with
    | zero => exact .none
    | succ n => exact .some (h.keep pid _)

end Same

/-! ### The entry first

`acquire` decides before there is an entry, so that a denial has nothing to take back. -/

/-- The entry of a page, which is put into the table if there is none. -/
def openEntry (t : LockTable) (pid : PageId) : LockTable × PageLocks :=
  match t.pages[pid]? with
  | some entry => (t, entry)
  | none =>
    let entry : PageLocks := ⟨t.made, [], 0⟩
    ({ t with pages := t.pages.insert pid entry, made := t.made + 1 }, entry)

/-- An attempt that opens the entry before it decides.  A denial drops the entry if it is idle. -/
def acquireOpened (t : LockTable) (tx : Tx) (mode : LockMode) (pid : PageId) : LockTable × Bool :=
  let (t, entry) := t.openEntry pid
  match Holder.grant entry.holders tx mode with
  | some holders =>
    let t := { t with pages := t.pages.insert pid { entry with holders := holders } }
    (t.noteHeld tx pid, true)
  | none => (if entry.idle then { t with pages := t.pages.erase pid } else t, false)

/-- **An attempt may open the entry first**: only a holder makes it fail, and then the entry was
there before, is not idle, and stays. -/
theorem acquireOpened_same (t : LockTable) (tx : Tx) (mode : LockMode) (pid : PageId) :
    Same (t.acquireOpened tx mode pid).1 (t.acquire tx mode pid).1
      ∧ (t.acquireOpened tx mode pid).2 = (t.acquire tx mode pid).2 := by
  unfold acquireOpened acquire openEntry holders entryFor
  cases hentry : t.pages[pid]? with
  | none =>
    have hgrant : Holder.grant [] tx mode = some [⟨tx, mode⟩] := rfl
    simp only [hgrant, and_true]
    refine ⟨fun p => ?_, rfl, rfl⟩
    simp only [noteHeld_pages, Std.TreeMap.getElem?_insert, Std.compare_eq_iff_eq]
    split <;> rfl
  | some entry =>
    cases hgrant : Holder.grant entry.holders tx mode with
    | some holders =>
      simp only [hgrant]
      exact ⟨.refl _, trivial⟩
    | none =>
      have hidle : entry.idle = false := by
        unfold PageLocks.idle
        cases hholders : entry.holders with
        | nil =>
          rw [hholders] at hgrant
          cases hgrant
        | cons => rfl
      simp only [hgrant, hidle, Bool.false_eq_true, if_false, and_true]
      exact .refl t

end LockTable

/-! ## 2. Lock managers -/

namespace LockQueue

/-- **The same locks and the same requests that wait.** -/
structure Same (q r : LockQueue) : Prop where
  table : q.table.Same r.table
  waiting_eq : q.waiting = r.waiting
  spoiled_eq : q.spoiled = r.spoiled

/-- **What is seen of a lock manager**: its listing, who holds what, who waits, and what it answers
to an attempt and to a request that gives up. -/
structure LooksAlike (q r : LockQueue) : Prop where
  text : q.table.text = r.table.text
  holders : ∀ pid, q.table.holders pid = r.table.holders pid
  modes : ∀ tx pid, q.table.modeOf? tx pid = r.table.modeOf? tx pid
  pages : ∀ tx, q.table.sortedPagesOf tx = r.table.sortedPagesOf tx
  waits : ∀ n, q.isWaiting n = r.isWaiting n
  spoiled : q.spoiled = r.spoiled
  acquire : ∀ tx mode pid, (q.acquire tx mode pid).2 = (r.acquire tx mode pid).2
  request : ∀ tx mode pid, (q.table.request tx mode pid).2 = (r.table.request tx mode pid).2
  attempt : ∀ n tx mode pid, (q.attempt n tx mode pid).2 = (r.attempt n tx mode pid).2
  giveUp : ∀ n, (q.giveUp n).2 = (r.giveUp n).2

namespace Same

variable {q r : LockQueue} {tx : Tx} {pid : PageId}

theorem announced?_eq {t u : LockTable} (h : t.Same u) (tx : Tx) (pid : PageId) :
    announced? t tx pid = announced? u tx pid := by
  unfold announced?
  rw [h.entry_eq]

theorem wake_eq (h : Same q r) (woken : Nat → Bool) : q.wake woken = r.wake woken := by
  unfold wake
  rw [h.waiting_eq]

theorem attempt (h : Same q r) (n : Nat) (tx : Tx) (mode : LockMode) (pid : PageId) :
    Same (q.attempt n tx mode pid).1 (r.attempt n tx mode pid).1
      ∧ (q.attempt n tx mode pid).2 = (r.attempt n tx mode pid).2 := by
  obtain ⟨hs, hanswer⟩ := h.table.acquire tx mode pid
  unfold LockQueue.attempt
  cases hq : q.table.acquire tx mode pid
  cases hr : r.table.acquire tx mode pid
  rename_i t granted u granted'
  rw [hq, hr] at hs hanswer
  simp only at hs hanswer
  subst hanswer
  cases granted with
  | true => exact ⟨⟨hs, h.waiting_eq, h.spoiled_eq⟩, rfl⟩
  | false =>
    obtain ⟨hw, hentry⟩ := hs.addWaiter pid
    exact ⟨⟨hw, by simp only [hentry, h.waiting_eq], h.spoiled_eq⟩, rfl⟩

theorem comeOff (h : Same q r) (n : Nat) (pid : PageId) :
    Same (q.comeOff n pid) (r.comeOff n pid) := by
  unfold LockQueue.comeOff
  rw [h.spoiled_eq]
  split
  · exact h
  · have hrel := h.table.removeWaiter? pid
    generalize q.table.removeWaiter? pid = old at hrel
    generalize r.table.removeWaiter? pid = new at hrel
    cases hrel with
    | none => exact ⟨h.table, h.waiting_eq, rfl⟩
    | some hs => exact ⟨hs, by rw [h.waiting_eq], rfl⟩

theorem resume (h : Same q r) (n : Nat) : Same (q.resume n) (r.resume n) := by
  unfold LockQueue.resume
  rw [h.waiting_eq]
  split
  · exact h
  · rename_i found _
    have hoff := h.comeOff n found.page
    simp only [hoff.spoiled_eq]
    split
    · exact hoff
    · exact (hoff.attempt n found.tx found.mode found.page).1

theorem giveUp (h : Same q r) (n : Nat) :
    Same (q.giveUp n).1 (r.giveUp n).1 ∧ (q.giveUp n).2 = (r.giveUp n).2 := by
  unfold LockQueue.giveUp
  rw [h.waiting_eq]
  split
  · exact ⟨h, rfl⟩
  · rename_i found _
    have hoff := h.comeOff n found.page
    obtain ⟨hs, hanswer⟩ := hoff.table.request found.tx found.mode found.page
    simp only [hoff.spoiled_eq]
    split
    · exact ⟨hoff, rfl⟩
    · exact ⟨⟨hs, hoff.waiting_eq, rfl⟩, hanswer⟩

/-- **Every operation leaves the same behind.** -/
theorem apply (h : Same q r) (op : LockOp) : Same (q.apply op) (r.apply op) := by
  cases op with
  | acquire tx mode pid =>
    exact ⟨(h.table.acquire tx mode pid).1, h.waiting_eq, h.spoiled_eq⟩
  | request tx mode pid =>
    exact ⟨(h.table.request tx mode pid).1, h.waiting_eq, h.spoiled_eq⟩
  | release tx pid =>
    refine ⟨h.table.release tx pid, ?_, h.spoiled_eq⟩
    simp only [LockQueue.apply, LockQueue.release, announced?_eq h.table, h.wake_eq]
  | releaseAll tx =>
    refine ⟨h.table.releaseAll tx, ?_, h.spoiled_eq⟩
    simp only [LockQueue.apply, LockQueue.releaseAll, announced?_eq h.table, h.table.pagesOf_eq,
      h.wake_eq]
  | clear =>
    refine ⟨h.table.clear, ?_, h.spoiled_eq⟩
    simp only [LockQueue.apply, LockQueue.clear, h.table.toList_eq, h.wake_eq]
  | attempt n tx mode pid => exact (h.attempt n tx mode pid).1
  | resume n => exact h.resume n
  | giveUp n => exact (h.giveUp n).1

theorem foldl_apply (h : Same q r) (ops : List LockOp) :
    Same (ops.foldl LockQueue.apply q) (ops.foldl LockQueue.apply r) := by
  induction ops generalizing q r with
  | nil => exact h
  | cons op ops ih => exact ih (h.apply op)

theorem looksAlike (h : Same q r) : LooksAlike q r where
  text := h.table.text_eq
  holders := h.table.holders_eq
  modes := h.table.modeOf?_eq
  pages tx := by
    unfold LockTable.sortedPagesOf
    rw [h.table.pagesOf_eq]
  waits n := by
    unfold isWaiting
    rw [h.waiting_eq]
  spoiled := h.spoiled_eq
  acquire tx mode pid := (h.table.acquire tx mode pid).2
  request tx mode pid := (h.table.request tx mode pid).2
  attempt n tx mode pid := (h.attempt n tx mode pid).2
  giveUp n := (h.giveUp n).2

end Same

end LockQueue

end RowStore
