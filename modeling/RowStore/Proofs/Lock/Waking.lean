import RowStore.Proofs.Lock.Granting

/-!
# No request sleeps where it could be granted

A denied request sleeps on the entry of its page until it is woken, and entries come and go while
it sleeps.  It would sleep for nothing if the page became free for it without its being woken, or
if the entry it sleeps on were replaced by another one, on which nobody would look for it.

`LockTable.Bars` excludes both: the request's page has still the entry it fell asleep on, and some
other transaction holds a conflicting lock there.  A grant only adds to what is in the way, and
what takes a holder away from an entry, or the entry itself, wakes everyone who sleeps on it.

Main statement: `LockQueue.sleepers_denied`, of every state that a lock manager reaches.
-/

namespace RowStore

/-! ## 1. Holders of one page -/

namespace Holder

variable {hs hs' : List Holder} {tx other : Tx} {mode wanted : LockMode}

/-- What a grant adds is in the way of as much as before, or of more. -/
theorem Granted.not_free (hg : Granted tx mode hs hs') (hn : ¬Free hs other wanted) :
    ¬Free hs' other wanted := by
  unfold Free at hn ⊢
  push Not at hn ⊢
  obtain ⟨holder, hm, hne, hconflict⟩ := hn
  cases hg with
  | upgraded he _ =>
    rw [he, List.mem_singleton] at hm
    subst hm
    exact ⟨_, List.mem_cons_self, hne, fun h => LockMode.noConfusion h.2⟩
  | kept _ _ => exact ⟨holder, hm, hne, hconflict⟩
  | joined _ _ => exact ⟨holder, List.mem_append_left _ hm, hne, hconflict⟩

end Holder

/-! ## 2. Entries -/

/-- The entry after a transaction has left it, if it is still in use. -/
def PageLocks.left (e : PageLocks) (tx : Tx) : Option PageLocks :=
  let rest : PageLocks := { e with holders := e.holders.filter fun h => h.tx ≠ tx }
  if rest.idle then none else some rest

namespace PageLocks

variable {e rest : PageLocks} {tx : Tx}

/-- What is left of an entry is the entry with fewer holders. -/
theorem of_left (h : e.left tx = some rest) :
    rest = { e with holders := e.holders.filter fun h => h.tx ≠ tx } ∧ rest.idle = false := by
  unfold left at h
  simp only at h
  split at h
  · cases h
  · rename_i hi
    cases h
    exact ⟨rfl, Bool.eq_false_iff.mpr hi⟩

/-- Who is not among the holders of an entry leaves it as it is. -/
theorem left_of_forall_ne (hne : ∀ holder ∈ e.holders, holder.tx ≠ tx) (hi : e.idle = false) :
    e.left tx = some e := by
  have hf : e.holders.filter (fun h => h.tx ≠ tx) = e.holders :=
    List.filter_eq_self.mpr fun holder hm => decide_eq_true (hne holder hm)
  unfold left
  simp only
  rw [hf]
  simp [hi]

/-- A transaction can leave an entry only once. -/
theorem left_of_left (h : e.left tx = some rest) : rest.left tx = some rest := by
  obtain ⟨he, hi⟩ := of_left h
  refine left_of_forall_ne (fun holder hm => ?_) hi
  rw [he] at hm
  exact of_decide_eq_true (List.mem_filter.mp hm).2

end PageLocks

namespace LockTable

variable {t u : LockTable} {tx : Tx} {pid p : PageId} {mode : LockMode} {entry : PageLocks}

/-- The entries after a transaction has left one. -/
theorem getElem?_dropHolder (t : LockTable) (tx : Tx) (pid p : PageId) :
    (t.dropHolder tx pid).pages[p]?
      = if p = pid then t.pages[p]?.bind fun e => e.left tx else t.pages[p]? := by
  unfold dropHolder
  split
  · rename_i hn
    split
    · rename_i hp
      rw [hp, hn]
      rfl
    · rfl
  · rename_i entry he
    rw [getElem?_keep]
    split
    · rename_i hp
      rw [hp, he]
      rfl
    · rfl

theorem getElem?_release (t : LockTable) (tx : Tx) (pid p : PageId) :
    (t.release tx pid).pages[p]?
      = if p = pid then t.pages[p]?.bind fun e => e.left tx else t.pages[p]? := by
  rw [release, dropHeld_pages, getElem?_dropHolder]

theorem getElem?_foldl_dropHolder (tx : Tx) (p : PageId) :
    ∀ (pages : List PageId) (t : LockTable),
      (pages.foldl (fun t pid => t.dropHolder tx pid) t).pages[p]?
        = if p ∈ pages then t.pages[p]?.bind fun e => e.left tx else t.pages[p]?
  | [], t => by simp
  | pid :: pages, t => by
    rw [List.foldl_cons, getElem?_foldl_dropHolder tx p pages, getElem?_dropHolder]
    by_cases hp : p = pid
    · -- the first page is this one, and leaving it again later changes nothing
      subst hp
      simp only [if_true, List.mem_cons, true_or]
      split
      · cases t.pages[p]? with
        | none => rfl
        | some e =>
          cases hl : e.left tx with
          | none => simp [hl]
          | some rest => simp [hl, PageLocks.left_of_left hl]
      · rfl
    · simp [hp]

/-- The entries after a transaction has left all its pages. -/
theorem getElem?_releaseAll (t : LockTable) (tx : Tx) (p : PageId) :
    (t.releaseAll tx).pages[p]?
      = if p ∈ t.pagesOf tx then t.pages[p]?.bind fun e => e.left tx else t.pages[p]? := by
  unfold releaseAll pagesOf
  split
  · rename_i hn
    rw [hn, Option.getD_none, if_neg Std.TreeSet.not_mem_emptyc]
  · rename_i pages hp
    rw [getElem?_foldl_dropHolder, hp, Option.getD_some]
    simp only [Std.TreeSet.mem_toList]

/-- The entries after one more request waits. -/
theorem getElem?_addWaiter (t : LockTable) (pid p : PageId) :
    (t.addWaiter pid).1.pages[p]?
      = if p = pid then some { (t.entryFor pid).2 with
          waiters := (t.entryFor pid).2.waiters + 1 } else t.pages[p]? := by
  unfold addWaiter
  rw [getElem?_insert, entryFor_fst_pages]

/-- A page that is held has an entry, which is the one that is used for it. -/
theorem entryFor_eq (h : t.pages[pid]? = some entry) : t.entryFor pid = (t, entry) := by
  unfold entryFor
  rw [h]

/-- How a request comes off the count of a page. -/
theorem removeWaiter?_eq_some (h : t.removeWaiter? pid = some u) :
    t.pages[pid]? = none ∧ u = t
      ∨ ∃ entry n, t.pages[pid]? = some entry ∧ entry.waiters = n + 1
        ∧ u = t.keep pid { entry with waiters := n } := by
  unfold removeWaiter? at h
  split at h
  · rename_i hn
    cases h
    exact Or.inl ⟨hn, rfl⟩
  · rename_i entry he
    split at h
    · cases h
    · rename_i n hw
      cases h
      exact Or.inr ⟨entry, n, he, hw, rfl⟩

/-! ## 3. What is in a request's way -/

/-- **The request is barred**: its page has the entry that it sleeps on, and another transaction
holds a conflicting lock there. -/
def Bars (t : LockTable) (r : WaitingRequest) : Prop :=
  ∃ entry, t.pages[r.page]? = some entry ∧ entry.serial = r.entry
    ∧ ¬Holder.Free entry.holders r.tx r.mode

variable {r : WaitingRequest}

/-- Somebody is in the way, so the entry is in use. -/
theorem idle_of_not_free (h : ¬Holder.Free entry.holders tx mode) : entry.idle = false := by
  cases hh : entry.holders with
  | nil => exact absurd (fun holder hm => by simp [hh] at hm) h
  | cons first rest => simp [PageLocks.idle, hh]

/-- **A barred request is denied.** -/
theorem Bars.denied (h : t.Bars r) (hc : t.Consistent) :
    (t.acquire r.tx r.mode r.page).2 = false := by
  obtain ⟨entry, he, -, hn⟩ := h
  rw [Bool.eq_false_iff]
  intro hg
  have hfree := hc.granted_iff.mp hg
  rw [Free, holders_of_entry he] at hfree
  exact hn hfree

/-- Only what happens to its page's entry matters to a request. -/
theorem Bars.congr (h : t.Bars r) (he : u.pages[r.page]? = t.pages[r.page]?) : u.Bars r := by
  obtain ⟨entry, hf, hs, hn⟩ := h
  exact ⟨entry, he.trans hf, hs, hn⟩

/-- **A grant clears nobody's way.** -/
theorem Bars.acquire (h : t.Bars r) (hc : t.Consistent) (tx : Tx) (mode : LockMode)
    (pid : PageId) : (t.acquire tx mode pid).1.Bars r := by
  cases hg : Holder.grant (t.holders pid) tx mode with
  | none => rwa [acquire_of_denied (by rw [acquire_snd, hg]; rfl)]
  | some hs =>
    by_cases hp : r.page = pid
    · obtain ⟨entry, he, hserial, hn⟩ := h
      rw [hp] at he
      refine ⟨{ entry with holders := hs }, ?_, hserial, ?_⟩
      · rw [getElem?_acquire hg, if_pos hp, entryFor_eq he]
      · have hgranted := (hc.legal pid).granted hg
        rw [holders_of_entry he] at hgranted
        exact hgranted.not_free hn
    · exact h.congr (by rw [getElem?_acquire hg, if_neg hp])

/-- One more sleeper bars what was barred. -/
theorem Bars.addWaiter (h : t.Bars r) (pid : PageId) : (t.addWaiter pid).1.Bars r := by
  by_cases hp : r.page = pid
  · obtain ⟨entry, he, hserial, hn⟩ := h
    refine ⟨{ entry with waiters := entry.waiters + 1 }, ?_, hserial, hn⟩
    rw [hp] at he
    rw [getElem?_addWaiter, if_pos hp, entryFor_eq he]
  · exact h.congr (by rw [getElem?_addWaiter, if_neg hp])

/-- One sleeper less bars what was barred: the entry has holders, so it stays. -/
theorem Bars.removeWaiter (h : t.Bars r) (hr : t.removeWaiter? pid = some u) : u.Bars r := by
  rcases removeWaiter?_eq_some hr with ⟨-, rfl⟩ | ⟨old, n, hold, -, rfl⟩
  · exact h
  · by_cases hp : r.page = pid
    · obtain ⟨entry, he, hserial, hn⟩ := h
      rw [hp, hold] at he
      cases he
      have hused : ({ old with waiters := n } : PageLocks).idle = false := idle_of_not_free hn
      refine ⟨{ old with waiters := n }, ?_, hserial, hn⟩
      rw [getElem?_keep, if_pos hp, hused]
      simp
    · exact h.congr (by rw [getElem?_keep, if_neg hp])

/-- **A transaction that leaves pages clears only the ways of those it is announced to.** -/
theorem Bars.left (h : t.Bars r)
    (hquiet : LockQueue.announced? t tx r.page ≠ some r.entry)
    (he : ∀ entry, entry.left tx = some entry → t.pages[r.page]? = some entry →
      u.pages[r.page]? = some entry) : u.Bars r := by
  obtain ⟨entry, hf, hserial, hn⟩ := h
  refine ⟨entry, he entry ?_ hf, hserial, hn⟩
  refine PageLocks.left_of_forall_ne (fun holder hm htx => hquiet ?_) (idle_of_not_free hn)
  unfold LockQueue.announced?
  rw [hf]
  simp only [List.any_eq_true, decide_eq_true_eq]
  rw [if_pos ⟨holder, hm, htx⟩, hserial]

end LockTable

/-! ## 4. Lock managers -/

namespace LockQueue

variable {q : LockQueue} {n m : Nat} {r : WaitingRequest} {tx : Tx} {mode : LockMode}
  {pid : PageId}

/-- **Whoever sleeps and was not woken is barred.** -/
def Asleep (q : LockQueue) : Prop :=
  ∀ (n : Nat) (r : WaitingRequest), (n, r) ∈ q.waiting → r.woken = false → q.table.Bars r

/-- Who still sleeps after a waking slept before, on an entry that was left out. -/
theorem mem_of_mem_wake {woken : Nat → Bool} (h : (n, r) ∈ q.wake woken) (hr : r.woken = false) :
    (n, r) ∈ q.waiting ∧ woken r.entry = false := by
  unfold wake at h
  obtain ⟨⟨m, old⟩, hm, he⟩ := List.mem_map.mp h
  simp only [Prod.mk.injEq] at he
  obtain ⟨rfl, he⟩ := he
  split at he
  · subst he
    cases hr
  · rename_i hw
    subst he
    exact ⟨hm, Bool.eq_false_iff.mpr hw⟩

/-- How an attempt goes: granted, or asleep on the entry of the page. -/
theorem attempt_cases (q : LockQueue) (n : Nat) (tx : Tx) (mode : LockMode) (pid : PageId) :
    (q.table.acquire tx mode pid).2 = true
        ∧ (q.attempt n tx mode pid).1 = { q with table := (q.table.acquire tx mode pid).1 }
      ∨ (q.table.acquire tx mode pid).2 = false
        ∧ (q.attempt n tx mode pid).1 = { q with
          table := (q.table.addWaiter pid).1
          waiting := q.waiting ++ [(n, ⟨tx, mode, pid, (q.table.addWaiter pid).2, false⟩)] } := by
  unfold attempt
  split <;> rename_i table ha
  · exact Or.inl (by rw [ha]; exact ⟨rfl, rfl⟩)
  · have hd : (q.table.acquire tx mode pid).2 = false := by rw [ha]
    have hsame : table = q.table := by rw [← LockTable.acquire_of_denied hd, ha]
    rw [hsame]
    exact Or.inr ⟨hd, rfl⟩

/-- How a request comes off the count of its page. -/
theorem comeOff_cases (q : LockQueue) (n : Nat) (pid : PageId) :
    (q.comeOff n pid = q ∧ q.spoiled = true)
      ∨ (q.comeOff n pid = { q with spoiled := true } ∧ q.spoiled = false
        ∧ q.table.removeWaiter? pid = none)
      ∨ ∃ table, q.table.removeWaiter? pid = some table ∧ q.spoiled = false
        ∧ q.comeOff n pid = { q with table := table, waiting := Assoc.erase n q.waiting } := by
  unfold comeOff
  split
  · rename_i hs
    exact Or.inl ⟨rfl, hs⟩
  · rename_i hs
    have hs : q.spoiled = false := Bool.eq_false_iff.mpr hs
    split
    · rename_i hr
      exact Or.inr (Or.inl ⟨rfl, hs, hr⟩)
    · rename_i table hr
      exact Or.inr (Or.inr ⟨table, hr, hs, rfl⟩)

theorem asleep_acquire (h : q.Asleep) (hc : q.table.Consistent) (tx : Tx) (mode : LockMode)
    (pid : PageId) : Asleep { q with table := (q.table.acquire tx mode pid).1 } :=
  fun n r hm hr => (h n r hm hr).acquire hc tx mode pid

/-- **An attempt puts to sleep only who is barred.** -/
theorem asleep_attempt (h : q.Asleep) (hc : q.table.Consistent) (n : Nat) (tx : Tx)
    (mode : LockMode) (pid : PageId) : (q.attempt n tx mode pid).1.Asleep := by
  rcases q.attempt_cases n tx mode pid with ⟨-, he⟩ | ⟨hd, he⟩
  · rw [he]
    exact asleep_acquire h hc tx mode pid
  · rw [he]
    intro m r hm hr
    rcases List.mem_append.mp hm with hold | hnew
    · exact (h m r hold hr).addWaiter pid
    · -- the new one: it was denied, so its page is held and has an entry
      cases List.mem_singleton.mp hnew
      have hn : ¬q.table.Free tx mode pid := fun hfree => by
        rw [hc.granted_iff.mpr hfree] at hd
        cases hd
      rw [LockTable.Free, LockTable.holders] at hn
      split at hn
      · rename_i entry hentry
        refine ⟨{ entry with waiters := entry.waiters + 1 }, ?_, ?_, hn⟩
        · rw [LockTable.getElem?_addWaiter, if_pos rfl, LockTable.entryFor_eq hentry]
        · unfold LockTable.addWaiter
          rw [LockTable.entryFor_eq hentry]
      · exact absurd (fun _ hm => absurd hm List.not_mem_nil) hn

theorem asleep_comeOff (h : q.Asleep) (n : Nat) (pid : PageId) : (q.comeOff n pid).Asleep := by
  rcases q.comeOff_cases n pid with ⟨he, -⟩ | ⟨he, -, -⟩ | ⟨table, hr, -, he⟩
  · rwa [he]
  · rwa [he]
  · rw [he]
    intro m r hm hw
    rw [Assoc.erase_eq_filter] at hm
    exact (h m r (List.mem_of_mem_filter hm) hw).removeWaiter hr

/-- **Every operation leaves asleep only who is barred.** -/
theorem asleep_apply (h : q.Asleep) (hc : q.table.Consistent) (op : LockOp) :
    (q.apply op).Asleep := by
  cases op with
  | acquire tx mode pid => exact asleep_acquire h hc tx mode pid
  | request tx mode pid =>
    simp only [apply, LockTable.request_fst]
    exact asleep_acquire h hc tx mode pid
  | release tx pid =>
    intro n r hm hr
    simp only [apply, release] at hm
    obtain ⟨hold, hquiet⟩ := mem_of_mem_wake hm hr
    have hb := h n r hold hr
    by_cases hp : r.page = pid
    · subst hp
      refine hb.left (by simpa using hquiet) fun entry hl hf => ?_
      simp only [apply, release]
      rw [LockTable.getElem?_release, if_pos rfl, hf]
      exact hl
    · refine hb.congr ?_
      simp only [apply, release]
      rw [LockTable.getElem?_release, if_neg hp]
  | releaseAll tx =>
    intro n r hm hr
    simp only [apply, releaseAll] at hm
    obtain ⟨hold, hquiet⟩ := mem_of_mem_wake hm hr
    have hb := h n r hold hr
    by_cases hp : r.page ∈ q.table.pagesOf tx
    · rw [List.any_eq_false] at hquiet
      have hq := hquiet r.page (Std.TreeSet.mem_toList.mpr hp)
      refine hb.left (by simpa using hq) fun entry hl hf => ?_
      simp only [apply, releaseAll]
      rw [LockTable.getElem?_releaseAll, if_pos hp, hf]
      exact hl
    · refine hb.congr ?_
      simp only [apply, releaseAll]
      rw [LockTable.getElem?_releaseAll, if_neg hp]
  | clear =>
    intro n r hm hr
    simp only [apply, clear] at hm
    obtain ⟨hold, hquiet⟩ := mem_of_mem_wake hm hr
    obtain ⟨entry, hf, hserial, -⟩ := h n r hold hr
    rw [List.any_eq_false] at hquiet
    have hin : (r.page, entry) ∈ q.table.pages.toList :=
      Std.TreeMap.mem_toList_iff_getElem?_eq_some.mpr hf
    exact absurd (by simpa using hserial) (hquiet _ hin)
  | attempt n tx mode pid => exact asleep_attempt h hc n tx mode pid
  | resume n =>
    simp only [apply, resume]
    split
    · exact h
    · split
      · exact asleep_comeOff h n _
      · exact asleep_attempt (asleep_comeOff h n _) (consistent_comeOff hc) n _ _ _
  | giveUp n =>
    simp only [apply, giveUp]
    split
    · exact h
    · rename_i r _
      split
      · exact asleep_comeOff h n _
      · have ha := asleep_acquire (asleep_comeOff h n r.page) (consistent_comeOff hc) r.tx r.mode
          r.page
        rw [← LockTable.request_fst] at ha
        exact ha

theorem Reached.asleep {allowed : LockQueue → LockOp → Prop} (h : Reached allowed q) :
    q.Asleep := by
  induction h with
  | new => exact fun n r hm _ => absurd hm List.not_mem_nil
  | op op hq _ ih => exact asleep_apply ih hq.consistent op

/-! ## 5. Who is woken -/

/-- A waking leaves everyone in the queue, as it was or woken. -/
theorem mem_wake (h : (n, r) ∈ q.waiting) (woken : Nat → Bool) :
    (n, r) ∈ q.wake woken ∨ (n, { r with woken := true }) ∈ q.wake woken := by
  unfold wake
  cases hw : woken r.entry with
  | false => exact Or.inl (List.mem_map.mpr ⟨(n, r), h, by simp [hw]⟩)
  | true => exact Or.inr (List.mem_map.mpr ⟨(n, r), h, by simp [hw]⟩)

theorem mem_attempt (h : (n, r) ∈ q.waiting) (m : Nat) (tx : Tx) (mode : LockMode)
    (pid : PageId) : (n, r) ∈ (q.attempt m tx mode pid).1.waiting := by
  rcases q.attempt_cases m tx mode pid with ⟨-, he⟩ | ⟨-, he⟩
  · rwa [he]
  · rw [he]
    exact List.mem_append_left _ h

theorem mem_comeOff (h : (n, r) ∈ q.waiting) (hne : n ≠ m) (pid : PageId) :
    (n, r) ∈ (q.comeOff m pid).waiting := by
  rcases q.comeOff_cases m pid with ⟨he, -⟩ | ⟨he, -, -⟩ | ⟨table, -, -, he⟩
  · rwa [he]
  · rwa [he]
  · rw [he]
    simp only [Assoc.erase_eq_filter]
    exact List.mem_filter.mpr ⟨h, decide_eq_true hne⟩

/-- **Only its own steps take a request out of the queue**: every other operation leaves it as it
was, or wakes it. -/
theorem waits_apply (h : (n, r) ∈ q.waiting) {op : LockOp} (hresume : op ≠ .resume n)
    (hgive : op ≠ .giveUp n) :
    (n, r) ∈ (q.apply op).waiting ∨ (n, { r with woken := true }) ∈ (q.apply op).waiting := by
  cases op with
  | acquire tx mode pid => exact Or.inl h
  | request tx mode pid => exact Or.inl h
  | release tx pid =>
    simp only [apply, release]
    exact mem_wake h _
  | releaseAll tx =>
    simp only [apply, releaseAll]
    exact mem_wake h _
  | clear =>
    simp only [apply, clear]
    exact mem_wake h _
  | attempt m tx mode pid => exact Or.inl (mem_attempt h m tx mode pid)
  | resume m =>
    have hne : n ≠ m := fun he => hresume (by rw [he])
    left
    simp only [apply, resume]
    split
    · exact h
    · split
      · exact mem_comeOff h hne _
      · exact mem_attempt (mem_comeOff h hne _) m _ _ _
  | giveUp m =>
    have hne : n ≠ m := fun he => hgive (by rw [he])
    left
    simp only [apply, giveUp]
    split
    · exact h
    · split
      · exact mem_comeOff h hne _
      · exact mem_comeOff h hne _

/-- **No wake-up is lost.**  In every state that a lock manager reaches, by any operations of any
transactions and any number of requests that fall asleep, resume and give up, in any order: a
request that sleeps and was not woken

* would be denied if it made its attempt now, which would change nothing;
* sleeps on the very entry that its page has now;
* is woken by every operation, other than its own, after which it would be granted. -/
theorem sleepers_denied (h : Reached (fun _ _ => True) q) (hm : (n, r) ∈ q.waiting)
    (hr : r.woken = false) :
    q.table.acquire r.tx r.mode r.page = (q.table, false)
      ∧ (∃ entry, q.table.pages[r.page]? = some entry ∧ entry.serial = r.entry)
      ∧ ∀ op : LockOp, op ≠ .resume n → op ≠ .giveUp n →
        ((q.apply op).table.acquire r.tx r.mode r.page).2 = true →
        (n, { r with woken := true }) ∈ (q.apply op).waiting := by
  have hb := h.asleep n r hm hr
  have hd := hb.denied h.consistent
  obtain ⟨entry, hf, hserial, -⟩ := hb
  refine ⟨Prod.ext (LockTable.acquire_of_denied hd) hd, ⟨entry, hf, hserial⟩, ?_⟩
  intro op hresume hgive hg
  rcases waits_apply hm hresume hgive with hsame | hwoken
  · -- it would still sleep, and so be denied
    have hnext := h.op op trivial
    rw [(hnext.asleep n r hsame hr).denied hnext.consistent] at hg
    cases hg
  · exact hwoken

/-- Two transactions read a page and a third one waits to write it: it sleeps, and is woken when
one of the readers leaves and when all locks are forgotten. -/
theorem sleepers_denied_writer :
    let pid : PageId := ⟨.number 1, 0⟩
    let r : WaitingRequest := ⟨⟨3⟩, .exclusive, pid, 0, false⟩
    let q := [LockOp.acquire ⟨1⟩ .shared pid, .acquire ⟨2⟩ .shared pid,
      .attempt 7 ⟨3⟩ .exclusive pid].foldl apply {}
    q.table.acquire ⟨3⟩ .exclusive pid = (q.table, false)
      ∧ (q.apply (.release ⟨2⟩ pid)).waiting = [(7, { r with woken := true })]
      ∧ (7, { r with woken := true }) ∈ (q.apply .clear).waiting := by
  intro pid r q
  have hq : Reached (fun _ _ => True) q :=
    ((Reached.new.op (.acquire ⟨1⟩ .shared pid) trivial).op (.acquire ⟨2⟩ .shared pid) trivial).op
      (.attempt 7 ⟨3⟩ .exclusive pid) trivial
  have hm : (7, r) ∈ q.waiting := by decide +kernel
  have hs := sleepers_denied hq hm rfl
  have hgranted : ((q.apply .clear).table.acquire ⟨3⟩ .exclusive pid).2 = true := by
    decide +kernel
  exact ⟨hs.1, by decide +kernel, hs.2.2 .clear (by simp) (by simp) hgranted⟩

end LockQueue

end RowStore
