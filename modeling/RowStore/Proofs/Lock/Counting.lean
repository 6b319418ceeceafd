import Mathlib.Logic.Function.Basic
import RowStore.Proofs.Lock.Waking

/-!
# Counting the requests that wait

An entry counts the requests that wait for its page, and a request that comes off takes one off the
count of the entry that its page has by then.  That need not be the entry it was counted on: when
all locks are forgotten while it sleeps, and the page is locked anew, it finds an entry that never
counted it.

* **At most** (`Reached.bounded`): an entry never counts more requests than fell asleep on it and
  have not come off since, so nothing is left of a table that nobody holds and nobody waits for.
* **Exactly** (`Reached.counted`): as long as every request that comes off finds its own entry
  (`AtHome`), an entry counts exactly those.  So it is when all locks are forgotten only while
  nobody waits (`atHome_of_calm`).
* **Astray** (`stray_miscounts`): where the counts are exact, a request that comes off another
  entry makes that one's count wrong, drops it under those who wait, or spoils the lock manager.

Main statements: `LockQueue.waiters_counted` and, of a run in which a request goes astray,
`LockQueue.waiters_miscounted`.
-/

namespace RowStore

namespace LockQueue

variable {q : LockQueue} {n m serial : Nat} {r : WaitingRequest} {tx : Tx} {mode : LockMode}
  {pid p : PageId} {op : LockOp} {exact : Prop}

/-! ## 1. Who is counted -/

/-- **How many requests fell asleep on an entry** and have not come off since. -/
def sleepersOn (waiting : List (Nat × WaitingRequest)) (serial : Nat) : Nat :=
  waiting.countP fun sleeper => sleeper.2.entry == serial

/-- A call gets a number of its own: no other request waits under it. -/
def Fresh (q : LockQueue) : LockOp → Prop
  | .attempt n .. => n ∉ Assoc.keys q.waiting
  | _ => True

/-- **The request that comes off, if any, comes off its own entry**: if its page has an entry, it is
the one that the request fell asleep on. -/
def AtHome (q : LockQueue) : LockOp → Prop
  | .resume n | .giveUp n => ∀ r, Assoc.find? n q.waiting = some r →
      ∀ entry, q.table.pages[r.page]? = some entry → entry.serial = r.entry
  | _ => True

variable {waiting : List (Nat × WaitingRequest)}

theorem sleepersOn_wake (q : LockQueue) (woken : Nat → Bool) (serial : Nat) :
    sleepersOn (q.wake woken) serial = sleepersOn q.waiting serial := by
  unfold sleepersOn wake
  rw [List.countP_map]
  refine List.countP_congr fun sleeper _ => ?_
  simp only [Function.comp_apply]
  split <;> exact Iff.rfl

/-- Where no number is given twice, one request is one less. -/
theorem sleepersOn_erase (hn : (Assoc.keys waiting).Nodup)
    (hf : Assoc.find? n waiting = some r) (serial : Nat) :
    sleepersOn waiting serial
      = sleepersOn (Assoc.erase n waiting) serial + if r.entry = serial then 1 else 0 := by
  unfold sleepersOn
  induction waiting with
  | nil => cases hf
  | cons first rest ih =>
    obtain ⟨k, found⟩ := first
    simp only [Assoc.keys, List.map_cons, List.nodup_cons] at hn
    rw [Assoc.find?_cons] at hf
    simp only [Assoc.erase, List.countP_cons]
    split at hf
    · -- the request itself, and no other one has its number
      rename_i hk
      cases hf
      subst hk
      have hrest : Assoc.erase k rest = rest := by
        rw [Assoc.erase_eq_filter, List.filter_eq_self]
        intro other ho
        refine decide_eq_true fun he => hn.1 ?_
        rw [← he]
        exact List.mem_map_of_mem ho
      rw [if_pos rfl, hrest]
      simp only [beq_iff_eq]
    · rename_i hk
      rw [if_neg hk, List.countP_cons, ih hn.2 hf]
      exact Nat.add_right_comm ..

/-- Somebody who sleeps on an entry is among those who do. -/
theorem sleepersOn_pos (hf : Assoc.find? n waiting = some r) : 0 < sleepersOn waiting r.entry :=
  List.countP_pos_iff.mpr ⟨(n, r), Assoc.mem_of_find? hf, by simp⟩

theorem sleepersOn_eq_zero (h : ∀ n r, (n, r) ∈ waiting → r.entry ≠ serial) :
    sleepersOn waiting serial = 0 :=
  List.countP_eq_zero.mpr fun sleeper hm => by simpa using h sleeper.1 sleeper.2 hm

/-! ## 2. Entries and their pages -/

/-- **Every number of an entry belongs to one page**, `home` says which: the entry with that number
is that page's, and so are the requests that fell asleep on it. -/
structure Placed (home : Nat → PageId) (q : LockQueue) : Prop where
  entries : ∀ (pid : PageId) (entry : PageLocks), q.table.pages[pid]? = some entry →
    entry.serial < q.table.made ∧ home entry.serial = pid
  requests : ∀ (n : Nat) (r : WaitingRequest), (n, r) ∈ q.waiting →
    r.entry < q.table.made ∧ home r.entry = r.page
  /-- No two requests wait under one number. -/
  numbers : (Assoc.keys q.waiting).Nodup

/-- **What the entries count**: at most those who sleep on them, and `exact`ly those if so it
is. -/
def Counted (exact : Prop) (q : LockQueue) : Prop :=
  ∀ (pid : PageId) (entry : PageLocks), q.table.pages[pid]? = some entry →
    entry.waiters ≤ sleepersOn q.waiting entry.serial
      ∧ (exact → entry.waiters = sleepersOn q.waiting entry.serial)

/-- Every entry is its page's, and what it counts is right. -/
def Booked (exact : Prop) (q : LockQueue) : Prop := (∃ home, Placed home q) ∧ Counted exact q

theorem booked_new : Booked exact {} := by
  refine ⟨⟨fun _ => ⟨.number 0, 0⟩, ?_, ?_, List.nodup_nil⟩, ?_⟩
  · intro pid entry he
    simp at he
  · intro n r hm
    cases hm
  · intro pid entry he
    simp at he

/-- **Where entries only lose holders or go**, and requests only are woken, the counts stay
right. -/
theorem Booked.fewer {table : LockTable} {woken : Nat → Bool} (h : q.Booked exact)
    (hmade : table.made = q.table.made)
    (hentries : ∀ (pid : PageId) (entry : PageLocks), table.pages[pid]? = some entry →
      ∃ old, q.table.pages[pid]? = some old ∧ entry.serial = old.serial
        ∧ entry.waiters = old.waiters) :
    Booked exact { q with table := table, waiting := q.wake woken } := by
  obtain ⟨⟨home, hp⟩, hc⟩ := h
  refine ⟨⟨home, ?entries, ?requests, ?numbers⟩, ?counts⟩
  case entries =>
    intro pid entry he
    obtain ⟨old, hold, hs, -⟩ := hentries pid entry he
    rw [hmade, hs]
    exact hp.entries pid old hold
  case requests =>
    intro n r hm
    obtain ⟨⟨m, old⟩, hold, he⟩ := List.mem_map.mp hm
    obtain ⟨hentry, hpage⟩ : r.entry = old.entry ∧ r.page = old.page := by
      simp only [Prod.mk.injEq] at he
      rw [← he.2]
      split <;> exact ⟨rfl, rfl⟩
    rw [hmade, hentry, hpage]
    exact hp.requests m old hold
  case numbers =>
    have hkeys : Assoc.keys (q.wake woken) = Assoc.keys q.waiting := by
      rw [wake, Assoc.keys, List.map_map]
      rfl
    rw [hkeys]
    exact hp.numbers
  case counts =>
    intro pid entry he
    obtain ⟨old, hold, hs, hcount⟩ := hentries pid entry he
    rw [sleepersOn_wake, hs, hcount]
    exact hc pid old hold

/-- **The entry of a page is put to use**, made if it was not there: its holders may be others, and
as many more are counted as fall asleep on it. -/
structure Uses (pid : PageId) (joining : List (Nat × WaitingRequest)) (q u : LockQueue) :
    Prop where
  made : u.table.made = (q.table.entryFor pid).1.made
  pages : ∃ holders, ∀ p, u.table.pages[p]? = if p = pid then
    some ⟨(q.table.entryFor pid).2.serial, holders,
      (q.table.entryFor pid).2.waiters + joining.length⟩ else q.table.pages[p]?
  waiting : u.waiting = q.waiting ++ joining
  joins : ∀ (n : Nat) (r : WaitingRequest), (n, r) ∈ joining →
    r.page = pid ∧ r.entry = (q.table.entryFor pid).2.serial
  numbers : (Assoc.keys u.waiting).Nodup

/-- The entry that is put to use was the page's, or it is new and has a number of its own. -/
theorem entryFor_made (t : LockTable) (pid : PageId) :
    (t.pages[pid]? = some (t.entryFor pid).2 ∧ (t.entryFor pid).1.made = t.made)
      ∨ (t.entryFor pid).2 = ⟨t.made, [], 0⟩ ∧ (t.entryFor pid).1.made = t.made + 1 := by
  unfold LockTable.entryFor
  split
  · rename_i entry he
    exact Or.inl ⟨he, rfl⟩
  · exact Or.inr ⟨rfl, rfl⟩

variable {u : LockQueue} {home : Nat → PageId} {joining : List (Nat × WaitingRequest)}

/-- **A new number belongs to the page from now on**, and old ones to their pages. -/
theorem Placed.exists_home (h : Placed home q) (pid : PageId) :
    ∃ homes : Nat → PageId, homes (q.table.entryFor pid).2.serial = pid
      ∧ (q.table.entryFor pid).2.serial < (q.table.entryFor pid).1.made
      ∧ ∀ serial < q.table.made, serial < (q.table.entryFor pid).1.made
        ∧ homes serial = home serial := by
  rcases entryFor_made q.table pid with ⟨he, hmade⟩ | ⟨he, hmade⟩
  · obtain ⟨hlt, hhome⟩ := h.entries pid _ he
    rw [hmade]
    exact ⟨home, hhome, hlt, fun serial hs => ⟨hs, rfl⟩⟩
  · rw [he, hmade]
    refine ⟨Function.update home q.table.made pid, Function.update_self .., Nat.lt_succ_self _, ?_⟩
    intro serial hs
    exact ⟨Nat.lt_succ_of_lt hs, Function.update_of_ne (Nat.ne_of_lt hs) ..⟩

theorem Placed.uses (h : Placed home q) (hu : Uses pid joining q u) :
    ∃ homes, Placed homes u := by
  obtain ⟨homes, hself, hlt, hold⟩ := h.exists_home pid
  obtain ⟨holders, hpages⟩ := hu.pages
  rw [← hu.made] at hlt hold
  refine ⟨homes, ?entries, ?requests, hu.numbers⟩
  case entries =>
    intro p entry he
    rw [hpages] at he
    split at he
    · rename_i hp
      cases he
      exact ⟨hlt, hp ▸ hself⟩
    · obtain ⟨hs, hhome⟩ := h.entries p entry he
      exact ⟨(hold _ hs).1, (hold _ hs).2.trans hhome⟩
  case requests =>
    intro n r hm
    rw [hu.waiting, List.mem_append] at hm
    rcases hm with hm | hm
    · obtain ⟨hs, hhome⟩ := h.requests n r hm
      exact ⟨(hold _ hs).1, (hold _ hs).2.trans hhome⟩
    · obtain ⟨hpage, hserial⟩ := hu.joins n r hm
      rw [hserial, hpage]
      exact ⟨hlt, hself⟩

/-- Who falls asleep on the entry sleeps on no other. -/
theorem Uses.sleepers_eq (hu : Uses pid joining q u) (serial : Nat) :
    sleepersOn u.waiting serial = sleepersOn q.waiting serial
      + if serial = (q.table.entryFor pid).2.serial then joining.length else 0 := by
  unfold sleepersOn
  rw [hu.waiting, List.countP_append, Nat.add_left_cancel_iff]
  split
  · rename_i hs
    rw [List.countP_eq_length]
    intro sleeper hm
    simp [(hu.joins _ _ hm).2, hs]
  · rename_i hs
    rw [List.countP_eq_zero]
    intro sleeper hm
    simp [(hu.joins _ _ hm).2, Ne.symm hs]

/-- The entry that is put to use counts right, also if it is new. -/
theorem Counted.entryFor (hc : Counted exact q) (h : Placed home q) (pid : PageId) :
    (q.table.entryFor pid).2.waiters ≤ sleepersOn q.waiting (q.table.entryFor pid).2.serial
      ∧ (exact → (q.table.entryFor pid).2.waiters
        = sleepersOn q.waiting (q.table.entryFor pid).2.serial) := by
  rcases entryFor_made q.table pid with ⟨he, -⟩ | ⟨he, -⟩
  · exact hc pid _ he
  · have hzero : sleepersOn q.waiting q.table.made = 0 :=
      sleepersOn_eq_zero fun n r hm => Nat.ne_of_lt (h.requests n r hm).1
    rw [he]
    exact ⟨Nat.zero_le _, fun _ => hzero.symm⟩

theorem Booked.uses (h : q.Booked exact) (hu : Uses pid joining q u) : u.Booked exact := by
  obtain ⟨⟨home, hp⟩, hc⟩ := h
  have hplaced := hp.uses hu
  refine ⟨hplaced, ?_⟩
  obtain ⟨homes, hp'⟩ := hplaced
  obtain ⟨holders, hpages⟩ := hu.pages
  intro p entry he
  have he' := he
  rw [hpages] at he
  rw [hu.sleepers_eq]
  split at he
  · have hcount := hc.entryFor hp pid
    cases he
    simp only [if_true]
    exact ⟨Nat.add_le_add_right hcount.1 _, fun hx => by rw [← hcount.2 hx]⟩
  · rename_i hne
    -- another page's entry has another number
    have hother : entry.serial ≠ (q.table.entryFor pid).2.serial := by
      intro hs
      have hself := hpages pid
      rw [if_pos rfl] at hself
      have hpid := (hp'.entries pid _ hself).2
      rw [← hs, (hp'.entries p entry he').2] at hpid
      exact hne hpid
    rw [if_neg hother, Nat.add_zero]
    exact hc p entry he

/-! ## 3. Operations -/

/-- An attempt that is denied changes nothing, and one that is granted puts the entry to use. -/
theorem acquire_uses (hn : (Assoc.keys q.waiting).Nodup) (tx : Tx) (mode : LockMode)
    (pid : PageId) :
    (q.table.acquire tx mode pid).1 = q.table
      ∨ Uses pid [] q { q with table := (q.table.acquire tx mode pid).1 } := by
  cases hg : Holder.grant (q.table.holders pid) tx mode with
  | none => exact Or.inl (LockTable.acquire_of_denied (by rw [LockTable.acquire_snd, hg]; rfl))
  | some hs =>
    right
    refine ⟨?made, ⟨hs, ?pages⟩, (List.append_nil _).symm, ?joins, hn⟩
    case made =>
      simp only [LockTable.acquire, hg]
      rfl
    case pages =>
      intro p
      exact LockTable.getElem?_acquire hg p
    case joins =>
      intro n r hm
      cases hm

/-- A request that is denied falls asleep on the entry, and so puts it to use. -/
theorem attempt_uses (hn : (Assoc.keys q.waiting).Nodup) (hfresh : n ∉ Assoc.keys q.waiting)
    (tx : Tx) (mode : LockMode) (pid : PageId) :
    (q.attempt n tx mode pid).1 = q
      ∨ ∃ joining, Uses pid joining q (q.attempt n tx mode pid).1 := by
  rcases q.attempt_cases n tx mode pid with ⟨-, he⟩ | ⟨-, he⟩
  · rw [he]
    rcases acquire_uses hn tx mode pid with hsame | hu
    · exact Or.inl (by rw [hsame])
    · exact Or.inr ⟨[], hu⟩
  · rw [he]
    have hkeys : (Assoc.keys q.waiting ++ [n]).Nodup :=
      hn.append (List.nodup_singleton n) (List.disjoint_singleton.mpr hfresh)
    refine Or.inr ⟨_, rfl, ⟨_, q.table.getElem?_addWaiter pid⟩, rfl, ?joins, ?numbers⟩
    case joins =>
      intro m r hm
      cases List.mem_singleton.mp hm
      exact ⟨rfl, rfl⟩
    case numbers => simpa [Assoc.keys] using hkeys

theorem Booked.numbers (h : q.Booked exact) : (Assoc.keys q.waiting).Nodup := by
  obtain ⟨home, hp⟩ := h.1
  exact hp.numbers

theorem booked_acquire (h : q.Booked exact) (tx : Tx) (mode : LockMode) (pid : PageId) :
    Booked exact { q with table := (q.table.acquire tx mode pid).1 } := by
  rcases acquire_uses h.numbers tx mode pid with hsame | hu
  · rwa [hsame]
  · exact h.uses hu

theorem booked_attempt (h : q.Booked exact) (hfresh : n ∉ Assoc.keys q.waiting) (tx : Tx)
    (mode : LockMode) (pid : PageId) : (q.attempt n tx mode pid).1.Booked exact := by
  rcases attempt_uses h.numbers hfresh tx mode pid with hsame | ⟨joining, hu⟩
  · rwa [hsame]
  · exact h.uses hu

/-- **A request comes off.**  The count of its own entry falls with the number of sleepers; the
count of another entry falls alone. -/
theorem booked_comeOff (h : q.Booked exact) (hf : Assoc.find? n q.waiting = some r)
    (hhome : exact → ∀ entry, q.table.pages[r.page]? = some entry → entry.serial = r.entry) :
    (q.comeOff n r.page).Booked exact := by
  rcases q.comeOff_cases n r.page with ⟨he, -⟩ | ⟨he, -, -⟩ | ⟨table, hr, -, he⟩
  · rwa [he]
  · rw [he]
    exact ⟨h.1.imp fun _ hp => ⟨hp.entries, hp.requests, hp.numbers⟩, h.2⟩
  rw [he]
  obtain ⟨⟨home, hp⟩, hc⟩ := h
  have hsleepers := sleepersOn_erase hp.numbers hf
  have hmine := hp.requests n r (Assoc.mem_of_find? hf)
  -- an entry is as before, or it is the page's and counts one less
  have hentries : ∀ p entry, table.pages[p]? = some entry → ∃ old, q.table.pages[p]? = some old
      ∧ entry.serial = old.serial
      ∧ (entry.waiters = old.waiters ∧ p ≠ r.page
        ∨ entry.waiters + 1 = old.waiters ∧ p = r.page) := by
    intro p entry hentry
    rcases LockTable.removeWaiter?_eq_some hr with ⟨hnone, rfl⟩ | ⟨old, k, hold, hk, rfl⟩
    · refine ⟨entry, hentry, rfl, Or.inl ⟨rfl, ?_⟩⟩
      rintro rfl
      rw [hnone] at hentry
      cases hentry
    · rw [LockTable.getElem?_keep] at hentry
      split at hentry
      · rename_i hpage
        split at hentry
        · cases hentry
        · cases hentry
          exact ⟨old, hpage ▸ hold, rfl, Or.inr ⟨hk.symm, hpage⟩⟩
      · rename_i hpage
        exact ⟨entry, hentry, rfl, Or.inl ⟨rfl, hpage⟩⟩
  have hmade : table.made = q.table.made := by
    rcases LockTable.removeWaiter?_eq_some hr with ⟨-, rfl⟩ | ⟨old, k, -, -, rfl⟩ <;> rfl
  refine ⟨⟨home, ?entries, ?requests, Assoc.nodup_keys_erase n hp.numbers⟩, ?counts⟩
  case entries =>
    intro p entry hentry
    obtain ⟨old, hold, hs, -⟩ := hentries p entry hentry
    rw [hmade, hs]
    exact hp.entries p old hold
  case requests =>
    intro m other hm
    rw [Assoc.erase_eq_filter] at hm
    rw [hmade]
    exact hp.requests m other (List.mem_of_mem_filter hm)
  case counts =>
    intro p entry hentry
    obtain ⟨old, hold, hs, hcount⟩ := hentries p entry hentry
    have hbefore := hc p old hold
    have hnow := hsleepers old.serial
    show entry.waiters ≤ sleepersOn (Assoc.erase n q.waiting) entry.serial
      ∧ (exact → entry.waiters = sleepersOn (Assoc.erase n q.waiting) entry.serial)
    rw [hs]
    rcases hcount with ⟨hw, hne⟩ | ⟨hw, rfl⟩
    · -- another page's entry: the request did not sleep on it
      have hother : r.entry ≠ old.serial := by
        intro hentry
        rw [← (hp.entries p old hold).2, ← hentry, hmine.2] at hne
        exact hne rfl
      rw [if_neg hother] at hnow
      rw [hw]
      refine ⟨by omega, fun hx => ?_⟩
      have := hbefore.2 hx
      omega
    · refine ⟨?_, fun hx => ?_⟩
      · split at hnow <;> omega
      · rw [if_pos (hhome hx old hold).symm] at hnow
        have := hbefore.2 hx
        omega

/-- A request that came off has no number any more, so it may be given again. -/
theorem comeOff_frees (q : LockQueue) (n : Nat) (pid : PageId)
    (hs : (q.comeOff n pid).spoiled = false) : n ∉ Assoc.keys (q.comeOff n pid).waiting := by
  rcases q.comeOff_cases n pid with ⟨he, hspoiled⟩ | ⟨he, -, -⟩ | ⟨table, -, -, he⟩
  · rw [he, hspoiled] at hs
    cases hs
  · rw [he] at hs
    cases hs
  · rw [he, ← Assoc.find?_eq_none_iff]
    exact Assoc.find?_erase_self n q.waiting

/-- A transaction that leaves an entry leaves what it counts. -/
theorem of_bind_left {old : Option PageLocks} {entry : PageLocks}
    (h : (old.bind fun e => e.left tx) = some entry) :
    ∃ e, old = some e ∧ entry.serial = e.serial ∧ entry.waiters = e.waiters := by
  obtain ⟨e, he, hl⟩ := Option.bind_eq_some_iff.mp h
  obtain ⟨hrest, -⟩ := PageLocks.of_left hl
  exact ⟨e, he, by rw [hrest], by rw [hrest]⟩

theorem made_foldl_dropHolder (tx : Tx) : ∀ (pages : List PageId) (t : LockTable),
    (pages.foldl (fun t pid => t.dropHolder tx pid) t).made = t.made
  | [], _ => rfl
  | pid :: pages, t => by
    rw [List.foldl_cons, made_foldl_dropHolder tx pages]
    unfold LockTable.dropHolder
    split <;> rfl

theorem made_release (t : LockTable) (tx : Tx) (pid : PageId) :
    (t.release tx pid).made = t.made := by
  have hdrop : (t.dropHolder tx pid).made = t.made := made_foldl_dropHolder tx [pid] t
  unfold LockTable.release LockTable.dropHeld
  split <;> exact hdrop

theorem made_releaseAll (t : LockTable) (tx : Tx) : (t.releaseAll tx).made = t.made := by
  unfold LockTable.releaseAll
  split
  · rfl
  · exact made_foldl_dropHolder tx _ _

/-- **Every operation keeps the counts right**, and exact as long as whoever comes off comes off its
own entry. -/
theorem booked_apply (h : q.Booked exact) (hfresh : q.Fresh op) (hhome : exact → q.AtHome op) :
    (q.apply op).Booked exact := by
  cases op with
  | acquire tx mode pid => exact booked_acquire h tx mode pid
  | request tx mode pid =>
    simp only [apply, LockTable.request_fst]
    exact booked_acquire h tx mode pid
  | release tx pid =>
    simp only [apply, release]
    refine h.fewer (made_release ..) fun p entry he => ?_
    rw [LockTable.getElem?_release] at he
    split at he
    · exact of_bind_left he
    · exact ⟨entry, he, rfl, rfl⟩
  | releaseAll tx =>
    simp only [apply, releaseAll]
    refine h.fewer (made_releaseAll ..) fun p entry he => ?_
    rw [LockTable.getElem?_releaseAll] at he
    split at he
    · exact of_bind_left he
    · exact ⟨entry, he, rfl, rfl⟩
  | clear =>
    simp only [apply, clear]
    refine h.fewer rfl fun p entry he => ?_
    simp [LockTable.clear] at he
  | attempt n tx mode pid => exact booked_attempt h hfresh tx mode pid
  | resume n =>
    simp only [apply, resume]
    split
    · exact h
    · rename_i r hf
      have hoff := booked_comeOff h hf fun hx => hhome hx r hf
      split
      · exact hoff
      · rename_i hs
        exact booked_attempt hoff (q.comeOff_frees n r.page (Bool.eq_false_iff.mpr hs)) _ _ _
  | giveUp n =>
    simp only [apply, giveUp]
    split
    · exact h
    · rename_i r hf
      have hoff := booked_comeOff h hf fun hx => hhome hx r hf
      split
      · exact hoff
      · have ha := booked_acquire hoff r.tx r.mode r.page
        rw [← LockTable.request_fst] at ha
        exact ha

/-! ## 4. Runs -/

theorem Reached.mono {allowed allowed' : LockQueue → LockOp → Prop} (h : Reached allowed q)
    (himp : ∀ q op, allowed q op → allowed' q op) : Reached allowed' q := by
  induction h with
  | new => exact .new
  | op op _ hop ih => exact ih.op op (himp _ _ hop)

/-- An entry never counts more than sleep on it. -/
theorem Reached.bounded (h : Reached Fresh q) : q.Booked False := by
  induction h with
  | new => exact booked_new
  | op op _ hfresh ih => exact booked_apply ih hfresh fun hx => hx.elim

/-- **Where whoever comes off comes off its own entry, the counts are exact.** -/
theorem Reached.counted (h : Reached (fun q op => q.Fresh op ∧ q.AtHome op) q) :
    q.Booked True := by
  induction h with
  | new => exact booked_new
  | op op _ hop ih => exact booked_apply ih hop.1 fun _ => hop.2

/-- A request that comes off its own entry finds itself counted. -/
theorem Counted.pos {entry : PageLocks} (hc : Counted True q)
    (hf : Assoc.find? n q.waiting = some r) (he : q.table.pages[r.page]? = some entry)
    (hs : entry.serial = r.entry) : 0 < entry.waiters := by
  rw [(hc r.page entry he).2 trivial, hs]
  exact sleepersOn_pos hf

/-- So it never spoils the lock manager. -/
theorem Counted.not_spoiled (hc : Counted True q) (hq : q.spoiled = false)
    (hf : Assoc.find? n q.waiting = some r)
    (hhome : ∀ entry, q.table.pages[r.page]? = some entry → entry.serial = r.entry) :
    (q.comeOff n r.page).spoiled = false := by
  rcases q.comeOff_cases n r.page with ⟨he, -⟩ | ⟨-, -, hnone⟩ | ⟨table, -, -, he⟩
  · rwa [he]
  · unfold LockTable.removeWaiter? at hnone
    split at hnone
    · cases hnone
    · rename_i entry hentry
      have hpos := hc.pos hf hentry (hhome entry hentry)
      split at hnone
      · omega
      · cases hnone
  · rwa [he]

theorem spoiled_attempt (q : LockQueue) (n : Nat) (tx : Tx) (mode : LockMode) (pid : PageId) :
    (q.attempt n tx mode pid).1.spoiled = q.spoiled := by
  rcases q.attempt_cases n tx mode pid with ⟨-, he⟩ | ⟨-, he⟩ <;> rw [he]

theorem Reached.not_spoiled (h : Reached (fun q op => q.Fresh op ∧ q.AtHome op) q) :
    q.spoiled = false := by
  induction h with
  | new => rfl
  | @op q op hq hop ih =>
    have hc := hq.counted.2
    cases op with
    | attempt n tx mode pid => exact (q.spoiled_attempt n tx mode pid).trans ih
    | resume n =>
      simp only [apply, resume]
      split
      · exact ih
      · rename_i r hf
        have hs := hc.not_spoiled ih hf (hop.2 r hf)
        rw [if_neg (Bool.eq_false_iff.mp hs), spoiled_attempt]
        exact hs
    | giveUp n =>
      simp only [apply, giveUp]
      split
      · exact ih
      · rename_i r hf
        have hs := hc.not_spoiled ih hf (hop.2 r hf)
        rw [if_neg (Bool.eq_false_iff.mp hs)]
        exact hs
    | _ => exact ih

/-! ## 5. When requests find their entries -/

/-- **The request finds its entry**: its page has the one that it fell asleep on. -/
def Finds (t : LockTable) (r : WaitingRequest) : Prop :=
  ∃ entry, t.pages[r.page]? = some entry ∧ entry.serial = r.entry

/-- Every request that waits finds its entry. -/
def AllFind (q : LockQueue) : Prop :=
  ∀ (n : Nat) (r : WaitingRequest), (n, r) ∈ q.waiting → Finds q.table r

theorem AllFind.atHome (h : q.AllFind) (op : LockOp) : q.AtHome op := by
  have hfound : ∀ n r, Assoc.find? n q.waiting = some r →
      ∀ entry, q.table.pages[r.page]? = some entry → entry.serial = r.entry := by
    intro n r hf entry he
    obtain ⟨own, ho, hs⟩ := h n r (Assoc.mem_of_find? hf)
    rw [he] at ho
    cases ho
    exact hs
  cases op with
  | resume n => exact hfound n
  | giveUp n => exact hfound n
  | _ => trivial

/-- An entry that is put to use is still found, and found by those who fall asleep on it. -/
theorem AllFind.uses (h : q.AllFind) (hu : Uses pid joining q u) : u.AllFind := by
  obtain ⟨holders, hpages⟩ := hu.pages
  intro n r hm
  rw [hu.waiting, List.mem_append] at hm
  by_cases hp : r.page = pid
  · refine ⟨_, (hpages r.page).trans (if_pos hp), ?_⟩
    rcases hm with hm | hm
    · obtain ⟨entry, he, hs⟩ := h n r hm
      rw [hp] at he
      rw [LockTable.entryFor_eq he]
      exact hs
    · exact (hu.joins n r hm).2.symm
  · rcases hm with hm | hm
    · obtain ⟨entry, he, hs⟩ := h n r hm
      exact ⟨entry, (hpages r.page).trans ((if_neg hp).trans he), hs⟩
    · exact absurd (hu.joins n r hm).1 hp

theorem allFind_acquire (h : q.AllFind) (hn : (Assoc.keys q.waiting).Nodup) (tx : Tx)
    (mode : LockMode) (pid : PageId) :
    AllFind { q with table := (q.table.acquire tx mode pid).1 } := by
  rcases acquire_uses hn tx mode pid with hsame | hu
  · rwa [hsame]
  · exact h.uses hu

theorem allFind_attempt (h : q.AllFind) (hn : (Assoc.keys q.waiting).Nodup)
    (hfresh : n ∉ Assoc.keys q.waiting) (tx : Tx) (mode : LockMode) (pid : PageId) :
    (q.attempt n tx mode pid).1.AllFind := by
  rcases attempt_uses hn hfresh tx mode pid with hsame | ⟨joining, hu⟩
  · rwa [hsame]
  · exact h.uses hu

/-- **An entry that counts a request outlasts its holders.** -/
theorem AllFind.left (h : q.AllFind) (hc : Counted True q) (tx : Tx) {table : LockTable}
    {woken : Nat → Bool}
    (htable : ∀ p : PageId, table.pages[p]? = q.table.pages[p]?
      ∨ table.pages[p]? = q.table.pages[p]?.bind fun e => e.left tx) :
    AllFind { q with table := table, waiting := q.wake woken } := by
  intro n r hm
  obtain ⟨⟨m, old⟩, hold, he⟩ := List.mem_map.mp hm
  obtain ⟨hentry, hpage⟩ : r.entry = old.entry ∧ r.page = old.page := by
    simp only [Prod.mk.injEq] at he
    rw [← he.2]
    split <;> exact ⟨rfl, rfl⟩
  obtain ⟨entry, hf, hs⟩ := h m old hold
  unfold Finds
  simp only
  rw [hentry, hpage]
  rcases htable old.page with hsame | hleft
  · exact ⟨entry, hsame.trans hf, hs⟩
  · have hpos : 0 < entry.waiters := by
      rw [(hc old.page entry hf).2 trivial]
      exact List.countP_pos_iff.mpr ⟨(m, old), hold, by simp [hs]⟩
    rw [hleft, hf, Option.bind_some]
    unfold PageLocks.left PageLocks.idle
    simp only
    rw [if_neg (by simp; omega)]
    exact ⟨_, rfl, hs⟩

/-- An entry that one of several comes off still counts the others. -/
theorem allFind_comeOff (h : q.AllFind) (hb : q.Booked True)
    (hf : Assoc.find? n q.waiting = some r) : (q.comeOff n r.page).AllFind := by
  rcases q.comeOff_cases n r.page with ⟨he, -⟩ | ⟨he, -, -⟩ | ⟨table, hr, -, he⟩
  · rwa [he]
  · rw [he]
    exact h
  rw [he]
  intro m other hm
  rw [Assoc.erase_eq_filter] at hm
  obtain ⟨hmem, hne⟩ := List.mem_filter.mp hm
  obtain ⟨entry, hentry, hs⟩ := h m other hmem
  rcases LockTable.removeWaiter?_eq_some hr with ⟨-, rfl⟩ | ⟨old, k, hold, hk, rfl⟩
  · exact ⟨entry, hentry, hs⟩
  · unfold Finds
    simp only
    rw [LockTable.getElem?_keep]
    by_cases hp : other.page = r.page
    · -- both sleep on this entry, so it counted two
      rw [hp, hold] at hentry
      cases hentry
      have hmine : r.entry = entry.serial := by
        obtain ⟨own, ho, hserial⟩ := h n r (Assoc.mem_of_find? hf)
        rw [hold] at ho
        cases ho
        exact hserial.symm
      have hcount := (hb.2 r.page entry hold).2 trivial
      have herase := sleepersOn_erase hb.numbers hf entry.serial
      rw [if_pos hmine] at herase
      have hleft : 0 < sleepersOn (Assoc.erase n q.waiting) entry.serial := by
        refine List.countP_pos_iff.mpr ⟨(m, other), ?_, by simp [hs]⟩
        rw [Assoc.erase_eq_filter]
        exact List.mem_filter.mpr ⟨hmem, hne⟩
      rw [if_pos hp]
      unfold PageLocks.idle
      rw [if_neg (by simp; omega)]
      exact ⟨_, rfl, hs⟩
    · rw [if_neg hp]
      exact ⟨entry, hentry, hs⟩

/-- All locks are forgotten only while nobody waits. -/
def Calm (q : LockQueue) (op : LockOp) : Prop := op = .clear → q.waiting = []

theorem allFind_apply (h : q.AllFind) (hb : q.Booked True) (hfresh : q.Fresh op)
    (hcalm : q.Calm op) : (q.apply op).AllFind := by
  cases op with
  | acquire tx mode pid => exact allFind_acquire h hb.numbers tx mode pid
  | request tx mode pid =>
    simp only [apply, LockTable.request_fst]
    exact allFind_acquire h hb.numbers tx mode pid
  | release tx pid =>
    simp only [apply, release]
    refine h.left hb.2 tx fun p => ?_
    rw [LockTable.getElem?_release]
    split
    · exact Or.inr rfl
    · exact Or.inl rfl
  | releaseAll tx =>
    simp only [apply, releaseAll]
    refine h.left hb.2 tx fun p => ?_
    rw [LockTable.getElem?_releaseAll]
    split
    · exact Or.inr rfl
    · exact Or.inl rfl
  | clear =>
    intro n r hm
    simp only [apply, clear, wake, hcalm rfl] at hm
    cases hm
  | attempt n tx mode pid => exact allFind_attempt h hb.numbers hfresh tx mode pid
  | resume n =>
    simp only [apply, resume]
    split
    · exact h
    · rename_i r hf
      have hoff := allFind_comeOff h hb hf
      have hbooked := booked_comeOff hb hf fun _ => h.atHome (.resume n) r hf
      split
      · exact hoff
      · rename_i hs
        exact allFind_attempt hoff hbooked.numbers
          (q.comeOff_frees n r.page (Bool.eq_false_iff.mpr hs)) _ _ _
  | giveUp n =>
    simp only [apply, giveUp]
    split
    · exact h
    · rename_i r hf
      have hoff := allFind_comeOff h hb hf
      have hbooked := booked_comeOff hb hf fun _ => h.atHome (.giveUp n) r hf
      split
      · exact hoff
      · have ha := allFind_acquire hoff hbooked.numbers r.tx r.mode r.page
        rw [← LockTable.request_fst] at ha
        exact ha

/-- **If all locks are forgotten only while nobody waits, every request comes off its own
entry.** -/
theorem atHome_of_calm (h : Reached (fun q op => q.Fresh op ∧ q.Calm op) q) :
    Reached (fun q op => q.Fresh op ∧ q.AtHome op) q := by
  suffices hall : Reached (fun q op => q.Fresh op ∧ q.AtHome op) q ∧ q.AllFind from hall.1
  induction h with
  | new => exact ⟨.new, fun n r hm => absurd hm List.not_mem_nil⟩
  | op op _ hop ih =>
    exact ⟨ih.1.op op ⟨hop.1, ih.2.atHome op⟩, allFind_apply ih.2 ih.1.counted hop.1 hop.2⟩

/-- **A request that comes off another entry leaves a wrong count**: where the counts were exact,
it spoils the lock manager, or the entry then counts one less than sleep on it, or the entry is gone
while somebody sleeps on it. -/
theorem stray_miscounts {entry : PageLocks} (hb : q.Booked True) (hq : q.spoiled = false)
    (hf : Assoc.find? n q.waiting = some r) (he : q.table.pages[r.page]? = some entry)
    (hstray : entry.serial ≠ r.entry) :
    (q.comeOff n r.page).spoiled = true
      ∨ (∃ left, (q.comeOff n r.page).table.pages[r.page]? = some left
        ∧ left.waiters + 1 = sleepersOn (q.comeOff n r.page).waiting left.serial)
      ∨ (q.comeOff n r.page).table.pages[r.page]? = none
        ∧ 0 < sleepersOn (q.comeOff n r.page).waiting entry.serial := by
  rcases q.comeOff_cases n r.page with ⟨-, hs⟩ | ⟨hoff, -, -⟩ | ⟨table, hr, -, hoff⟩
  · rw [hq] at hs
    cases hs
  · exact Or.inl (by rw [hoff])
  rw [hoff]
  rcases LockTable.removeWaiter?_eq_some hr with ⟨hnone, -⟩ | ⟨old, k, hold, hk, rfl⟩
  · rw [he] at hnone
    cases hnone
  · rw [he] at hold
    cases hold
    have hcount := (hb.2 r.page entry he).2 trivial
    have herase := sleepersOn_erase hb.numbers hf entry.serial
    rw [if_neg (Ne.symm hstray)] at herase
    right
    simp only [LockTable.getElem?_keep, if_true]
    split
    · exact Or.inr ⟨rfl, by omega⟩
    · refine Or.inl ⟨_, rfl, ?_⟩
      show k + 1 = sleepersOn (Assoc.erase n q.waiting) entry.serial
      omega

/-! ## 6. The counts -/

/-- Nothing is left of a table that nobody holds and nobody waits for. -/
theorem Booked.empty (hb : q.Booked exact) (hc : q.table.Consistent) (hw : q.waiting = [])
    (hh : ∀ pid, q.table.holders pid = []) (pid : PageId) : q.table.pages[pid]? = none := by
  cases he : q.table.pages[pid]? with
  | none => rfl
  | some entry =>
    have hcount := (hb.2 pid entry he).1
    rw [hw] at hcount
    have hholders := hh pid
    rw [LockTable.holders_of_entry he] at hholders
    have hused := (hc.entries pid entry he).used
    simp [PageLocks.idle, hholders, Nat.le_zero.mp hcount] at hused

/-- **What the entries count.**  In every state that a lock manager reaches, by any operations of
any transactions and any number of requests that fall asleep, resume and give up, in any order, an
entry counts at most the requests that fell asleep on it and have not come off since, and once
nobody holds a lock and nobody waits there is no entry left.

As long as every request that came off came off its own entry, or found none:

* every entry counts exactly those requests;
* a request that comes off its own entry finds itself counted, and nothing was ever spoiled;
* a release drops only entries that nobody sleeps on. -/
theorem waiters_counted (h : Reached Fresh q) :
    (∀ (pid : PageId) (entry : PageLocks), q.table.pages[pid]? = some entry →
        entry.waiters ≤ sleepersOn q.waiting entry.serial)
      ∧ (q.waiting = [] → (∀ pid, q.table.holders pid = []) →
        ∀ pid : PageId, q.table.pages[pid]? = none)
      ∧ (Reached (fun q op => q.Fresh op ∧ q.AtHome op) q →
        (∀ (pid : PageId) (entry : PageLocks), q.table.pages[pid]? = some entry →
          entry.waiters = sleepersOn q.waiting entry.serial)
        ∧ (∀ (n : Nat) (r : WaitingRequest) (entry : PageLocks),
          Assoc.find? n q.waiting = some r → q.table.pages[r.page]? = some entry →
          entry.serial = r.entry → 0 < entry.waiters)
        ∧ q.spoiled = false
        ∧ ∀ (tx : Tx) (pid p : PageId) (entry : PageLocks), q.table.pages[p]? = some entry →
          (q.apply (.release tx pid)).table.pages[p]? = none
            ∨ (q.apply (.releaseAll tx)).table.pages[p]? = none →
          sleepersOn q.waiting entry.serial = 0) := by
  have hb := h.bounded
  refine ⟨fun pid entry he => (hb.2 pid entry he).1, hb.empty h.consistent, fun hhome => ?_⟩
  have hc := hhome.counted.2
  refine ⟨fun pid entry he => (hc pid entry he).2 trivial,
    fun n r entry hf he hs => hc.pos hf he hs, hhome.not_spoiled, ?_⟩
  intro tx pid p entry he hdropped
  have hidle : entry.left tx = none := by
    simp only [apply, release, releaseAll, LockTable.getElem?_release,
      LockTable.getElem?_releaseAll, he, Option.bind_some] at hdropped
    rcases hdropped with hd | hd
    · split at hd
      · exact hd
      · cases hd
    · split at hd
      · exact hd
      · cases hd
  rw [← (hc p entry he).2 trivial]
  unfold PageLocks.left PageLocks.idle at hidle
  simp only at hidle
  split at hidle
  · rename_i hi
    simp only [Bool.and_eq_true, beq_iff_eq] at hi
    exact hi.2
  · cases hidle

/-- A writer is waited for and leaves; the one who waited comes off, is granted the page and leaves
too, and nothing is left. -/
theorem waiters_counted_turns :
    let pid : PageId := ⟨.number 1, 0⟩
    let asleep := [LockOp.acquire ⟨1⟩ .exclusive pid, .attempt 7 ⟨2⟩ .shared pid].foldl apply {}
    let q := [LockOp.releaseAll ⟨1⟩, .resume 7, .release ⟨2⟩ pid].foldl apply asleep
    (∃ entry, asleep.table.pages[pid]? = some entry ∧ entry.waiters = 1
        ∧ entry.waiters = sleepersOn asleep.waiting entry.serial)
      ∧ q.spoiled = false ∧ (∀ p, q.table.holders p = []) ∧ q.table.pages[pid]? = none := by
  intro pid asleep q
  have hasleep : Reached (fun q op => q.Fresh op ∧ q.Calm op) asleep :=
    (Reached.new.op (.acquire ⟨1⟩ .exclusive pid) ⟨trivial, LockOp.noConfusion⟩).op
      (.attempt 7 ⟨2⟩ .shared pid) ⟨List.not_mem_nil, LockOp.noConfusion⟩
  have hq : Reached (fun q op => q.Fresh op ∧ q.Calm op) q :=
    ((hasleep.op (.releaseAll ⟨1⟩) ⟨trivial, LockOp.noConfusion⟩).op (.resume 7)
      ⟨trivial, LockOp.noConfusion⟩).op (.release ⟨2⟩ pid) ⟨trivial, LockOp.noConfusion⟩
  have hcounts := (waiters_counted (hasleep.mono fun _ _ h => h.1)).2.2 (atHome_of_calm hasleep)
  have hend := waiters_counted (hq.mono fun _ _ h => h.1)
  have he : asleep.table.pages[pid]? = some ⟨0, [⟨⟨1⟩, .exclusive⟩], 1⟩ := by decide +kernel
  have hw : q.waiting = [] := by decide +kernel
  have hpages : q.table.pages.toList = [] := by decide +kernel
  have hholders : ∀ p, q.table.holders p = [] := by
    intro p
    refine LockTable.holders_of_no_entry ?_
    rw [Option.eq_none_iff_forall_ne_some]
    intro entry hentry
    have hm := Std.TreeMap.mem_toList_iff_getElem?_eq_some.mpr hentry
    rw [hpages] at hm
    cases hm
  exact ⟨⟨_, he, rfl, hcounts.1 pid _ he⟩, (hend.2.2 (atHome_of_calm hq)).2.2.1, hholders,
    hend.2.1 hw hholders pid⟩

/-- **A request goes astray.**  While one transaction waits for a page, all locks are forgotten and
a third one locks the page anew.

* If nobody waits for the new lock, the first request comes off a count of none, and spoils the
  lock manager for everyone.
* If another one waits for the new lock, the first request takes it off the count.  The entry then
  counts nobody while one sleeps on it, and a release drops it under the sleeper. -/
theorem waiters_miscounted :
    let pid : PageId := ⟨.number 1, 0⟩
    let anew := [LockOp.acquire ⟨1⟩ .exclusive pid, .attempt 7 ⟨2⟩ .shared pid, .clear,
      .acquire ⟨3⟩ .exclusive pid].foldl apply {}
    let astray := [LockOp.attempt 8 ⟨4⟩ .shared pid, .giveUp 7].foldl apply anew
    (Reached Fresh anew ∧ anew.spoiled = false ∧ (anew.apply (.resume 7)).spoiled = true)
      ∧ Reached Fresh astray
      ∧ (∃ entry, astray.table.pages[pid]? = some entry ∧ entry.waiters = 0
        ∧ sleepersOn astray.waiting entry.serial = 1)
      ∧ (astray.apply (.release ⟨3⟩ pid)).table.pages[pid]? = none := by
  intro pid anew astray
  have hanew : Reached Fresh anew :=
    (((Reached.new.op (.acquire ⟨1⟩ .exclusive pid) trivial).op (.attempt 7 ⟨2⟩ .shared pid)
      List.not_mem_nil).op .clear trivial).op (.acquire ⟨3⟩ .exclusive pid) trivial
  have hfree : 8 ∉ Assoc.keys anew.waiting := by decide +kernel
  have hastray : Reached Fresh astray :=
    (hanew.op (.attempt 8 ⟨4⟩ .shared pid) hfree).op (.giveUp 7) trivial
  have he : astray.table.pages[pid]? = some ⟨1, [⟨⟨3⟩, .exclusive⟩], 0⟩ := by decide +kernel
  exact ⟨⟨hanew, by decide +kernel, by decide +kernel⟩, hastray,
    ⟨_, he, rfl, by decide +kernel⟩, by decide +kernel⟩

end LockQueue

end RowStore
