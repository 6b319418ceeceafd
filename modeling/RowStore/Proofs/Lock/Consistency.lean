import Mathlib.Data.List.Nodup
import RowStore.Lock.Waiting
import RowStore.Proofs.Lock.Strict

/-!
# The two maps of a lock table agree

A lock table says twice who holds what: by page and by transaction.  A release of everything trusts
the second map and never looks at the pages themselves, so the two have to agree at all times.

`LockTable.Consistent` is the invariant: the holders of every page may hold it together
(`Holder.Legal`), the map by transaction is the exact inverse of the map by page, and neither map
has an entry that says nothing.  Every operation keeps it, failed or not, and so does a request
that falls asleep or wakes up, so it holds in every state that a lock manager reaches
(`LockQueue.Reached.consistent`).  Main statement: `maps_agree`.
-/

namespace RowStore

/-! ## 1. Holders of one page -/

namespace Holder

variable {hs hs' : List Holder} {tx other : Tx} {mode : LockMode}

/-- **Who may hold a page together**: every transaction once, and one writer alone or nothing but
readers. -/
structure Legal (hs : List Holder) : Prop where
  nodup : (hs.map Holder.tx).Nodup
  modes : (∃ tx, hs = [⟨tx, .exclusive⟩]) ∨ ∀ holder ∈ hs, holder.mode = .shared

theorem legal_nil : Legal [] := ⟨List.nodup_nil, Or.inr fun _ h => absurd h List.not_mem_nil⟩

theorem legal_singleton (tx : Tx) : ∀ mode : LockMode, Legal [⟨tx, mode⟩]
  | .exclusive => ⟨List.nodup_singleton tx, Or.inl ⟨tx, rfl⟩⟩
  | .shared => ⟨List.nodup_singleton tx, Or.inr (by simp)⟩

/-- Where some go, the others may stay. -/
theorem Legal.filter (h : Legal hs) (keep : Holder → Bool) : Legal (hs.filter keep) := by
  refine ⟨(List.filter_sublist.map Holder.tx).nodup h.nodup, ?_⟩
  rcases h.modes with ⟨tx, rfl⟩ | hshared
  · cases hk : keep ⟨tx, .exclusive⟩ with
    | true => exact Or.inl ⟨tx, by simp [hk]⟩
    | false => exact Or.inr (by simp [hk])
  · exact Or.inr fun holder hm => hshared holder (List.mem_filter.mp hm).1

/-- Two or more holders are readers. -/
theorem Legal.shared_of_two {first second : Holder} {rest : List Holder}
    (h : Legal (first :: second :: rest)) :
    ∀ holder ∈ first :: second :: rest, holder.mode = .shared := by
  rcases h.modes with ⟨tx, he⟩ | hshared
  · cases he
  · exact hshared

theorem modeIn_eq_none_iff : modeIn hs tx = none ↔ tx ∉ hs.map Holder.tx := by
  simp [modeIn]

/-- The lock of a transaction is that of the one entry it has. -/
theorem Legal.modeIn_eq_some_iff (h : Legal hs) : modeIn hs tx = some mode ↔ ⟨tx, mode⟩ ∈ hs := by
  unfold modeIn
  rw [Option.map_eq_some_iff]
  constructor
  · rintro ⟨holder, hf, rfl⟩
    have htx : holder.tx = tx := by simpa using List.find?_some hf
    have hm := List.mem_of_find?_eq_some hf
    rwa [← htx]
  · intro hm
    have hsome : (hs.find? fun holder => holder.tx = tx).isSome := by
      rw [List.find?_isSome]
      exact ⟨_, hm, by simp⟩
    obtain ⟨found, hf⟩ := Option.isSome_iff_exists.mp hsome
    have htx : found.tx = tx := by simpa using List.find?_some hf
    have he := List.inj_on_of_nodup_map h.nodup (List.mem_of_find?_eq_some hf) hm htx
    exact ⟨found, hf, by rw [he]⟩

/-- **What a grant does** to holders that may hold a page together. -/
inductive Granted (tx : Tx) (mode : LockMode) (hs : List Holder) : List Holder → Prop
  /-- The only reader becomes the writer. -/
  | upgraded : hs = [⟨tx, .shared⟩] → mode = .exclusive → Granted tx mode hs [⟨tx, .exclusive⟩]
  /-- A holder has already what it asks for. -/
  | kept {held : LockMode} : modeIn hs tx = some held → mode.AtMost held → Granted tx mode hs hs
  /-- There is one holder more, the first one or a reader among readers. -/
  | joined : tx ∉ hs.map Holder.tx → (∀ holder ∈ hs, holder.mode = .shared ∧ mode = .shared) →
      Granted tx mode hs (hs ++ [⟨tx, mode⟩])

theorem Legal.granted (h : Legal hs) (hg : grant hs tx mode = some hs') :
    Granted tx mode hs hs' := by
  unfold grant at hg
  split at hg
  · -- the page is free
    cases hg
    exact .joined List.not_mem_nil fun _ hm => absurd hm List.not_mem_nil
  · -- there is one holder, the transaction itself or another one
    rename_i holder
    obtain ⟨owner, held⟩ := holder
    split at hg
    · rename_i ho
      obtain rfl : owner = tx := ho
      split at hg
      · rename_i hup
        obtain ⟨rfl, rfl⟩ : held = .shared ∧ mode = .exclusive := hup
        cases hg
        exact .upgraded rfl rfl
      · rename_i hup
        cases hg
        refine @Granted.kept _ _ _ held (by simp [modeIn]) fun hm => ?_
        cases held with
        | shared => exact absurd ⟨rfl, hm⟩ hup
        | exclusive => rfl
    · rename_i ho
      split at hg
      · rename_i hshared
        cases hg
        exact .joined (by simpa using Ne.symm ho) (by simpa using hshared)
      · cases hg
  · -- there are two holders or more, so all are readers
    rename_i hmany
    have hshared : ∀ holder ∈ hs, holder.mode = .shared := by
      rcases h.modes with ⟨owner, rfl⟩ | hshared
      · exact absurd rfl (hmany _)
      · exact hshared
    split at hg
    · cases hg
    · rename_i hm
      have hm : mode = .shared := by cases mode <;> simp_all
      split at hg
      · rename_i hany
        cases hg
        simp only [List.any_eq_true, decide_eq_true_eq] at hany
        obtain ⟨holder, hin, rfl⟩ := hany
        exact .kept (h.modeIn_eq_some_iff.mpr hin) fun he => by simp [hm] at he
      · rename_i hany
        cases hg
        refine .joined (fun hin => hany ?_) fun holder hin => ⟨hshared holder hin, hm⟩
        simpa using hin

namespace Granted

/-- **A grant leaves holders that may hold the page together.** -/
theorem legal (hg : Granted tx mode hs hs') (h : Legal hs) : Legal hs' := by
  cases hg with
  | upgraded _ _ => exact legal_singleton tx .exclusive
  | kept _ _ => exact h
  | joined hnew hshared =>
    refine ⟨?_, ?_⟩
    · rw [List.map_append, List.map_singleton]
      exact h.nodup.append (List.nodup_singleton tx) (List.disjoint_singleton.mpr hnew)
    · cases hs with
      | nil => exact (legal_singleton tx mode).modes
      | cons first rest =>
        right
        intro holder hm
        rw [List.mem_append, List.mem_singleton] at hm
        rcases hm with hm | rfl
        · exact (hshared holder hm).1
        · exact (hshared first List.mem_cons_self).2

/-- The holders after a grant are those before and the transaction. -/
theorem mem_iff (hg : Granted tx mode hs hs') :
    other ∈ hs'.map Holder.tx ↔ other = tx ∨ other ∈ hs.map Holder.tx := by
  cases hg with
  | upgraded he _ => simp [he]
  | kept hm _ =>
    have hin : tx ∈ hs.map Holder.tx := Classical.byContradiction fun hn => by
      rw [modeIn_eq_none_iff.mpr hn] at hm
      cases hm
    constructor
    · exact Or.inr
    · rintro (rfl | ho)
      · exact hin
      · exact ho
  | joined _ _ => simp [or_comm]

end Granted

end Holder

/-! ## 2. The invariant -/

/-- An entry says something: somebody holds the page or waits for it, and the holders may hold it
together. -/
structure PageLocks.Proper (e : PageLocks) : Prop where
  legal : Holder.Legal e.holders
  used : e.idle = false

namespace LockTable

/-- Every entry has the property. -/
def Every (P : PageLocks → Prop) (t : LockTable) : Prop :=
  ∀ (pid : PageId) (entry : PageLocks), t.pages[pid]? = some entry → P entry

/-- **The two maps agree.** -/
structure Consistent (t : LockTable) : Prop where
  /-- The holders of every page may hold it together, and no entry is without holders and waiting
  requests. -/
  entries : t.Every PageLocks.Proper
  /-- A page is among a transaction's pages exactly if the transaction is among its holders. -/
  inverse : ∀ (tx : Tx) (pid : PageId), pid ∈ t.pagesOf tx ↔ tx ∈ (t.holders pid).map Holder.tx
  /-- No transaction has two sets of pages. -/
  nodup : (Assoc.keys t.held).Nodup
  /-- No transaction has an empty set of pages. -/
  nonempty : ∀ {tx : Tx} {pages : PageSet}, Assoc.find? tx t.held = some pages →
    pages.isEmpty = false

variable {t u : LockTable} {tx other : Tx} {pid p : PageId} {mode : LockMode} {entry : PageLocks}

theorem consistent_empty : Consistent {} where
  entries pid entry h := by simp at h
  inverse tx pid := by
    constructor
    · exact fun h => absurd h Std.TreeSet.not_mem_emptyc
    · exact fun h => absurd h List.not_mem_nil
  nodup := List.nodup_nil
  nonempty h := by cases h

/-- The holders of a page are legal, also where the page has no entry. -/
theorem Consistent.legal (h : t.Consistent) (pid : PageId) : Holder.Legal (t.holders pid) := by
  unfold holders
  split
  · rename_i entry he
    exact (h.entries pid entry he).legal
  · exact Holder.legal_nil

/-! ## 3. Entries -/

/-- An entry that is written is the entry of its page, and no other changes. -/
theorem getElem?_insert (t : LockTable) (pid p : PageId) (entry : PageLocks) :
    (t.pages.insert pid entry)[p]? = if p = pid then some entry else t.pages[p]? := by
  simp only [Std.TreeMap.getElem?_insert, Std.compare_eq_iff_eq, @eq_comm _ pid p]

/-- An entry that is kept was not idle, and no other changes. -/
theorem getElem?_keep (t : LockTable) (pid p : PageId) (entry : PageLocks) :
    (t.keep pid entry).pages[p]? = if p = pid then (if entry.idle then none else some entry)
      else t.pages[p]? := by
  unfold keep
  split
  · rename_i hi
    simp only [Std.TreeMap.getElem?_erase, Std.compare_eq_iff_eq, @eq_comm _ pid p]
  · exact t.getElem?_insert pid p entry

theorem Every.keep {P : PageLocks → Prop} (h : t.Every P) (he : entry.idle = false → P entry) :
    (t.keep pid entry).Every P := by
  intro p found hf
  rw [getElem?_keep] at hf
  split at hf
  · split at hf
    · cases hf
    · rename_i hi
      cases hf
      exact he (Bool.eq_false_iff.mpr hi)
  · exact h p found hf

/-- **The property outlasts the transaction's leaving**: an entry that is still in use has it, if
the entry had it before the transaction left. -/
def Lasting (tx : Tx) (P : PageLocks → Prop) : Prop :=
  ∀ entry : PageLocks, P entry → ∀ left : PageLocks, left.idle = false →
    left = { entry with holders := entry.holders.filter fun h => h.tx ≠ tx } → P left

theorem Every.dropHolder {P : PageLocks → Prop} (hP : Lasting tx P) (h : t.Every P)
    (pid : PageId) : (t.dropHolder tx pid).Every P := by
  unfold LockTable.dropHolder
  split
  · exact h
  · rename_i entry he
    exact h.keep fun hi => hP entry (h pid entry he) _ hi rfl

theorem Every.foldl_dropHolder {P : PageLocks → Prop} (hP : Lasting tx P) (h : t.Every P)
    (pages : List PageId) : (pages.foldl (fun t pid => t.dropHolder tx pid) t).Every P := by
  induction pages generalizing t with
  | nil => exact h
  | cons pid pages ih => exact ih (h.dropHolder hP pid)

/-- A property that outlasts its leaving is kept when a transaction releases everything. -/
theorem Every.releaseAll {P : PageLocks → Prop} (hP : Lasting tx P) (h : t.Every P) :
    (t.releaseAll tx).Every P := by
  unfold LockTable.releaseAll
  split
  · exact h
  · refine Every.foldl_dropHolder hP (fun p found hf => ?_) _
    exact h p found hf

/-- A page without an entry gets one that nobody holds or waits for. -/
theorem entryFor_snd (t : LockTable) (pid : PageId) :
    t.pages[pid]? = some (t.entryFor pid).2
      ∨ t.pages[pid]? = none ∧ (t.entryFor pid).2 = ⟨t.made, [], 0⟩ := by
  unfold entryFor
  split
  · rename_i entry he
    exact Or.inl he
  · rename_i hn
    exact Or.inr ⟨hn, rfl⟩

/-- The entries after a grant. -/
theorem getElem?_acquire {hs : List Holder}
    (h : Holder.grant (t.holders pid) tx mode = some hs) (p : PageId) :
    (t.acquire tx mode pid).1.pages[p]?
      = if p = pid then some { (t.entryFor pid).2 with holders := hs } else t.pages[p]? := by
  unfold acquire
  rw [h]
  simp only
  rw [noteHeld_pages, getElem?_insert, entryFor_fst_pages]

/-! ## 4. Sets of pages -/

/-- The sets of pages after a grant. -/
theorem find?_held_acquire {hs : List Holder}
    (h : Holder.grant (t.holders pid) tx mode = some hs) (other : Tx) :
    Assoc.find? other (t.acquire tx mode pid).1.held
      = if other = tx then some ((t.pagesOf tx).insert pid) else Assoc.find? other t.held := by
  unfold acquire
  rw [h]
  simp only [noteHeld]
  have hp : pagesOf { (t.entryFor pid).1 with
      pages := (t.entryFor pid).1.pages.insert pid { (t.entryFor pid).2 with holders := hs } } tx
      = t.pagesOf tx := pagesOf_congr (t.entryFor_fst_held pid) tx
  rw [hp, entryFor_fst_held]
  split
  · rename_i he
    rw [he, Assoc.find?_set_self]
  · rename_i hne
    exact Assoc.find?_set_of_ne _ hne _

theorem keys_held_acquire (h : (Assoc.keys t.held).Nodup) :
    (Assoc.keys (t.acquire tx mode pid).1.held).Nodup := by
  unfold acquire
  split
  · exact h
  · simp only [noteHeld]
    rw [entryFor_fst_held]
    exact Assoc.nodup_keys_set _ _ h

/-- Taking a page out of a set leaves no empty set behind. -/
theorem nonempty_dropHeld
    (h : ∀ {tx : Tx} {pages : PageSet}, Assoc.find? tx t.held = some pages →
      pages.isEmpty = false)
    {pages : PageSet} (hf : Assoc.find? other (t.dropHeld tx pid).held = some pages) :
    pages.isEmpty = false := by
  unfold dropHeld at hf
  split at hf
  · exact h hf
  · rename_i old _
    by_cases hr : (old.erase pid).isEmpty = true
    · simp only [if_pos hr] at hf
      exact h (Assoc.find?_of_erase hf)
    · simp only [if_neg hr] at hf
      by_cases ho : other = tx
      · rw [ho, Assoc.find?_set_self] at hf
        cases hf
        exact Bool.eq_false_iff.mpr hr
      · rw [Assoc.find?_set_of_ne _ ho] at hf
        exact h hf

theorem keys_held_dropHeld (h : (Assoc.keys t.held).Nodup) :
    (Assoc.keys (t.dropHeld tx pid).held).Nodup := by
  unfold dropHeld
  split
  · exact h
  · rename_i old _
    by_cases hr : (old.erase pid).isEmpty = true
    · simp only [if_pos hr]
      exact Assoc.nodup_keys_erase _ h
    · simp only [if_neg hr]
      exact Assoc.nodup_keys_set _ _ h

/-! ## 5. Operations -/

/-- **An attempt keeps the maps in agreement**, granted or denied. -/
theorem Consistent.acquire (h : t.Consistent) (tx : Tx) (mode : LockMode) (pid : PageId) :
    (t.acquire tx mode pid).1.Consistent := by
  cases hg : Holder.grant (t.holders pid) tx mode with
  | none => rwa [acquire_of_denied (by rw [acquire_snd, hg]; rfl)]
  | some hs =>
    have hgranted := (h.legal pid).granted hg
    constructor
    case entries =>
      intro p found hf
      rw [getElem?_acquire hg] at hf
      split at hf
      · cases hf
        refine ⟨hgranted.legal (h.legal pid), ?_⟩
        have hin : tx ∈ hs.map Holder.tx := hgranted.mem_iff.mpr (Or.inl rfl)
        cases hs with
        | nil => exact absurd hin List.not_mem_nil
        | cons first rest => rfl
      · exact h.entries p found hf
    case inverse =>
      intro other p
      rw [mem_pagesOf_acquire hg, holders_acquire hg, h.inverse]
      split
      · rename_i hp
        rw [hgranted.mem_iff, hp]
        simp
      · rename_i hp
        simp [hp]
    case nodup => exact keys_held_acquire h.nodup
    case nonempty =>
      intro other pages hf
      rw [find?_held_acquire hg] at hf
      split at hf
      · cases hf
        simp
      · exact h.nonempty hf

theorem request_fst (t : LockTable) (tx : Tx) (mode : LockMode) (pid : PageId) :
    (t.request tx mode pid).1 = (t.acquire tx mode pid).1 := by
  unfold request
  split <;> rename_i ha <;> rw [ha]

theorem mem_map_tx_filter (hs : List Holder) (tx other : Tx) :
    other ∈ (hs.filter fun holder => holder.tx ≠ tx).map Holder.tx
      ↔ other ≠ tx ∧ other ∈ hs.map Holder.tx := by
  simp only [List.mem_map, List.mem_filter, decide_eq_true_eq]
  constructor
  · rintro ⟨holder, ⟨hm, hne⟩, rfl⟩
    exact ⟨hne, holder, hm, rfl⟩
  · rintro ⟨hne, holder, hm, rfl⟩
    exact ⟨holder, ⟨hm, hne⟩, rfl⟩

theorem lasting_proper (tx : Tx) : Lasting tx PageLocks.Proper :=
  fun _ h _ hi hl => ⟨hl ▸ h.legal.filter _, hi⟩

/-- **A release keeps the maps in agreement**, also one of a page that is not held. -/
theorem Consistent.release (h : t.Consistent) (tx : Tx) (pid : PageId) :
    (t.release tx pid).Consistent := by
  have hheld : (t.dropHolder tx pid).held = t.held := dropHolder_held t tx pid
  constructor
  case entries =>
    intro p found hf
    rw [LockTable.release, dropHeld_pages] at hf
    exact h.entries.dropHolder (lasting_proper tx) pid p found hf
  case inverse =>
    intro other p
    rw [mem_pagesOf_release, holders_release, h.inverse]
    split
    · rename_i hp
      rw [mem_map_tx_filter, hp]
      simp
    · rename_i hp
      simp [hp]
  case nodup => exact keys_held_dropHeld (hheld.symm ▸ h.nodup)
  case nonempty =>
    intro other pages hf
    exact nonempty_dropHeld (hheld.symm ▸ h.nonempty) hf

/-- **A transaction's release of everything keeps the maps in agreement.**  What it takes out by
one map is all there is in the other. -/
theorem Consistent.releaseAll (h : t.Consistent) (tx : Tx) : (t.releaseAll tx).Consistent := by
  constructor
  case entries => exact h.entries.releaseAll (lasting_proper tx)
  case inverse =>
    intro other p
    rw [pagesOf_releaseAll, holders_releaseAll]
    by_cases ho : other = tx
    · rw [if_pos ho, ho]
      split
      · rw [mem_map_tx_filter]
        simp
      · rename_i hn
        rw [← h.inverse]
        exact ⟨fun hm => absurd hm Std.TreeSet.not_mem_emptyc, fun hm => absurd hm hn⟩
    · rw [if_neg ho, h.inverse]
      split
      · rw [mem_map_tx_filter]
        simp [ho]
      · rfl
  case nodup =>
    unfold LockTable.releaseAll
    split
    · exact h.nodup
    · rw [foldl_dropHolder_held]
      exact Assoc.nodup_keys_erase tx h.nodup
  case nonempty =>
    intro other pages hf
    unfold LockTable.releaseAll at hf
    split at hf
    · exact h.nonempty hf
    · rw [foldl_dropHolder_held] at hf
      exact h.nonempty (Assoc.find?_of_erase hf)

/-- **A transaction's locks are gone, and nobody else's changed.** -/
structure Frees (tx : Tx) (t u : LockTable) : Prop where
  /-- The transaction is among the holders of no page; the others stay, in their order. -/
  holders_eq : ∀ pid, u.holders pid = (t.holders pid).filter fun holder => holder.tx ≠ tx
  /-- The transaction has no page, and all others have theirs. -/
  pagesOf_eq : ∀ other, u.pagesOf other = if other = tx then ∅ else t.pagesOf other

/-- **A release of everything releases everything**: where the maps agree, none of the
transaction's locks is left on any page. -/
theorem Consistent.frees (h : t.Consistent) (tx : Tx) : Frees tx t (t.releaseAll tx) where
  holders_eq pid := by
    rw [holders_releaseAll]
    split
    · rfl
    · rename_i hn
      refine (List.filter_eq_self.mpr fun holder hm => decide_eq_true ?_).symm
      rintro rfl
      exact hn ((h.inverse holder.tx pid).mpr (List.mem_map_of_mem hm))
  pagesOf_eq := t.pagesOf_releaseAll tx

theorem consistent_clear (t : LockTable) : t.clear.Consistent :=
  ⟨consistent_empty.entries, consistent_empty.inverse, consistent_empty.nodup,
    consistent_empty.nonempty⟩

/-- Counting one more waiting request keeps the maps in agreement. -/
theorem Consistent.addWaiter (h : t.Consistent) (pid : PageId) :
    (t.addWaiter pid).1.Consistent := by
  have hholders : ∀ p, (t.addWaiter pid).1.holders p = t.holders p := by
    intro p
    unfold LockTable.addWaiter
    rw [holders_insert, holders_congr (entryFor_fst_pages t pid)]
    split
    · rename_i hp
      rw [hp]
      exact entryFor_snd_holders t pid
    · rfl
  have hheld : (t.addWaiter pid).1.held = t.held := entryFor_fst_held t pid
  refine ⟨?entries, ?inverse, hheld.symm ▸ h.nodup, hheld.symm ▸ h.nonempty⟩
  case entries =>
    intro p found hf
    unfold LockTable.addWaiter at hf
    rw [getElem?_insert, entryFor_fst_pages] at hf
    split at hf
    · cases hf
      refine ⟨?_, by simp [PageLocks.idle]⟩
      rw [entryFor_snd_holders]
      exact h.legal pid
    · exact h.entries p found hf
  case inverse =>
    intro tx p
    rw [pagesOf_congr hheld, hholders]
    exact h.inverse tx p

/-- Counting one less keeps the maps in agreement. -/
theorem Consistent.removeWaiter (h : t.Consistent) (hr : t.removeWaiter? pid = some u) :
    u.Consistent := by
  unfold removeWaiter? at hr
  split at hr
  · cases hr
    exact h
  · rename_i entry he
    split at hr
    · cases hr
    · rename_i n _
      cases hr
      refine ⟨h.entries.keep fun hi => ⟨(h.entries pid entry he).legal, hi⟩, ?_, h.nodup,
        h.nonempty⟩
      intro tx p
      rw [holders_keep]
      split
      · rename_i hp
        rw [← holders_of_entry he, hp]
        exact h.inverse tx pid
      · exact h.inverse tx p

end LockTable

/-! ## 6. Lock managers -/

/-- What is asked of a lock manager.  The first five are done at once; a request that may wait makes
an attempt, and after each waking it resumes or gives up. -/
inductive LockOp where
  | acquire (tx : Tx) (mode : LockMode) (pid : PageId)
  | request (tx : Tx) (mode : LockMode) (pid : PageId)
  | release (tx : Tx) (pid : PageId)
  | releaseAll (tx : Tx)
  | clear
  | attempt (n : Nat) (tx : Tx) (mode : LockMode) (pid : PageId)
  | resume (n : Nat)
  | giveUp (n : Nat)

/-- The operations that wait for nothing. -/
def LockOp.AtOnce : LockOp → Prop
  | attempt .. | resume _ | giveUp _ => False
  | _ => True

namespace LockQueue

/-- The lock manager after an operation. -/
def apply (q : LockQueue) : LockOp → LockQueue
  | .acquire tx mode pid => (q.acquire tx mode pid).1
  | .request tx mode pid => { q with table := (q.table.request tx mode pid).1 }
  | .release tx pid => q.release tx pid
  | .releaseAll tx => q.releaseAll tx
  | .clear => q.clear
  | .attempt n tx mode pid => (q.attempt n tx mode pid).1
  | .resume n => q.resume n
  | .giveUp n => (q.giveUp n).1

/-- **The states that a new lock manager reaches** by operations that are allowed where they are
made, of any transactions in any order. -/
inductive Reached (allowed : LockQueue → LockOp → Prop) : LockQueue → Prop
  | new : Reached allowed {}
  | op {q : LockQueue} (op : LockOp) : Reached allowed q → allowed q op →
      Reached allowed (q.apply op)

variable {q : LockQueue} {n : Nat} {tx : Tx} {mode : LockMode} {pid : PageId}

theorem consistent_attempt (h : q.table.Consistent) :
    (q.attempt n tx mode pid).1.table.Consistent := by
  have ha := h.acquire tx mode pid
  unfold attempt
  split <;> rename_i table he <;> rw [he] at ha
  · exact ha
  · exact ha.addWaiter pid

theorem consistent_comeOff (h : q.table.Consistent) : (q.comeOff n pid).table.Consistent := by
  unfold comeOff
  split
  · exact h
  · split
    · exact h
    · rename_i table hr
      exact h.removeWaiter hr

/-- **Every operation keeps the maps in agreement.** -/
theorem consistent_apply (h : q.table.Consistent) (op : LockOp) :
    (q.apply op).table.Consistent := by
  cases op with
  | acquire tx mode pid => exact h.acquire tx mode pid
  | request tx mode pid =>
    simp only [apply, LockTable.request_fst]
    exact h.acquire tx mode pid
  | release tx pid => exact h.release tx pid
  | releaseAll tx => exact h.releaseAll tx
  | clear => exact q.table.consistent_clear
  | attempt n tx mode pid => exact consistent_attempt h
  | resume n =>
    simp only [apply, resume]
    split
    · exact h
    · split
      · exact consistent_comeOff h
      · exact consistent_attempt (consistent_comeOff h)
  | giveUp n =>
    simp only [apply, giveUp]
    split
    · exact h
    · split
      · exact consistent_comeOff h
      · rename_i r _ _
        have hr := (@consistent_comeOff q n r.page h).acquire r.tx r.mode r.page
        rw [← LockTable.request_fst] at hr
        exact hr

theorem Reached.consistent {allowed : LockQueue → LockOp → Prop} (h : Reached allowed q) :
    q.table.Consistent := by
  induction h with
  | new => exact LockTable.consistent_empty
  | op op _ _ ih => exact consistent_apply ih op

/-! ## 7. Without waiting -/

/-- A release leaves the number of waiting requests. -/
theorem lasting_unwaited (tx : Tx) : LockTable.Lasting tx fun entry => entry.waiters = 0 :=
  fun _ h _ _ hl => hl ▸ h

theorem unwaited_acquire {t : LockTable} (h : t.Every fun entry => entry.waiters = 0) (tx : Tx)
    (mode : LockMode) (pid : PageId) :
    (t.acquire tx mode pid).1.Every fun entry => entry.waiters = 0 := by
  cases hg : Holder.grant (t.holders pid) tx mode with
  | none => rwa [LockTable.acquire_of_denied (by rw [LockTable.acquire_snd, hg]; rfl)]
  | some hs =>
    intro p found hf
    rw [LockTable.getElem?_acquire hg] at hf
    split at hf
    · cases hf
      show (t.entryFor pid).2.waiters = 0
      rcases t.entryFor_snd pid with he | ⟨-, he⟩
      · exact h pid (t.entryFor pid).2 he
      · rw [he]
    · exact h p found hf

/-- Where nobody waits, nobody does after an operation that waits for nothing. -/
theorem unwaited_apply (hw : q.waiting = []) (h : q.table.Every fun entry => entry.waiters = 0)
    {op : LockOp} (hop : op.AtOnce) :
    (q.apply op).waiting = [] ∧ (q.apply op).table.Every fun entry => entry.waiters = 0 := by
  have hwake : ∀ woken, q.wake woken = [] := fun woken => by rw [wake, hw]; rfl
  cases op with
  | acquire tx mode pid => exact ⟨hw, unwaited_acquire h tx mode pid⟩
  | request tx mode pid =>
    simp only [apply, LockTable.request_fst]
    exact ⟨hw, unwaited_acquire h tx mode pid⟩
  | release tx pid =>
    simp only [apply, release, hwake, true_and]
    intro p found hf
    rw [LockTable.release, LockTable.dropHeld_pages] at hf
    exact h.dropHolder (lasting_unwaited tx) pid p found hf
  | releaseAll tx =>
    simp only [apply, releaseAll, hwake, true_and]
    exact h.releaseAll (lasting_unwaited tx)
  | clear =>
    simp only [apply, clear, hwake, true_and]
    intro p found hf
    simp [LockTable.clear] at hf
  | _ => cases hop

/-- **The maps agree.**  In every state that a lock manager reaches by attempts, requests whose
deadline has come, releases and forgetting all locks, of any transactions in any order:

* the holders of every page are different transactions, and are one writer or one or more readers;
* a page is among a transaction's pages exactly if the transaction is among its holders;
* there is no entry without holders, none that counts a waiting request, and no transaction with an
  empty set of pages. -/
theorem maps_agree (h : Reached (fun _ op => op.AtOnce) q) :
    q.table.Consistent ∧ (∀ (pid : PageId) (entry : PageLocks), q.table.pages[pid]? = some entry →
      entry.holders ≠ [] ∧ entry.waiters = 0) := by
  have hwaits : q.waiting = [] ∧ q.table.Every fun entry => entry.waiters = 0 := by
    induction h with
    | new => exact ⟨rfl, fun pid entry he => by simp at he⟩
    | op op _ hop ih => exact unwaited_apply ih.1 ih.2 hop
  refine ⟨h.consistent, fun pid entry he => ?_⟩
  have hw := hwaits.2 pid entry he
  refine ⟨fun hn => ?_, hw⟩
  have hused := (h.consistent.entries pid entry he).used
  simp [PageLocks.idle, hn, hw] at hused

/-- Two transactions read a page, the first may not write it, and a release of what it never held
changes nothing; when the other one goes, the first becomes the writer. -/
theorem maps_agree_upgraded :
    let pid : PageId := ⟨.number 1, 0⟩
    let q := [LockOp.acquire ⟨1⟩ .shared pid, .acquire ⟨2⟩ .shared pid,
      .request ⟨1⟩ .exclusive pid, .release ⟨1⟩ ⟨.number 1, 1⟩, .releaseAll ⟨2⟩,
      .acquire ⟨1⟩ .exclusive pid].foldl apply {}
    q.table.holders pid = [⟨⟨1⟩, .exclusive⟩] ∧ pid ∈ q.table.pagesOf ⟨1⟩
      ∧ q.table.Consistent := by
  intro pid q
  have hq : Reached (fun _ op => op.AtOnce) q :=
    ((((((Reached.new).op (.acquire ⟨1⟩ .shared pid) trivial).op
      (.acquire ⟨2⟩ .shared pid) trivial).op (.request ⟨1⟩ .exclusive pid) trivial).op
      (.release ⟨1⟩ ⟨.number 1, 1⟩) trivial).op (.releaseAll ⟨2⟩) trivial).op
      (.acquire ⟨1⟩ .exclusive pid) trivial
  have hholders : q.table.holders pid = [⟨⟨1⟩, .exclusive⟩] := by decide +kernel
  have h := (maps_agree hq).1
  exact ⟨hholders, (h.inverse ⟨1⟩ pid).mpr (by rw [hholders]; exact List.mem_cons_self), h⟩

end LockQueue

end RowStore
