import RowStore.Lock.Table

/-!
# What each operation does to the lock table

Two views say all there is to say about a lock table: the holders of a page (`holders`) and the
pages of a transaction (`pagesOf`).  Every lemma here gives one view after one operation in terms
of the views before it.
-/

namespace RowStore.LockTable

/-! ## 1. Views -/

theorem holders_of_entry {t : LockTable} {pid : PageId} {entry : PageLocks}
    (h : t.pages[pid]? = some entry) : t.holders pid = entry.holders := by
  rw [holders, h]

theorem holders_of_no_entry {t : LockTable} {pid : PageId} (h : t.pages[pid]? = none) :
    t.holders pid = [] := by
  rw [holders, h]

theorem holders_congr {t u : LockTable} (h : t.pages = u.pages) (pid : PageId) :
    t.holders pid = u.holders pid := by
  rw [holders, holders, h]

theorem pagesOf_congr {t u : LockTable} (h : t.held = u.held) (tx : Tx) :
    t.pagesOf tx = u.pagesOf tx := by
  rw [pagesOf, pagesOf, h]

theorem holders_insert (t : LockTable) (pid other : PageId) (entry : PageLocks) :
    holders { t with pages := t.pages.insert pid entry } other
      = if other = pid then entry.holders else t.holders other := by
  unfold holders
  simp only [Std.TreeMap.getElem?_insert, Std.compare_eq_iff_eq]
  by_cases h : other = pid
  · rw [if_pos h, if_pos h.symm]
  · rw [if_neg h, if_neg (Ne.symm h)]

theorem holders_erase (t : LockTable) (pid other : PageId) :
    holders { t with pages := t.pages.erase pid } other
      = if other = pid then [] else t.holders other := by
  unfold holders
  simp only [Std.TreeMap.getElem?_erase, Std.compare_eq_iff_eq]
  by_cases h : other = pid
  · rw [if_pos h, if_pos h.symm]
  · rw [if_neg h, if_neg (Ne.symm h)]

theorem pagesOf_set (t : LockTable) (tx other : Tx) (pages : PageSet) :
    pagesOf { t with held := Assoc.set tx pages t.held } other
      = if other = tx then pages else t.pagesOf other := by
  unfold pagesOf
  split
  · rename_i h
    subst h
    simp
  · rename_i h
    simp only [Assoc.find?_set_of_ne pages h]

theorem pagesOf_erase (t : LockTable) (tx other : Tx) :
    pagesOf { t with held := Assoc.erase tx t.held } other
      = if other = tx then ∅ else t.pagesOf other := by
  unfold pagesOf
  split
  · rename_i h
    subst h
    simp
  · rename_i h
    simp only [Assoc.find?_erase_of_ne h]

/-! ## 2. Attempts -/

theorem entryFor_snd_holders (t : LockTable) (pid : PageId) :
    (t.entryFor pid).2.holders = t.holders pid := by
  unfold entryFor holders
  split <;> rfl

theorem entryFor_fst_pages (t : LockTable) (pid : PageId) : (t.entryFor pid).1.pages = t.pages := by
  unfold entryFor
  split <;> rfl

theorem entryFor_fst_held (t : LockTable) (pid : PageId) : (t.entryFor pid).1.held = t.held := by
  unfold entryFor
  split <;> rfl

theorem noteHeld_pages (t : LockTable) (tx : Tx) (pid : PageId) :
    (t.noteHeld tx pid).pages = t.pages := rfl

/-- The page joins the transaction's pages. -/
theorem mem_pagesOf_noteHeld {t : LockTable} {tx other : Tx} {pid p : PageId} :
    p ∈ (t.noteHeld tx pid).pagesOf other ↔ other = tx ∧ p = pid ∨ p ∈ t.pagesOf other := by
  unfold noteHeld
  rw [pagesOf_set]
  by_cases h : other = tx
  · subst h
    rw [if_pos rfl, Std.TreeSet.mem_insert, Std.compare_eq_iff_eq, eq_comm]
    simp
  · simp [h]

/-- **A denied attempt changes nothing.** -/
theorem acquire_of_denied {t : LockTable} {tx : Tx} {mode : LockMode} {pid : PageId}
    (h : (t.acquire tx mode pid).2 = false) : (t.acquire tx mode pid).1 = t := by
  unfold acquire at h ⊢
  split at h
  · rfl
  · cases h

/-- An attempt is granted exactly if the grant rule says so. -/
theorem acquire_snd (t : LockTable) (tx : Tx) (mode : LockMode) (pid : PageId) :
    (t.acquire tx mode pid).2 = (Holder.grant (t.holders pid) tx mode).isSome := by
  unfold acquire
  split <;> rename_i h <;> simp [h]

/-- **The holders after a grant** are those of the grant rule, and those of other pages stay. -/
theorem holders_acquire {t : LockTable} {tx : Tx} {mode : LockMode} {pid : PageId}
    {hs : List Holder} (h : Holder.grant (t.holders pid) tx mode = some hs) (other : PageId) :
    (t.acquire tx mode pid).1.holders other = if other = pid then hs else t.holders other := by
  unfold acquire
  rw [h]
  simp only
  rw [holders_congr (noteHeld_pages _ tx pid), holders_insert,
    holders_congr (entryFor_fst_pages t pid)]

/-- **The pages after a grant**: the page is among the transaction's, and those of other
transactions stay. -/
theorem mem_pagesOf_acquire {t : LockTable} {tx other : Tx} {mode : LockMode} {pid p : PageId}
    {hs : List Holder} (h : Holder.grant (t.holders pid) tx mode = some hs) :
    p ∈ (t.acquire tx mode pid).1.pagesOf other
      ↔ other = tx ∧ p = pid ∨ p ∈ t.pagesOf other := by
  unfold acquire
  rw [h]
  simp only
  rw [mem_pagesOf_noteHeld]
  simp only [pagesOf, entryFor_fst_held]

/-! ## 3. Releases -/

theorem holders_keep (t : LockTable) (pid other : PageId) (entry : PageLocks) :
    (t.keep pid entry).holders other = if other = pid then entry.holders else t.holders other := by
  unfold keep
  by_cases hi : entry.idle = true
  · rw [if_pos hi, holders_erase]
    have he : entry.holders = [] := by
      simp only [PageLocks.idle, Bool.and_eq_true, List.isEmpty_iff] at hi
      exact hi.1
    rw [he]
  · rw [if_neg hi, holders_insert]

/-- **The transaction is taken out of the page's holders**, and other pages stay. -/
theorem holders_dropHolder (t : LockTable) (tx : Tx) (pid other : PageId) :
    (t.dropHolder tx pid).holders other
      = if other = pid then (t.holders pid).filter (fun h => h.tx ≠ tx) else t.holders other := by
  unfold dropHolder
  split
  · rename_i hn
    split
    · rename_i h
      subst h
      simp [holders_of_no_entry hn]
    · rfl
  · rename_i entry he
    rw [holders_keep, holders_of_entry he]

theorem dropHolder_held (t : LockTable) (tx : Tx) (pid : PageId) :
    (t.dropHolder tx pid).held = t.held := by
  unfold dropHolder
  split
  · rfl
  · unfold keep
    rfl

theorem dropHeld_pages (t : LockTable) (tx : Tx) (pid : PageId) :
    (t.dropHeld tx pid).pages = t.pages := by
  unfold dropHeld
  split <;> rfl

/-- **The page is taken out of the transaction's pages**, and other transactions' pages stay. -/
theorem mem_pagesOf_dropHeld {t : LockTable} {tx other : Tx} {pid p : PageId} :
    p ∈ (t.dropHeld tx pid).pagesOf other
      ↔ ¬(other = tx ∧ p = pid) ∧ p ∈ t.pagesOf other := by
  unfold dropHeld
  split
  · rename_i hn
    constructor
    · intro hp
      refine ⟨fun hc => ?_, hp⟩
      rw [hc.1, pagesOf, hn] at hp
      exact Std.TreeSet.not_mem_emptyc hp
    · exact fun hp => hp.2
  · rename_i pages hp
    have hpages : t.pagesOf tx = pages := by rw [pagesOf, hp, Option.getD_some]
    by_cases ho : other = tx
    · have he : p ∈ pages.erase pid ↔ ¬(other = tx ∧ p = pid) ∧ p ∈ t.pagesOf other := by
        rw [Std.TreeSet.mem_erase, ho, hpages, ne_eq, Std.compare_eq_iff_eq, eq_comm]
        simp
      by_cases hr : (pages.erase pid).isEmpty = true
      · simp only [if_pos hr]
        rw [pagesOf_erase, if_pos ho, ← he]
        constructor
        · intro hm
          exact absurd hm Std.TreeSet.not_mem_emptyc
        · intro hm
          exact absurd hm (Std.TreeSet.not_mem_of_isEmpty hr)
      · simp only [if_neg hr]
        rw [pagesOf_set, if_pos ho, he]
    · by_cases hr : (pages.erase pid).isEmpty = true
      · simp only [if_pos hr]
        rw [pagesOf_erase, if_neg ho]
        simp [ho]
      · simp only [if_neg hr]
        rw [pagesOf_set, if_neg ho]
        simp [ho]

/-- The holders after a release. -/
theorem holders_release (t : LockTable) (tx : Tx) (pid other : PageId) :
    (t.release tx pid).holders other
      = if other = pid then (t.holders pid).filter (fun h => h.tx ≠ tx) else t.holders other := by
  rw [release, holders_congr (dropHeld_pages _ tx pid), holders_dropHolder]

/-- The pages after a release. -/
theorem mem_pagesOf_release {t : LockTable} {tx other : Tx} {pid p : PageId} :
    p ∈ (t.release tx pid).pagesOf other ↔ ¬(other = tx ∧ p = pid) ∧ p ∈ t.pagesOf other := by
  rw [release, mem_pagesOf_dropHeld, pagesOf_congr (dropHolder_held t tx pid)]

theorem holders_foldl_dropHolder (tx : Tx) (other : PageId) :
    ∀ (pages : List PageId) (t : LockTable),
      (pages.foldl (fun t pid => t.dropHolder tx pid) t).holders other
        = if other ∈ pages then (t.holders other).filter (fun h => h.tx ≠ tx)
          else t.holders other
  | [], t => by simp
  | pid :: pages, t => by
    rw [List.foldl_cons, holders_foldl_dropHolder tx other pages, holders_dropHolder]
    by_cases hp : other = pid
    · subst hp
      simp
    · simp [hp]

theorem foldl_dropHolder_held (tx : Tx) : ∀ (pages : List PageId) (t : LockTable),
    (pages.foldl (fun t pid => t.dropHolder tx pid) t).held = t.held
  | [], _ => rfl
  | pid :: pages, t => by
    rw [List.foldl_cons, foldl_dropHolder_held tx pages, dropHolder_held]

/-- **The holders after a transaction's release of everything**: it is taken out wherever the map
of its pages says it is. -/
theorem holders_releaseAll (t : LockTable) (tx : Tx) (other : PageId) :
    (t.releaseAll tx).holders other
      = if other ∈ t.pagesOf tx then (t.holders other).filter (fun h => h.tx ≠ tx)
        else t.holders other := by
  unfold releaseAll
  split
  · rename_i hn
    have hp : t.pagesOf tx = ∅ := by rw [pagesOf, hn, Option.getD_none]
    rw [hp, if_neg Std.TreeSet.not_mem_emptyc]
  · rename_i pages hp
    have hpages : t.pagesOf tx = pages := by rw [pagesOf, hp, Option.getD_some]
    rw [holders_foldl_dropHolder, hpages]
    simp only [Std.TreeSet.mem_toList]
    rfl

/-- The pages after a transaction's release of everything. -/
theorem pagesOf_releaseAll (t : LockTable) (tx other : Tx) :
    (t.releaseAll tx).pagesOf other = if other = tx then ∅ else t.pagesOf other := by
  unfold releaseAll
  split
  · rename_i hn
    split
    · rename_i h
      subst h
      simp [pagesOf, hn]
    · rfl
  · rw [pagesOf_congr (foldl_dropHolder_held tx _ _), pagesOf_erase]

/-- A transaction that has released everything has no entry. -/
theorem find?_held_releaseAll (t : LockTable) (tx : Tx) :
    Assoc.find? tx (t.releaseAll tx).held = none := by
  unfold releaseAll
  split
  · assumption
  · rw [foldl_dropHolder_held]
    exact Assoc.find?_erase_self tx t.held

/-- A transaction without an entry has nothing to release. -/
theorem releaseAll_of_no_entry {t : LockTable} {tx : Tx} (h : Assoc.find? tx t.held = none) :
    t.releaseAll tx = t := by
  unfold releaseAll
  rw [h]

end RowStore.LockTable
