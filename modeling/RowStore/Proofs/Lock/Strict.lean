import RowStore.Lock.Lemmas

/-!
# What a lock is worth

Three facts about single operations on the lock table, from which isolation follows.

* **A lock is kept** (`LockTable.Keeps`): no attempt of anybody, granted or denied, and no release
  of everything by another transaction drops or weakens it.
* **A grant makes a holder** (`LockTable.Holds`), whatever was asked for.
* **An exclusive lock keeps everybody else out** (`LockTable.Owns`): once a transaction is the sole
  holder it stays so, and any attempt of another transaction on the page is denied.

None of them needs an invariant of the table: an exclusive grant leaves its transaction as the sole
holder, whatever was there before (`Holder.grant_exclusive`).
-/

namespace RowStore

/-! ## 1. The grant rule -/

namespace Holder

/-- **An exclusive grant leaves one holder.** -/
theorem grant_exclusive {hs hs' : List Holder} {tx : Tx}
    (h : grant hs tx .exclusive = some hs') : hs' = [⟨tx, .exclusive⟩] := by
  unfold grant at h
  split at h
  · simpa using h.symm
  · rename_i holder
    split at h
    · rename_i htx
      cases hm : holder.mode with
      | shared => simpa [hm, htx] using h.symm
      | exclusive =>
        obtain rfl : [holder] = hs' := by simpa [hm] using h
        cases holder
        simp_all
    · simp at h
  · simp at h

/-- **A sole writer keeps others out**, and gets whatever it asks for without a change. -/
theorem grant_of_sole {hs : List Holder} {owner tx : Tx} {mode : LockMode}
    (h : grant [⟨owner, .exclusive⟩] tx mode = some hs) :
    tx = owner ∧ hs = [⟨owner, .exclusive⟩] := by
  simp only [grant] at h
  split at h
  · rename_i ho
    simp only [reduceCtorEq, false_and, if_false, Option.some.injEq] at h
    exact ⟨ho.symm, h.symm⟩
  · simp at h

/-- The lock that a transaction has among some holders. -/
def modeIn (hs : List Holder) (tx : Tx) : Option LockMode :=
  (hs.find? fun h => h.tx = tx).map Holder.mode

theorem modeIn_append_of_some {hs more : List Holder} {tx : Tx} {mode : LockMode}
    (h : modeIn hs tx = some mode) : modeIn (hs ++ more) tx = some mode := by
  unfold modeIn at h ⊢
  rw [List.find?_append]
  cases hf : hs.find? fun h => h.tx = tx with
  | none => simp [hf] at h
  | some holder => simpa [hf] using h

/-- Taking others out of the holders does not touch a transaction's lock. -/
theorem modeIn_filter_of_ne {tx other : Tx} (hne : tx ≠ other) : ∀ hs : List Holder,
    modeIn (hs.filter fun h => h.tx ≠ other) tx = modeIn hs tx
  | [] => rfl
  | h :: hs => by
    have ih := modeIn_filter_of_ne hne hs
    unfold modeIn at ih ⊢
    by_cases ho : h.tx = other
    · have ht : h.tx ≠ tx := fun ht => hne (ht.symm.trans ho)
      simp only [ho, ne_eq, not_true_eq_false, decide_false, Bool.false_eq_true,
        not_false_eq_true, List.filter_cons_of_neg]
      rw [List.find?_cons_of_neg (by simpa using ht)]
      exact ih
    · rw [List.filter_cons_of_pos (by simpa using ho)]
      by_cases ht : h.tx = tx
      · rw [List.find?_cons_of_pos (by simpa using ht),
          List.find?_cons_of_pos (by simpa using ht)]
      · rw [List.find?_cons_of_neg (by simpa using ht),
          List.find?_cons_of_neg (by simpa using ht)]
        exact ih

end Holder

/-- A mode is at most as strong as another: an exclusive lock is only below itself. -/
def LockMode.AtMost (weak strong : LockMode) : Prop := weak = .exclusive → strong = .exclusive

theorem LockMode.atMost_refl (mode : LockMode) : mode.AtMost mode := id

namespace Holder

/-- **A grant weakens no lock**, whoever asks for whatever. -/
theorem modeIn_grant {hs hs' : List Holder} {tx other : Tx} {mode wanted : LockMode}
    (h : modeIn hs tx = some mode) (hg : grant hs other wanted = some hs') :
    ∃ mode', modeIn hs' tx = some mode' ∧ mode.AtMost mode' := by
  unfold grant at hg
  split at hg
  · simp [modeIn] at h
  · rename_i holder
    split at hg
    · split at hg
      · -- the upgrade: the holder's own lock becomes exclusive
        cases hg
        by_cases ht : holder.tx = tx
        · exact ⟨.exclusive, by simp [modeIn, ht], fun _ => rfl⟩
        · simp [modeIn, ht] at h
      · cases hg
        exact ⟨mode, h, mode.atMost_refl⟩
    · split at hg
      · cases hg
        exact ⟨mode, @modeIn_append_of_some [holder] _ _ _ h, mode.atMost_refl⟩
      · cases hg
  · split at hg
    · cases hg
    · split at hg
      · cases hg
        exact ⟨mode, h, mode.atMost_refl⟩
      · cases hg
        exact ⟨mode, modeIn_append_of_some h, mode.atMost_refl⟩

/-- **Whoever is granted a lock is among the holders.** -/
theorem modeIn_of_grant {hs hs' : List Holder} {tx : Tx} {mode : LockMode}
    (hg : grant hs tx mode = some hs') : ∃ held, modeIn hs' tx = some held := by
  unfold grant at hg
  split at hg
  · cases hg
    exact ⟨mode, by simp [modeIn]⟩
  · rename_i holder
    split at hg
    · rename_i htx
      split at hg <;> cases hg
      · exact ⟨.exclusive, by simp [modeIn, htx]⟩
      · exact ⟨holder.mode, by simp [modeIn, htx]⟩
    · rename_i htx
      split at hg <;> cases hg
      exact ⟨mode, by simp [modeIn, htx]⟩
  · split at hg
    · cases hg
    · split at hg <;> rename_i hany <;> cases hg
      · obtain ⟨holder, hf⟩ := Option.isSome_iff_exists.mp
          (List.find?_isSome.mpr (List.any_eq_true.mp hany))
        exact ⟨holder.mode, by simp only [modeIn, hf, Option.map_some]⟩
      · have hf : hs.find? (fun h => h.tx = tx) = none := by simpa using hany
        exact ⟨mode, by simp [modeIn, hf]⟩

end Holder

namespace LockTable

variable {t u : LockTable} {tx other : Tx} {pid p : PageId} {mode wanted : LockMode}

theorem modeOf?_eq (t : LockTable) (tx : Tx) (pid : PageId) :
    t.modeOf? tx pid = Holder.modeIn (t.holders pid) tx := rfl

/-! ## 2. Locks are kept -/

/-- Every lock a transaction has in one table it has in another, as strong or stronger. -/
def Keeps (tx : Tx) (t u : LockTable) : Prop :=
  ∀ pid mode, t.modeOf? tx pid = some mode →
    ∃ mode', u.modeOf? tx pid = some mode' ∧ mode.AtMost mode'

theorem Keeps.refl (tx : Tx) (t : LockTable) : Keeps tx t t :=
  fun _ mode h => ⟨mode, h, mode.atMost_refl⟩

theorem Keeps.trans {tx : Tx} {t u v : LockTable} (h : Keeps tx t u) (h' : Keeps tx u v) :
    Keeps tx t v := by
  intro pid mode hm
  obtain ⟨mode', hm', hle⟩ := h pid mode hm
  obtain ⟨mode'', hm'', hle'⟩ := h' pid mode' hm'
  exact ⟨mode'', hm'', fun he => hle' (hle he)⟩

/-- **No attempt takes a lock away.** -/
theorem keeps_acquire (tx : Tx) (t : LockTable) (other : Tx) (wanted : LockMode) (p : PageId) :
    Keeps tx t (t.acquire other wanted p).1 := by
  intro pid mode hm
  cases hg : Holder.grant (t.holders p) other wanted with
  | none =>
    rw [acquire_of_denied (by rw [acquire_snd, hg]; rfl)]
    exact ⟨mode, hm, mode.atMost_refl⟩
  | some hs =>
    rw [modeOf?_eq] at hm
    rw [modeOf?_eq, holders_acquire hg]
    split
    · rename_i hp
      rw [hp] at hm
      exact Holder.modeIn_grant hm hg
    · exact ⟨mode, hm, mode.atMost_refl⟩

/-- **Nobody releases another transaction's locks.** -/
theorem keeps_releaseAll (t : LockTable) (hne : tx ≠ other) : Keeps tx t (t.releaseAll other) := by
  intro pid mode hm
  refine ⟨mode, ?_, mode.atMost_refl⟩
  rw [modeOf?_eq] at hm ⊢
  rw [holders_releaseAll]
  split
  · rw [Holder.modeIn_filter_of_ne hne, hm]
  · exact hm

/-! ## 3. Holders -/

/-- The transaction holds a lock on the page, for reading or for writing. -/
def Holds (t : LockTable) (tx : Tx) (pid : PageId) : Prop := ∃ mode, t.modeOf? tx pid = some mode

theorem Keeps.holds (h : Keeps tx t u) (hh : t.Holds tx pid) : u.Holds tx pid := by
  obtain ⟨mode, hm⟩ := hh
  obtain ⟨mode', hm', -⟩ := h pid mode hm
  exact ⟨mode', hm'⟩

/-- **A grant makes a holder.** -/
theorem holds_of_granted (hg : (t.acquire tx mode pid).2 = true) :
    (t.acquire tx mode pid).1.Holds tx pid := by
  rw [acquire_snd, Option.isSome_iff_exists] at hg
  obtain ⟨hs, hg⟩ := hg
  obtain ⟨held, hm⟩ := Holder.modeIn_of_grant hg
  exact ⟨held, by rw [modeOf?_eq, holders_acquire hg, if_pos rfl, hm]⟩

/-! ## 4. Sole writers -/

/-- The transaction holds the page for writing, and nobody else holds it. -/
def Owns (t : LockTable) (tx : Tx) (pid : PageId) : Prop := t.holders pid = [⟨tx, .exclusive⟩]

theorem Owns.modeOf? (h : t.Owns tx pid) : t.modeOf? tx pid = some .exclusive := by
  rw [modeOf?_eq, h]
  simp [Holder.modeIn]

theorem Owns.unique (h : t.Owns tx pid) (h' : t.Owns other pid) : tx = other := by
  have he := h.symm.trans h'
  simpa using he

/-- **A page with a sole writer is held by nobody else**, not even for reading. -/
theorem Owns.eq_of_holds (h : t.Owns tx pid) (hh : t.Holds other pid) : other = tx := by
  obtain ⟨mode, hm⟩ := hh
  rw [modeOf?_eq, h] at hm
  apply Classical.byContradiction
  intro hne
  simp [Holder.modeIn, Ne.symm hne] at hm

/-- A page with a sole writer is granted to nobody else. -/
theorem Owns.eq_of_granted (h : t.Owns tx pid)
    (hg : (t.acquire other wanted pid).2 = true) : other = tx := by
  rw [acquire_snd, h, Option.isSome_iff_exists] at hg
  obtain ⟨hs, hg⟩ := hg
  exact (Holder.grant_of_sole hg).1

/-- **A sole writer stays the sole writer** through every attempt. -/
theorem Owns.acquire (h : t.Owns tx pid) (other : Tx) (wanted : LockMode) (p : PageId) :
    (t.acquire other wanted p).1.Owns tx pid := by
  cases hg : Holder.grant (t.holders p) other wanted with
  | none => rwa [acquire_of_denied (by rw [acquire_snd, hg]; rfl)]
  | some hs =>
    rw [Owns, holders_acquire hg]
    split
    · rename_i hp
      rw [← hp, h] at hg
      exact (Holder.grant_of_sole hg).2
    · exact h

/-- **An exclusive grant makes a sole writer.** -/
theorem owns_of_granted (hg : (t.acquire tx .exclusive pid).2 = true) :
    (t.acquire tx .exclusive pid).1.Owns tx pid := by
  rw [acquire_snd, Option.isSome_iff_exists] at hg
  obtain ⟨hs, hg⟩ := hg
  rw [Owns, holders_acquire hg, if_pos rfl, Holder.grant_exclusive hg]

/-- A sole writer loses its page by no other transaction's release. -/
theorem Owns.releaseAll (h : t.Owns tx pid) (hne : tx ≠ other) :
    (t.releaseAll other).Owns tx pid := by
  rw [Owns, holders_releaseAll]
  split
  · rw [h]
    simp [hne]
  · exact h

end LockTable

end RowStore
