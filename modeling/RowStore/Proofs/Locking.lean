import RowStore.Proofs.Isolation

/-!
# What a scan and an insert have locked

Nothing locks a table.  A scan and an insert lock pages, one by one, and the two meet on the first
page of the table if it has one:

* a scan that does not fail holds every page of the table (`scan_holds`);
* an insert looks for room from the first page on, and asks for each page it looks at for writing,
  so that one that goes through is the sole holder of the first page, wherever its row went
  (`insert_owns`).

A table without pages has nothing to meet on.
-/

namespace RowStore

/-! ## 1. Scans -/

namespace Engine

variable {e e' : Engine} {tx : Tx} {access : Access} {pid : PageId} {frame : Frame}

/-- **Whoever was handed a page holds it.** -/
theorem fetch_holds (h : e.fetch tx access pid = (e', .ok frame)) : e'.locks.Holds tx pid := by
  rcases fetch_cases h with ⟨-, hr, -⟩ | ⟨locks, ha, hin⟩
  · cases hr
  · have hholds : locks.Holds tx pid := by
      have hg := LockTable.holds_of_granted (congrArg Prod.snd ha)
      rwa [ha] at hg
    rcases inCache_cases hin with ⟨-, -, hr⟩ | ⟨-, found, hb, -⟩ | ⟨-, f, e₁, -, hr, -⟩
    · cases hr
    · rcases bringIn_cases hb with ⟨rfl, -⟩ | ⟨rfl, -⟩ | ⟨-, page, cache, -, -, rfl, -⟩ <;>
        exact hholds
    · cases hr

theorem Fetches.holds {other : Tx} (h : Fetches other e e') (hh : e.locks.Holds tx pid) :
    e'.locks.Holds tx pid :=
  (h.grows.keeps tx).holds hh

end Engine

open Engine

/-- Collecting the rows of some pages to the end leaves all of them locked. -/
theorem ScanPlace.runPages_holds (tx : Tx) (table : TableFile) :
    ∀ (n : Nat) (place : ScanPlace) (e : Engine) (acc : List Row) (pass : Pass ScanPlace (List Row)),
      runPages tx table Consumer.collect n place e acc = pass → pass.verdict = .ended →
      ∀ j, j < n → pass.engine.locks.Holds tx (table.pageId (place.nextPage + j))
  | 0, _, _, _, _, _, _, j, hj => absurd hj (Nat.not_lt_zero j)
  | n + 1, place, e, acc, pass, h, hend, j, hj => by
    unfold runPages at h
    split at h
    · subst h
      cases hend
    · rename_i e₁ frame hf
      split at h
      · subst h
        cases hend
      · rw [Consumer.feed_collect] at h
        simp only at h
        cases j with
        | zero => exact (runPages_collect tx table n _ e₁ _ pass h).1.holds (fetch_holds hf)
        | succ j =>
          have hrest := runPages_holds tx table n _ e₁ _ pass h hend j (Nat.lt_of_succ_lt_succ hj)
          simp only at hrest
          rwa [Nat.add_assoc, Nat.add_comm 1 j] at hrest

namespace Engine

variable {e e' : Engine} {tx : Tx} {table : TableFile} {id : TableId} {row stored : Row}

/-- **A scan that does not fail holds every page of its table.** -/
theorem scan_holds {rows : List Row} (h : e.scan tx table = (e', rows, .ok ())) :
    ∀ j, j < table.pageCount e.disk → e'.locks.Holds tx (table.pageId j) := by
  intro j hj
  rcases scan_runs h with ⟨-, f, hr⟩ | ⟨pass, hpass, rfl, ⟨f, -, hr⟩ | ⟨hend, -, -⟩⟩
  · cases hr
  · cases hr
  · have hheld := ScanPlace.runPages_holds tx table _ _ e [] pass hpass hend j hj
    rwa [Nat.zero_add] at hheld

/-! ## 2. Inserts -/

theorem Placed.locks_eq {pid : PageId} {changed : Frame} (h : Placed e tx pid row e' stored changed) :
    e'.locks = e.locks := by
  obtain ⟨_, _, _, -, -, rfl, -⟩ := h
  rfl

/-- Looking for room drops no lock. -/
theorem placeFrom_grows {n i : Nat} {r : Except Failure (Option (Row × Frame))}
    (h : placeFrom tx table row n i e = (e', r)) : e.locks.Grows e'.locks := by
  rcases placeFrom_cases h with ⟨hf, -⟩ | ⟨hf, -⟩ | ⟨_, e₁, _, _, -, hf, -, hplaced, -⟩
  · exact hf.grows
  · exact hf.grows
  · exact hplaced.locks_eq ▸ hf.grows

theorem placeBehind_grows {r : Except Failure (Row × Frame)}
    (h : e.placeBehind tx table row = (e', r)) : e.locks.Grows e'.locks := by
  rcases placeBehind_cases h with ⟨disk, _, -, hf, -⟩ | ⟨disk, _, e₁, _, _, -, hf, hplaced, -⟩
  · exact hf.grows
  · exact hplaced.locks_eq ▸ hf.grows

/-- **Looking for room does not get past its first page** without being the sole holder. -/
theorem placeFrom_owns {n i : Nat} {placed? : Option (Row × Frame)} (hn : 0 < n)
    (h : placeFrom tx table row n i e = (e', .ok placed?)) :
    e'.locks.Owns tx (table.pageId i) := by
  obtain ⟨n, rfl⟩ := Nat.exists_eq_succ_of_ne_zero (Nat.ne_of_gt hn)
  unfold placeFrom at h
  split at h
  · cases h
  · rename_i e₁ frame hf
    have howns := (fetch_ok hf).owns rfl
    split at h
    · cases h
    · rename_i e₂ placed hp
      cases h
      rcases placeOn_cases hp with ⟨rfl, -⟩ | ⟨rfl, -⟩ | ⟨_, _, -, rfl, -⟩ <;> exact howns
    · rename_i e₂ hp
      rcases placeOn_cases hp with ⟨rfl, -⟩ | ⟨rfl, -⟩ | ⟨_, _, -, -, hr⟩
      · exact (placeFrom_grows h).owns howns
      · exact (placeFrom_grows h).owns howns
      · cases hr

/-- Whoever has put a row on a page is the sole holder of the table's first page. -/
theorem insertInto_owns {placed : Row × List Frame} (hpos : 0 < table.pageCount e.disk)
    (h : e.insertInto tx table row = (e', .ok placed)) : e'.locks.Owns tx (table.pageId 0) := by
  unfold insertInto at h
  split at h
  · split at h
    · cases h
    · rename_i count hcount
      obtain rfl := TableFile.eq_of_countPages hcount
      split at h
      · cases h
      · rename_i e₁ _ _ hp
        cases h
        exact placeFrom_owns hpos hp
      · rename_i e₁ hp
        have howns := placeFrom_owns hpos hp
        split at h
        · cases h
        · rename_i e₂ _ _ hb
          cases h
          exact (placeBehind_grows hb).owns howns
  · cases h

/-- **An insert that goes through is the sole holder of the table's first page**, if the table had
one. -/
theorem insert_owns {pids : List PageId} (hp : e.cache.Proper)
    (ht : e.catalog.table? id = some table) (hpos : 0 < table.pageCount e.disk)
    (h : e.insert tx id row = (e', stored, .ok pids)) : e'.locks.Owns tx (table.pageId 0) := by
  unfold insert at h
  split at h
  · cases h
  · rename_i table' hl
    obtain rfl : table = table' := Option.some.inj (ht.symm.trans (table?_of_lookup hl))
    split at h
    · cases h
    · rename_i e₁ placed frames hi
      have howns := insertInto_owns hpos hi
      rcases insertInto_cases ht hi with ⟨-, f, hr⟩
        | ⟨pid, e₂, _, _, -, hroom, ⟨frame, page, rid, hh, hins, rfl, -, rfl⟩, hr⟩
      · cases hr
      · cases hr
        -- marking the page, which cannot fail, takes no further lock
        have hpid : page.pid = pid := by
          obtain ⟨_, _, _, _, hq⟩ := Page.insert_eq_ok_iff.mp hins
          rw [hq]
          exact (hroom.proper hp).keyed hh.cached
        simp only [adopt_changed hh hpid] at h
        cases h
        exact howns

end Engine

end RowStore
