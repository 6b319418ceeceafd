import RowStore.Engine.Change
import RowStore.Proofs.Engine.Fetching

/-!
# What an insert and a delete can do

An insert looks for room and then changes one page; a delete changes one page.  All that either
does before the change are requests for pages, and for an insert at most one empty page written
behind the last one (`Room`, `Explored`).  The change is one step: once a row is on its page,
marking the page cannot fail any more (`adopt_changed`), so an engine either shows the whole change
or none of it (`insert_cases`, `delete_cases`).
-/

namespace RowStore

theorem Cache.insert_update {c : Cache} {pid : PageId} {old : Frame} (page : Page) (frame : Frame)
    (h : c.find? pid = some old) : (c.update pid page).insert pid frame = c.insert pid frame := by
  have hput : ((c.insert pid { old with page := page }).find? pid).isSome := by
    simp [Cache.find?_insert]
  have hcached : (c.find? pid).isSome := by rw [h]; rfl
  have hupdate : c.update pid page = c.insert pid { old with page := page } := by
    simp only [Cache.update, h]
  rw [hupdate]
  simp only [Cache.insert, if_pos hcached] at hput ⊢
  simp only [if_pos hput, Assoc.set_set]

namespace Engine

variable {e e' : Engine} {tx : Tx} {pid : PageId} {row stored : Row}

/-! ## 1. The change -/

/-- The engine with a new content for a page, marked as changed by a transaction. -/
def changePage (e : Engine) (tx : Tx) (pid : PageId) (frame : Frame) (page : Page) : Engine :=
  { e with cache := e.cache.insert pid { frame with page := page.markDirty tx } }

theorem find?_changePage (e : Engine) (tx : Tx) (pid other : PageId) (frame : Frame) (page : Page) :
    (e.changePage tx pid frame page).cache.find? other
      = if other = pid then some { frame with page := page.markDirty tx }
        else e.cache.find? other :=
  e.cache.find?_insert pid other _

/-- **Marking a page that was handed out and changed cannot fail.** -/
theorem adopt_changed {frame : Frame} {page : Page} (hh : Handed e tx .write pid frame)
    (hp : page.pid = pid) :
    adopt tx [{ frame with page := page }] (e.updatePage pid page)
      = (e.changePage tx pid frame page, .ok [pid]) := by
  have hmode : (e.updatePage pid page).locks.modeOf? tx pid = some .exclusive :=
    (hh.owns rfl).modeOf?
  have hcached : ((e.updatePage pid page).cache.find? pid).isSome = true := by
    simp [updatePage, Cache.find?_update, hh.cached]
  have husable : (e.updatePage pid page).cache.spoiled = false := by
    have hc := hh.cached
    simp only [updatePage, Cache.update, hc]
    exact hh.usable
  have hinsert := Cache.insert_update page { frame with page := page.markDirty tx } hh.cached
  simp only [adopt, adoptFrame, hp, ensureExclusive, hmode, if_true, inCache, husable,
    Bool.false_eq_true, if_false, hcached]
  simp only [changePage, ← hinsert]
  rfl

/-! ## 2. Looking for room -/

/-- A page stood in the cache with no free slot at some moment between two states. -/
def SeenFull (tx : Tx) (e e' : Engine) (pid : PageId) : Prop :=
  ∃ page, Visited tx e e' pid page ∧ page.freeCount = 0

theorem SeenFull.after {e₁ e₂ : Engine} (h : SeenFull tx e e₁ pid) (h' : Fetches tx e₁ e₂) :
    SeenFull tx e e₂ pid := by
  obtain ⟨page, hv, hf⟩ := h
  exact ⟨page, hv.after h', hf⟩

theorem SeenFull.before {e₁ e₂ : Engine} (h : Fetches tx e e₁) (h' : SeenFull tx e₁ e₂ pid) :
    SeenFull tx e e₂ pid := by
  obtain ⟨page, hv, hf⟩ := h'
  exact ⟨page, .before h hv, hf⟩

/-- How putting a row on a page goes. -/
theorem placeOn_cases {frame : Frame} {r : Except Failure (Option (Row × Frame))}
    (h : e.placeOn pid frame row = (e', r)) :
    (e' = e ∧ ∃ f, r = .error f)
      ∨ (e' = e ∧ r = .ok none ∧ frame.page.freeCount = 0)
      ∨ ∃ page rid, frame.page.insert row = .ok (page, rid) ∧ e' = e.updatePage pid page
        ∧ r = .ok (some ({ row with rid := some rid }, { frame with page := page })) := by
  unfold placeOn at h
  split at h
  · rename_i f _
    cases h
    exact Or.inl ⟨rfl, f, rfl⟩
  · rename_i page hu
    obtain rfl := Frame.page_of_use hu
    split at h
    · rename_i hfull
      cases h
      exact Or.inr (Or.inl ⟨rfl, rfl, hfull⟩)
    · split at h
      · rename_i f _
        cases h
        exact Or.inl ⟨rfl, f, rfl⟩
      · rename_i page rid hi
        cases h
        exact Or.inr (Or.inr ⟨page, rid, hi, rfl, rfl⟩)

/-- A row was put on a page that had been handed out for writing; the page is not marked yet. -/
def Placed (e : Engine) (tx : Tx) (pid : PageId) (row : Row) (e' : Engine) (stored : Row)
    (changed : Frame) : Prop :=
  ∃ frame page rid, Handed e tx .write pid frame ∧ frame.page.insert row = .ok (page, rid)
    ∧ e' = e.updatePage pid page ∧ stored = { row with rid := some rid }
    ∧ changed = { frame with page := page }

/-- **Looking for room on some pages**: it fails, or all of them were seen full, or the row is on
one of them and those before it were seen full. -/
theorem placeFrom_cases {table : TableFile} :
    ∀ {n i : Nat} {e e' : Engine} {r : Except Failure (Option (Row × Frame))},
      placeFrom tx table row n i e = (e', r) →
      (Fetches tx e e' ∧ ∃ f, r = .error f)
      ∨ (Fetches tx e e' ∧ r = .ok none
        ∧ ∀ j, i ≤ j → j < i + n → SeenFull tx e e' (table.pageId j))
      ∨ ∃ k e₁ stored changed, k < n ∧ Fetches tx e e₁
        ∧ (∀ j, i ≤ j → j < i + k → SeenFull tx e e₁ (table.pageId j))
        ∧ Placed e₁ tx (table.pageId (i + k)) row e' stored changed
        ∧ r = .ok (some (stored, changed))
  | 0, i, e, e', r, h => by
    cases h
    exact Or.inr (Or.inl ⟨.refl, rfl, fun j h1 h2 => by omega⟩)
  | n + 1, i, e, e', r, h => by
    unfold placeFrom at h
    split at h
    · rename_i e₁ f hf
      cases h
      exact Or.inl ⟨fetch_fetches hf, f, rfl⟩
    · rename_i e₁ frame hf
      have hfe := fetch_fetches hf
      split at h
      · rename_i e₂ f hp
        cases h
        rcases placeOn_cases hp with ⟨rfl, -⟩ | ⟨-, hr, -⟩ | ⟨_, _, -, -, hr⟩
        · exact Or.inl ⟨hfe, f, rfl⟩
        · cases hr
        · cases hr
      · rename_i e₂ placed hp
        cases h
        rcases placeOn_cases hp with ⟨-, f, hr⟩ | ⟨-, hr, -⟩ | ⟨page, rid, hi, rfl, hr⟩
        · cases hr
        · cases hr
        · cases hr
          exact Or.inr (Or.inr ⟨0, e₁, _, _, by omega, hfe, fun j h1 h2 => by omega,
            ⟨frame, page, rid, fetch_ok hf, hi, rfl, rfl, rfl⟩, rfl⟩)
      · rename_i e₂ hp
        rcases placeOn_cases hp with ⟨-, f, hr⟩ | ⟨rfl, -, hfull⟩ | ⟨_, _, -, -, hr⟩
        · cases hr
        · -- this page is full; what is found behind it is found by the recursion
          have hseen : SeenFull tx e e₂ (table.pageId i) :=
            ⟨frame.page, ⟨e₂, frame, hfe, .refl, (fetch_ok hf).cached, rfl⟩, hfull⟩
          rcases placeFrom_cases h with ⟨hr, hfail⟩ | ⟨hr, hnone, hall⟩
            | ⟨k, e₃, stored, changed, hk, hr, hall, hplaced, hok⟩
          · exact Or.inl ⟨hfe.trans hr, hfail⟩
          · refine Or.inr (Or.inl ⟨hfe.trans hr, hnone, fun j h1 h2 => ?_⟩)
            rcases Nat.eq_or_lt_of_le h1 with rfl | h1
            · exact hseen.after hr
            · exact .before hfe (hall j h1 (by omega))
          · refine Or.inr (Or.inr ⟨k + 1, e₃, stored, changed, by omega, hfe.trans hr,
              fun j h1 h2 => ?_, ?_, hok⟩)
            · rcases Nat.eq_or_lt_of_le h1 with rfl | h1
              · exact hseen.after hr
              · exact .before hfe (hall j h1 (by omega))
            · rwa [Nat.add_assoc, Nat.add_comm 1 k] at hplaced
        · cases hr

/-- How putting a row on a new page goes. -/
theorem placeBehind_cases {table : TableFile} {r : Except Failure (Row × Frame)}
    (h : e.placeBehind tx table row = (e', r)) :
    (∃ disk result, table.appendPage e.disk = (disk, result)
        ∧ Fetches tx { e with disk := disk } e' ∧ ∃ f, r = .error f)
      ∨ ∃ disk pid e₁ stored changed, table.appendPage e.disk = (disk, .ok pid)
        ∧ Fetches tx { e with disk := disk } e₁ ∧ Placed e₁ tx pid row e' stored changed
        ∧ r = .ok (stored, changed) := by
  unfold placeBehind at h
  split at h
  · rename_i disk f ha
    cases h
    exact Or.inl ⟨disk, _, ha, .refl, f, rfl⟩
  · rename_i disk pid ha
    split at h
    · rename_i e₁ f hf
      cases h
      exact Or.inl ⟨disk, _, ha, fetch_fetches hf, f, rfl⟩
    · rename_i e₁ frame hf
      have hfe := fetch_fetches hf
      split at h
      · rename_i e₂ f hp
        cases h
        rcases placeOn_cases hp with ⟨rfl, -⟩ | ⟨-, hr, -⟩ | ⟨_, _, -, -, hr⟩
        · exact Or.inl ⟨disk, _, ha, hfe, f, rfl⟩
        · cases hr
        · cases hr
      · rename_i e₂ placed hp
        cases h
        rcases placeOn_cases hp with ⟨-, f, hr⟩ | ⟨-, hr, -⟩ | ⟨page, rid, hi, rfl, hr⟩
        · cases hr
        · cases hr
        · cases hr
          exact Or.inr ⟨disk, pid, e₁, _, _, ha, hfe,
            ⟨frame, page, rid, fetch_ok hf, hi, rfl, rfl, rfl⟩, rfl⟩
      · rename_i e₂ hp
        cases h
        rcases placeOn_cases hp with ⟨-, f, hr⟩ | ⟨rfl, -⟩ | ⟨_, _, -, -, hr⟩
        · cases hr
        · exact Or.inl ⟨disk, _, ha, hfe, _, rfl⟩
        · cases hr

/-! ## 3. Inserting -/

/-- **Room for a row**: the page that an insert ends up with, and the engine at that moment.  All
pages of the table before it were seen full; a new page was made only after all were. -/
inductive Room (tx : Tx) (table : TableFile) (e : Engine) : PageId → Engine → Prop
  | found {i : Nat} {e₁ : Engine} :
      i < table.pageCount e.disk → Fetches tx e e₁ →
      (∀ j, j < i → SeenFull tx e e₁ (table.pageId j)) → Room tx table e (table.pageId i) e₁
  | made {e₁ e₂ : Engine} {disk : Disk} {pid : PageId} :
      Fetches tx e e₁ →
      (∀ j, j < table.pageCount e.disk → SeenFull tx e e₁ (table.pageId j)) →
      table.appendPage e₁.disk = (disk, .ok pid) → Fetches tx { e₁ with disk := disk } e₂ →
      Room tx table e pid e₂

/-- **What a failing insert leaves behind**: requests, and a new page at most, which was made only
after all pages of the table were seen full. -/
inductive Explored (tx : Tx) (id : TableId) (e : Engine) : Engine → Prop
  | within {e₁ : Engine} : Fetches tx e e₁ → Explored tx id e e₁
  | beyond {table : TableFile} {e₁ e₂ : Engine} {disk : Disk} {r : Except Failure PageId} :
      e.catalog.table? id = some table → Fetches tx e e₁ →
      (∀ j, j < table.pageCount e.disk → SeenFull tx e e₁ (table.pageId j)) →
      table.appendPage e₁.disk = (disk, r) → Fetches tx { e₁ with disk := disk } e₂ →
      Explored tx id e e₂

theorem Room.proper {table : TableFile} {e₁ : Engine} (h : Room tx table e pid e₁)
    (hp : e.cache.Proper) : e₁.cache.Proper := by
  cases h with
  | found _ hf _ => exact hf.proper hp
  | made hf _ _ hf' => exact hf'.proper (hf.proper hp)

/-- How inserting into one table goes. -/
theorem insertInto_cases {id : TableId} {table : TableFile}
    {r : Except Failure (Row × List Frame)} (ht : e.catalog.table? id = some table)
    (h : e.insertInto tx table row = (e', r)) :
    (Explored tx id e e' ∧ ∃ f, r = .error f)
      ∨ ∃ pid e₁ stored changed, row.fits table.schema ∧ Room tx table e pid e₁
        ∧ Placed e₁ tx pid row e' stored changed ∧ r = .ok (stored, [changed]) := by
  unfold insertInto at h
  split at h
  · rename_i hfit
    split at h
    · rename_i f _
      cases h
      exact Or.inl ⟨.within .refl, f, rfl⟩
    · rename_i count hcount
      obtain rfl := TableFile.eq_of_countPages hcount
      split at h
      · rename_i e₁ f hp
        cases h
        rcases placeFrom_cases hp with ⟨hfe, -⟩ | ⟨-, hr, -⟩ | ⟨_, _, _, _, -, -, -, -, hr⟩
        · exact Or.inl ⟨.within hfe, f, rfl⟩
        · cases hr
        · cases hr
      · rename_i e₁ stored changed hp
        cases h
        rcases placeFrom_cases hp with ⟨-, f, hr⟩ | ⟨-, hr, -⟩
          | ⟨k, e₁, stored, changed, hk, hfe, hfull, hplaced, hr⟩
        · cases hr
        · cases hr
        · cases hr
          rw [Nat.zero_add] at hplaced
          exact Or.inr ⟨_, e₁, stored, changed, hfit,
            .found hk hfe fun j hj => hfull j (Nat.zero_le j) (by omega), hplaced, rfl⟩
      · rename_i e₁ hp
        rcases placeFrom_cases hp with ⟨-, f, hr⟩ | ⟨hfe, -, hfull⟩ | ⟨_, _, _, _, -, -, -, -, hr⟩
        · cases hr
        · have hfull : ∀ j, j < table.pageCount e.disk → SeenFull tx e e₁ (table.pageId j) :=
            fun j hj => hfull j (Nat.zero_le j) (by omega)
          split at h
          · rename_i e₂ f hb
            cases h
            rcases placeBehind_cases hb with ⟨disk, result, ha, hfe', -⟩ | ⟨_, _, _, _, _, -, -, -, hr⟩
            · exact Or.inl ⟨.beyond ht hfe hfull ha hfe', f, rfl⟩
            · cases hr
          · rename_i e₂ stored changed hb
            cases h
            rcases placeBehind_cases hb with ⟨_, _, -, -, f, hr⟩
              | ⟨disk, pid, e₃, stored, changed, ha, hfe', hplaced, hr⟩
            · cases hr
            · cases hr
              exact Or.inr ⟨pid, e₃, stored, changed, hfit, .made hfe hfull ha hfe', hplaced, rfl⟩
        · cases hr
  · cases h
    exact Or.inl ⟨.within .refl, _, rfl⟩

/-- **How an insert goes.**  It fails, and then has changed no page and left the caller's row alone;
or the first page with room has the row, is marked, and is the answer. -/
theorem insert_cases {id : TableId} {r : Except Failure (List PageId)} (hp : e.cache.Proper)
    (h : e.insert tx id row = (e', stored, r)) :
    (Explored tx id e e' ∧ stored = row ∧ ∃ f, r = .error f)
      ∨ ∃ table pid e₁ frame page rid, e.catalog.table? id = some table ∧ row.fits table.schema
        ∧ Room tx table e pid e₁ ∧ Handed e₁ tx .write pid frame
        ∧ frame.page.insert row = .ok (page, rid) ∧ e' = e₁.changePage tx pid frame page
        ∧ stored = { row with rid := some rid } ∧ r = .ok [pid] := by
  unfold insert at h
  split at h
  · rename_i f _
    cases h
    exact Or.inl ⟨.within .refl, rfl, f, rfl⟩
  · rename_i table hl
    have ht := table?_of_lookup hl
    split at h
    · rename_i e₁ f hi
      cases h
      rcases insertInto_cases ht hi with ⟨hx, -⟩ | ⟨_, _, _, _, -, -, -, hr⟩
      · exact Or.inl ⟨hx, rfl, f, rfl⟩
      · cases hr
    · rename_i e₁ placed frames hi
      rcases insertInto_cases ht hi with ⟨-, f, hr⟩
        | ⟨pid, e₂, stored, changed, hfit, hroom, ⟨frame, page, rid, hh, hins, rfl, rfl, rfl⟩, hr⟩
      · cases hr
      · cases hr
        have hpid : page.pid = pid := by
          obtain ⟨_, _, _, _, hq⟩ := Page.insert_eq_ok_iff.mp hins
          rw [hq]
          exact (hroom.proper hp).keyed hh.cached
        simp only [adopt_changed hh hpid] at h
        cases h
        exact Or.inr ⟨table, pid, e₂, frame, page, rid, ht, hfit, hroom, hh, hins, rfl, rfl, rfl⟩

/-! ## 4. Deleting -/

/-- **How a delete goes.**  It fails, and then has changed no page; or the page that the record id
names has lost the row, is marked, and is the answer. -/
theorem delete_cases {r : Except Failure (List PageId)} (hp : e.cache.Proper)
    (h : e.delete tx row = (e', r)) :
    (Fetches tx e e' ∧ ∃ f, r = .error f)
      ∨ ∃ rid e₁ frame page, row.rid = some rid ∧ Fetches tx e e₁
        ∧ Handed e₁ tx .write rid.page frame ∧ frame.page.delete row = .ok page
        ∧ e' = e₁.changePage tx rid.page frame page ∧ r = .ok [rid.page] := by
  unfold delete at h
  split at h
  · cases h
    exact Or.inl ⟨.refl, _, rfl⟩
  · rename_i rid hrid
    split at h
    · cases h
      exact Or.inl ⟨.refl, _, rfl⟩
    · rename_i table _
      unfold deleteFrom at h
      simp only [hrid] at h
      cases hown : table.own rid.page with
      | error f =>
        simp only [hown] at h
        cases h
        exact Or.inl ⟨.refl, _, rfl⟩
      | ok _ =>
        simp only [hown] at h
        cases hf : e.fetch tx .write rid.page with
        | mk e₁ result =>
          have hfe := fetch_fetches hf
          cases result with
          | error f =>
            simp only [hf] at h
            cases h
            exact Or.inl ⟨hfe, _, rfl⟩
          | ok frame =>
            have hh := fetch_ok hf
            cases hd : (frame.use.bind fun page => page.delete row) with
            | error f =>
              simp only [hf, hd] at h
              cases h
              exact Or.inl ⟨hfe, _, rfl⟩
            | ok page =>
              have hdel : frame.page.delete row = .ok page := by
                unfold Frame.use at hd
                split at hd
                · cases hd
                · exact hd
              have hpid : page.pid = rid.page := by
                obtain ⟨_, _, _, _, hq⟩ := Page.delete_eq_ok_iff.mp hdel
                rw [hq]
                exact (hfe.proper hp).keyed hh.cached
              simp only [hf, hd, adopt_changed hh hpid] at h
              cases h
              exact Or.inr ⟨rid, e₁, frame, page, hrid, hfe, hh, hdel, rfl, rfl⟩

end Engine

end RowStore
