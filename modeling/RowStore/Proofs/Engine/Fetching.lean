import Mathlib.Logic.Relation
import RowStore.Engine.Cache.Lemmas
import RowStore.Proofs.Lock.Strict
import RowStore.Proofs.PageImage
import RowStore.Query.Leaf

/-!
# What a request for a page can do

A request for a page does at most three things to an engine: it is granted a lock, it loads a page
that was not cached, for which the oldest clean page may have to leave, and it may spoil the cache
when it stops in the middle.  These are the constructors of `FetchStep`; `Fetches` is any number of
them.  Whatever is kept by the three steps is kept by every request, and by everything that is
built of requests alone, such as a scan.

What a request hands out stands in the cache at that moment (`fetch_ok`); `Visited` says so of a
page that was looked at on the way.
-/

namespace RowStore

/-! ## 1. Proper caches -/

namespace Assoc

variable {κ α : Type} [DecidableEq κ]

theorem set_set (key : κ) (first second : α) : ∀ pairs : List (κ × α),
    set key second (set key first pairs) = set key second pairs
  | [] => by simp [set]
  | (k, v) :: rest => by
    by_cases hk : k = key
    · simp [set, hk]
    · simp [set, hk, set_set key first second rest]

end Assoc

/-- What is handed out for use is the page of the frame. -/
theorem Frame.page_of_use {frame : Frame} {page : Page} (h : frame.use = .ok page) :
    frame.page = page := by
  unfold use at h
  split at h
  · cases h
  · exact Except.ok.inj h

/-! ## 2. Reading pages from disk -/

/-- What it takes to read a page from a table's file. -/
structure TableFile.Reads (t : TableFile) (disk : Disk) (pid : PageId) (page : Page) : Prop where
  own : pid.table = t.id
  usable : disk.isUsable t.handle = true
  index_lt : pid.index < UInt32.ofNat (t.pageCount disk)
  ofBytes : Page.ofBytes pid (disk.read t.path (pid.offset t.pageSize) t.pageSize) t.schema
    = .ok page

/-- The count of a file is its number of pages. -/
theorem TableFile.eq_of_countPages {t : TableFile} {disk : Disk} {count : Nat}
    (h : t.countPages disk = .ok count) : count = t.pageCount disk := by
  unfold countPages at h
  split at h
  · exact (Except.ok.inj h).symm
  · cases h

theorem TableFile.readPage_eq_ok_iff {t : TableFile} {disk : Disk} {pid : PageId} {page : Page} :
    t.readPage disk pid = .ok page ↔ t.Reads disk pid page := by
  unfold readPage own countPages
  constructor
  · intro h
    split at h
    · cases h
    · rename_i hown
      split at h
      · cases h
      · rename_i count hcount
        split at hcount
        · rename_i husable
          cases hcount
          simp only at h
          split at h
          · rename_i hlt
            exact ⟨by simpa using hown, husable, hlt, h⟩
          · cases h
        · cases hcount
  · rintro ⟨hown, husable, hlt, hbytes⟩
    simp only [hown, husable, if_true]
    rw [if_pos hlt, hbytes]

namespace Engine

variable {e e' : Engine} {tx : Tx} {access : Access} {pid : PageId} {frame : Frame}

theorem table?_of_lookup {c : Catalog} {id : TableId} {t : TableFile} (h : c.lookup id = .ok t) :
    c.table? id = some t := by
  unfold Catalog.lookup at h
  split at h
  · rename_i found hfound
    cases h
    exact hfound
  · cases h

theorem readPage_eq_ok_iff {page : Page} :
    e.readPage pid = .ok page
      ↔ ∃ t, e.catalog.table? pid.table = some t ∧ t.Reads e.disk pid page := by
  unfold readPage Catalog.lookup
  cases e.catalog.table? pid.table with
  | none => simp
  | some t => simp [TableFile.readPage_eq_ok_iff]

/-- A page from disk has the id it was asked for by, and no changes. -/
theorem readPage_eq_ok {page : Page} (h : e.readPage pid = .ok page) :
    page.pid = pid ∧ page.dirty = none := by
  obtain ⟨t, _, hr⟩ := readPage_eq_ok_iff.mp h
  have hread := Page.of_ofBytes hr.ofBytes
  exact ⟨hread.pid_eq, hread.clean⟩

theorem makeRoom_eq_ok {cache : Cache} (hp : e.cache.Proper) (h : e.makeRoom = .ok cache) :
    cache = e.cache ∨ ∃ pid frame, e.cache.find? pid = some frame ∧ frame.page.dirty = none
      ∧ cache = e.cache.remove pid := by
  unfold makeRoom at h
  split at h
  · exact Or.inr (hp.evict_eq_ok h)
  · cases h
    exact Or.inl rfl

/-- Making room spoils nothing. -/
theorem spoiled_of_makeRoom {cache : Cache} (h : e.makeRoom = .ok cache) :
    cache.spoiled = e.cache.spoiled := by
  unfold makeRoom Cache.evict at h
  split at h
  · split at h
    · cases h
    · split at h
      · cases h
        exact Cache.spoiled_remove ..
      · split at h <;> cases h
  · cases h
    rfl

/-! ## 3. The three steps -/

/-- One thing that a request for a page does. -/
inductive FetchStep (tx : Tx) : Engine → Engine → Prop
  | lock {e : Engine} {locks : LockTable} (mode : LockMode) (pid : PageId) :
      e.locks.acquire tx mode pid = (locks, true) → FetchStep tx e { e with locks := locks }
  | load {e : Engine} {pid : PageId} {page : Page} {cache : Cache} :
      e.cache.find? pid = none → e.readPage pid = .ok page → e.makeRoom = .ok cache →
        FetchStep tx e { e with cache := (cache.load pid page).1 }
  | spoil {e : Engine} {pid : PageId} {f : Failure} :
      e.readPage pid = .error f ∨ e.makeRoom = .error f → f.isUndefined = true →
        FetchStep tx e { e with cache := e.cache.spoil }

/-- Any number of things that requests for pages do. -/
abbrev Fetches (tx : Tx) : Engine → Engine → Prop := Relation.ReflTransGen (FetchStep tx)

theorem FetchStep.config_eq (h : FetchStep tx e e') : e'.config = e.config := by
  cases h <;> rfl

theorem FetchStep.catalog_eq (h : FetchStep tx e e') : e'.catalog = e.catalog := by
  cases h <;> rfl

theorem FetchStep.disk_eq (h : FetchStep tx e e') : e'.disk = e.disk := by
  cases h <;> rfl

/-- **Requests for pages touch neither the catalog nor the disk.** -/
theorem Fetches.same (h : Fetches tx e e') : e'.catalog = e.catalog ∧ e'.disk = e.disk := by
  induction h with
  | refl => exact ⟨rfl, rfl⟩
  | tail _ hs ih => exact ⟨hs.catalog_eq.trans ih.1, hs.disk_eq.trans ih.2⟩

theorem proper_of_makeRoom {cache : Cache} (hp : e.cache.Proper) (h : e.makeRoom = .ok cache) :
    cache.Proper := by
  rcases makeRoom_eq_ok hp h with rfl | ⟨pid, frame, _, _, rfl⟩
  · exact hp
  · exact hp.remove pid

theorem FetchStep.proper (h : FetchStep tx e e') (hp : e.cache.Proper) : e'.cache.Proper := by
  cases h with
  | lock mode pid _ => exact hp
  | load _ hr hm => exact (proper_of_makeRoom hp hm).load (readPage_eq_ok hr).1
  | spoil _ _ => exact hp.spoil

theorem Fetches.proper (h : Fetches tx e e') (hp : e.cache.Proper) : e'.cache.Proper := by
  induction h with
  | refl => exact hp
  | tail _ hs ih => exact hs.proper ih

/-- A changed page stays where it is, whatever is requested. -/
theorem FetchStep.find?_dirty (h : FetchStep tx e e') (hp : e.cache.Proper)
    (hf : e.cache.find? pid = some frame) (hd : frame.page.dirty ≠ none) :
    e'.cache.find? pid = some frame := by
  cases h with
  | lock mode pid _ => exact hf
  | @load other page cache hn _ hm =>
    have hne : pid ≠ other := by
      rintro rfl
      rw [hn] at hf
      cases hf
    simp only [Cache.find?_load, if_neg hne]
    rcases makeRoom_eq_ok hp hm with rfl | ⟨victim, old, hv, hc, rfl⟩
    · exact hf
    · rw [Cache.find?_remove, if_neg, hf]
      rintro rfl
      rw [hf] at hv
      cases hv
      exact hd hc
  | spoil _ _ => exact hf

theorem Fetches.find?_dirty (h : Fetches tx e e') (hp : e.cache.Proper)
    (hf : e.cache.find? pid = some frame) (hd : frame.page.dirty ≠ none) :
    e'.cache.find? pid = some frame := by
  induction h with
  | refl => exact hf
  | tail hr hs ih => exact hs.find?_dirty (Fetches.proper hr hp) ih hd

/-! ## 4. Requests -/

/-- How a use of the cache ends. -/
theorem inCache_cases {α : Type} {use : Engine → Engine × Except Failure α}
    {r : Except Failure α} (h : e.inCache use = (e', r)) :
    (e.cache.spoiled = true ∧ e' = e ∧ r = .error .spoiled)
      ∨ (e.cache.spoiled = false ∧ ∃ a, use e = (e', .ok a) ∧ r = .ok a)
      ∨ (e.cache.spoiled = false ∧ ∃ f e₁, use e = (e₁, .error f) ∧ r = .error f
        ∧ (f.isUndefined = false ∧ e' = e₁
          ∨ f.isUndefined = true ∧ e' = { e₁ with cache := e₁.cache.spoil })) := by
  unfold inCache at h
  split at h
  · rename_i hs
    cases h
    exact Or.inl ⟨hs, rfl, rfl⟩
  · rename_i hs
    have hs : e.cache.spoiled = false := by simpa using hs
    split at h
    · rename_i e₁ a hu
      cases h
      exact Or.inr (Or.inl ⟨hs, a, hu, rfl⟩)
    · rename_i e₁ f hu
      cases h
      refine Or.inr (Or.inr ⟨hs, f, e₁, hu, rfl, ?_⟩)
      cases hf : f.isUndefined with
      | false => exact Or.inl ⟨rfl, by simp⟩
      | true => exact Or.inr ⟨rfl, by simp⟩

/-- How a page is brought in. -/
theorem bringIn_cases {r : Except Failure Frame} (h : e.bringIn pid = (e', r)) :
    (e' = e ∧ ∃ frame, e.cache.find? pid = some frame ∧ r = .ok frame)
      ∨ (e' = e ∧ e.cache.find? pid = none ∧ ∃ f, r = .error f
        ∧ (e.readPage pid = .error f ∨ e.makeRoom = .error f))
      ∨ (e.cache.find? pid = none ∧ ∃ page cache, e.readPage pid = .ok page
        ∧ e.makeRoom = .ok cache ∧ e' = { e with cache := (cache.load pid page).1 }
        ∧ r = .ok (cache.load pid page).2) := by
  unfold bringIn at h
  split at h
  · rename_i frame hf
    cases h
    exact Or.inl ⟨rfl, frame, hf, rfl⟩
  · rename_i hn
    split at h
    · rename_i f hr
      cases h
      exact Or.inr (Or.inl ⟨rfl, hn, f, rfl, Or.inl hr⟩)
    · rename_i page hr
      split at h
      · rename_i f hm
        cases h
        exact Or.inr (Or.inl ⟨rfl, hn, f, rfl, Or.inr hm⟩)
      · rename_i cache hm
        cases h
        exact Or.inr (Or.inr ⟨hn, page, cache, hr, hm, rfl, rfl⟩)

/-- **How a request for a page goes.**  Denied, it changes nothing; granted, the page is brought in
under the new lock. -/
theorem fetch_cases {r : Except Failure Frame} (h : e.fetch tx access pid = (e', r)) :
    (e' = e ∧ r = .error (.lockTimeout tx access.mode pid)
        ∧ (e.locks.acquire tx access.mode pid).2 = false)
      ∨ ∃ locks, e.locks.acquire tx access.mode pid = (locks, true)
        ∧ inCache { e with locks := locks } (fun e => e.bringIn pid) = (e', r) := by
  unfold fetch LockTable.request at h
  cases ha : e.locks.acquire tx access.mode pid with
  | mk locks granted =>
    rw [ha] at h
    cases granted with
    | true => exact Or.inr ⟨locks, rfl, h⟩
    | false =>
      have hsame : locks = e.locks := by
        have hd := LockTable.acquire_of_denied (congrArg Prod.snd ha)
        rwa [ha] at hd
      cases h
      rw [hsame]
      exact Or.inl ⟨rfl, rfl, rfl⟩

/-- **A request does nothing but steps of the three kinds.** -/
theorem fetch_fetches {r : Except Failure Frame} (h : e.fetch tx access pid = (e', r)) :
    Fetches tx e e' := by
  rcases fetch_cases h with ⟨rfl, -, -⟩ | ⟨locks, ha, hin⟩
  · exact .refl
  · have hl : FetchStep tx e { e with locks := locks } := .lock access.mode pid ha
    rcases inCache_cases hin with ⟨-, rfl, -⟩ | ⟨-, frame, hb, -⟩ | ⟨-, f, e₁, hb, -, he⟩
    · exact .single hl
    · rcases bringIn_cases hb with ⟨rfl, -⟩ | ⟨-, -, f, hr, -⟩ | ⟨hn, page, cache, hr, hm, rfl, -⟩
      · exact .single hl
      · cases hr
      · exact (Relation.ReflTransGen.single hl).tail (.load hn hr hm)
    · rcases bringIn_cases hb with ⟨-, _, -, hr⟩ | ⟨rfl, -, g, hr, hwhy⟩ | ⟨-, _, _, -, -, -, hr⟩
      · cases hr
      · cases hr
        rcases he with ⟨-, rfl⟩ | ⟨hd, rfl⟩
        · exact .single hl
        · exact (Relation.ReflTransGen.single hl).tail (.spoil hwhy hd)
      · cases hr

/-- **What a transaction was handed** stands in a cache that can be used, under a lock of it. -/
structure Handed (e : Engine) (tx : Tx) (access : Access) (pid : PageId) (frame : Frame) :
    Prop where
  cached : e.cache.find? pid = some frame
  usable : e.cache.spoiled = false
  owns : access = .write → e.locks.Owns tx pid

theorem fetch_ok (h : e.fetch tx access pid = (e', .ok frame)) : Handed e' tx access pid frame := by
  rcases fetch_cases h with ⟨-, hr, -⟩ | ⟨locks, ha, hin⟩
  · cases hr
  · have howns : access = .write → locks.Owns tx pid := by
      rintro rfl
      have ho : (e.locks.acquire tx Access.write.mode pid).1.Owns tx pid :=
        LockTable.owns_of_granted (congrArg Prod.snd ha)
      rwa [ha] at ho
    rcases inCache_cases hin with ⟨-, -, hr⟩ | ⟨hs, found, hb, hr⟩ | ⟨-, f, e₁, -, hr, -⟩
    · cases hr
    · cases hr
      rcases bringIn_cases hb with ⟨rfl, f, hf, hr⟩ | ⟨-, -, f, hr, -⟩
        | ⟨hn, page, cache, hr, hm, rfl, hf⟩
      · cases hr
        exact ⟨hf, hs, howns⟩
      · cases hr
      · cases hf
        exact ⟨by simp only [Cache.find?_load, if_pos], (spoiled_of_makeRoom hm).trans hs, howns⟩
    · cases hr

/-! ## 5. Looking at pages on the way -/

/-- The page stood in the cache at some moment between two states. -/
def Visited (tx : Tx) (e e' : Engine) (pid : PageId) (page : Page) : Prop :=
  ∃ e₁ frame, Fetches tx e e₁ ∧ Fetches tx e₁ e' ∧ e₁.cache.find? pid = some frame
    ∧ frame.page = page

theorem Visited.after {e₁ e₂ : Engine} {page : Page} (h : Visited tx e e₁ pid page)
    (h' : Fetches tx e₁ e₂) : Visited tx e e₂ pid page := by
  obtain ⟨e₀, frame, hb, ha, hf, hp⟩ := h
  exact ⟨e₀, frame, hb, ha.trans h', hf, hp⟩

theorem Visited.before {e₁ e₂ : Engine} {page : Page} (h : Fetches tx e e₁)
    (h' : Visited tx e₁ e₂ pid page) : Visited tx e e₂ pid page := by
  obtain ⟨e₀, frame, hb, ha, hf, hp⟩ := h'
  exact ⟨e₀, frame, h.trans hb, ha, hf, hp⟩

end Engine

/-! ## 6. Scans -/

/-- A consumer that collects every row, the newest first. -/
def Consumer.collect : Consumer (List Row) := fun rows row e => (e, row :: rows, .more)

theorem Consumer.feed_collect : ∀ (rows acc : List Row) (e : Engine),
    collect.feed rows acc e = ([], e, rows.reverse ++ acc, .more)
  | [], _, _ => rfl
  | row :: rows, acc, e => by
    have ih := feed_collect rows (row :: acc) e
    rw [feed, collect]
    simpa using ih

namespace ScanPlace

open Engine

/-- **Collecting the rows of some pages** takes requests only, and ends with the rows of the pages
as they were handed out, one after the other. -/
theorem runPages_collect (tx : Tx) (table : TableFile) :
    ∀ (n : Nat) (place : ScanPlace) (e : Engine) (acc : List Row) (pass : Pass ScanPlace (List Row)),
      runPages tx table Consumer.collect n place e acc = pass →
      Fetches tx e pass.engine ∧ ((∃ f, pass.verdict = .failed f)
        ∨ pass.verdict = .ended ∧ ∃ pages : List Page, pages.length = n
          ∧ pass.collected = (pages.flatMap Page.rows).reverse ++ acc
          ∧ ∀ j page, pages[j]? = some page →
              Visited tx e pass.engine (table.pageId (place.nextPage + j)) page)
  | 0, place, e, acc, pass, h => by
    subst h
    exact ⟨.refl, Or.inr ⟨rfl, [], rfl, rfl, by simp⟩⟩
  | n + 1, place, e, acc, pass, h => by
    unfold runPages at h
    split at h
    · rename_i e₁ f hf
      subst h
      exact ⟨fetch_fetches hf, Or.inl ⟨f, rfl⟩⟩
    · rename_i e₁ frame hf
      have hfe := fetch_fetches hf
      split at h
      · rename_i f hu
        subst h
        exact ⟨hfe, Or.inl ⟨f, rfl⟩⟩
      · rename_i page hu
        rw [Consumer.feed_collect] at h
        simp only at h
        obtain ⟨hr, hend⟩ := runPages_collect tx table n _ e₁ _ pass h
        refine ⟨hfe.trans hr, ?_⟩
        rcases hend with hfail | ⟨hv, pages, hl, hc, hvis⟩
        · exact Or.inl hfail
        · have hpage := Frame.page_of_use hu
          refine Or.inr ⟨hv, page :: pages, by simp [hl], by simp [hc], fun j p hj => ?_⟩
          cases j with
          | zero =>
            simp only [List.getElem?_cons_zero, Option.some.injEq] at hj
            exact ⟨e₁, frame, hfe, hr, (fetch_ok hf).cached, hpage.trans hj⟩
          | succ j =>
            have hj' := Visited.before hfe (hvis j p (by simpa using hj))
            simp only at hj'
            rwa [Nat.add_assoc, Nat.add_comm 1 j] at hj'

end ScanPlace

namespace Engine

/-- A full scan of a table: the rows, and whether it failed behind them. -/
def scan (e : Engine) (tx : Tx) (table : TableFile) : Engine × List Row × Except Failure Unit :=
  match (Source.ofTable tx table).drain {} e with
  | (_, e, rows, r) => (e, rows, r)

/-- A scan counts the pages of its table, and then hands over the rows of so many pages. -/
theorem scan_runs {e e' : Engine} {tx : Tx} {table : TableFile} {rows : List Row}
    {r : Except Failure Unit} (h : e.scan tx table = (e', rows, r)) :
    (e' = e ∧ ∃ f, r = .error f)
    ∨ ∃ pass, ScanPlace.runPages tx table Consumer.collect (table.pageCount e.disk)
        { pageCount := some (table.pageCount e.disk) } e [] = pass ∧ e' = pass.engine
        ∧ ((∃ f, pass.verdict = .failed f ∧ r = .error f)
          ∨ pass.verdict = .ended ∧ rows = pass.collected.reverse ∧ r = .ok ()) := by
  unfold scan Source.drain at h
  generalize hp : (Source.ofTable tx table).run {} e [] (fun rows row e =>
    (e, row :: rows, .more)) = pass at h
  have hp : ScanPlace.run tx table {} e [] Consumer.collect = pass := hp
  unfold ScanPlace.run at hp
  rw [if_neg (by simp), Consumer.feed_collect] at hp
  simp only [List.reverse_nil, List.nil_append] at hp
  split at hp
  · rename_i f hcount
    subst hp
    cases h
    exact Or.inl ⟨rfl, f, rfl⟩
  · rename_i count hcount
    obtain rfl : count = table.pageCount e.disk := TableFile.eq_of_countPages hcount
    refine Or.inr ⟨pass, hp, ?_⟩
    rcases (ScanPlace.runPages_collect tx table _ _ e [] pass hp).2 with ⟨f, hv⟩ | ⟨hv, -⟩
    · simp only [hv] at h
      cases h
      exact ⟨rfl, Or.inl ⟨f, hv, rfl⟩⟩
    · simp only [hv] at h
      cases h
      exact ⟨rfl, Or.inr ⟨hv, rfl, rfl⟩⟩

/-- **A scan takes requests only**; if it does not fail, its rows are those of the table's pages as
they were handed out. -/
theorem scan_cases {e e' : Engine} {tx : Tx} {table : TableFile} {rows : List Row}
    {r : Except Failure Unit} (h : e.scan tx table = (e', rows, r)) :
    Fetches tx e e' ∧ (r = .ok () → ∃ pages : List Page,
      pages.length = table.pageCount e.disk ∧ rows = pages.flatMap Page.rows
        ∧ ∀ j page, pages[j]? = some page → Visited tx e e' (table.pageId j) page) := by
  rcases scan_runs h with ⟨rfl, f, rfl⟩ | ⟨pass, hpass, rfl, hend⟩
  · exact ⟨.refl, fun hr => by cases hr⟩
  obtain ⟨hf, hpages⟩ := ScanPlace.runPages_collect tx table _ _ e [] pass hpass
  refine ⟨hf, fun hr => ?_⟩
  rcases hend with ⟨f, -, he⟩ | ⟨hv, rfl, -⟩
  · cases he.symm.trans hr
  · rcases hpages with ⟨f, hfailed⟩ | ⟨-, pages, hl, hc, hvisited⟩
    · cases hv.symm.trans hfailed
    · refine ⟨pages, hl, by simp [hc], fun j page hj => ?_⟩
      simpa using hvisited j page hj

end Engine

end RowStore
