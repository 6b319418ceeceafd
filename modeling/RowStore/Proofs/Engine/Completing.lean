import RowStore.Engine.Completion
import RowStore.Proofs.Engine.Fetching

/-!
# What flushing and completing can do

Everything a flush or a completion does to pages is one of three steps: a cached page is written
and clean afterwards, a page is dropped and read again if it can be, or the operation stops in the
middle and leaves something spoiled (`SettleStep`, `Settles`).  A completion that
returns has left no page with its transaction's mark (`complete_cases`), and only then releases the
locks; one that stops releases nothing.

For a completion that goes through, the steps are known page by page: `commit_ok`, `abort_returned`.
-/

namespace RowStore

/-! ## 1. Calls that return -/

/-- The call came back, with an answer or a failure; it did not stop in the middle. -/
def Returned {α : Type} (r : Except Failure α) : Prop := ∀ f, r = .error f → f.isUndefined = false

theorem returned_ok {α : Type} (a : α) : Returned (.ok a : Except Failure α) :=
  fun _ h => by cases h

theorem returned_error_iff {α : Type} {f : Failure} :
    Returned (.error f : Except Failure α) ↔ f.isUndefined = false :=
  ⟨fun h => h f rfl, fun h g hg => by cases hg; exact h⟩

theorem not_returned_error {α : Type} {f : Failure} (h : f.isUndefined = true) :
    ¬ Returned (.error f : Except Failure α) := by
  rw [returned_error_iff, h]
  exact Bool.noConfusion

/-- What is told of two failures is defined exactly if both are. -/
theorem returned_followedBy_iff {α : Type} {f : Failure} {rest : Except Failure α}
    (hf : f.isUndefined = false) :
    Returned (.error (f.followedBy rest) : Except Failure α) ↔ Returned rest := by
  rw [returned_error_iff]
  cases rest with
  | ok a => simp [Failure.followedBy, hf, returned_ok]
  | error g =>
    rw [returned_error_iff]
    cases hg : g.isUndefined <;> simp [Failure.followedBy, hf, hg]

/-! ## 2. Writing pages to disk -/

namespace TableFile

variable {t : TableFile} {disk disk' : Disk} {page : Page}

/-- What a page written to its end takes, and what it leaves. -/
structure Writes (t : TableFile) (disk : Disk) (page : Page) (disk' : Disk) : Prop where
  own : page.pid.table = t.id
  usable : disk.isUsable t.handle = true
  disk_eq : disk' = disk.writeAt t.path (page.pid.offset t.pageSize) page.image
  lt : page.pid.offset t.pageSize + page.image.length < Disk.positions

theorem seekPage_cases {pid : PageId} {r : Except Failure Nat}
    (h : t.seekPage disk pid = (disk', r)) :
    (disk' = disk ∧ r = .ok (pid.offset t.pageSize) ∧ disk.isUsable t.handle = true)
      ∨ ((disk' = disk ∨ disk' = disk.spoil t.handle) ∧ ∃ f, r = .error f ∧ f.isUndefined = true) := by
  unfold seekPage PageId.offset? at h
  split at h
  · rename_i husable
    split at h
    · cases h
      exact Or.inr ⟨Or.inr rfl, _, rfl, rfl⟩
    · rename_i offset ho
      cases h
      split at ho
      · cases ho
        exact Or.inl ⟨rfl, rfl, husable⟩
      · cases ho
  · cases h
    exact Or.inr ⟨Or.inl rfl, _, rfl, rfl⟩

theorem writeBytes_cases {offset : Nat} {bytes : List UInt8} {r : Except Failure Unit}
    (h : t.writeBytes disk offset bytes = (disk', r)) :
    (disk' = disk.writeAt t.path offset bytes ∧ offset + bytes.length < Disk.positions
        ∧ r = .ok ())
      ∨ (disk' = disk ∧ ∃ f, r = .error f ∧ f.isUndefined = false) := by
  unfold writeBytes Disk.write at h
  split at h
  · cases h
    exact Or.inr ⟨rfl, _, rfl, rfl⟩
  · rename_i d hd
    cases h
    split at hd
    · rename_i hlt
      cases hd
      exact Or.inl ⟨rfl, hlt, rfl⟩
    · cases hd

/-- **How writing a page goes.**  It is written, or the disk is as before; only a write that stops
in the middle may leave the table's handle spoiled. -/
theorem writePage_cases {r : Except Failure Unit} (h : t.writePage disk page = (disk', r)) :
    (t.Writes disk page disk' ∧ r = .ok ())
      ∨ (disk' = disk ∧ ∃ f, r = .error f ∧ f.isUndefined = false)
      ∨ ((disk' = disk ∨ disk' = disk.spoil t.handle)
        ∧ ∃ f, r = .error f ∧ f.isUndefined = true) := by
  unfold writePage own at h
  split at h
  · rename_i f ho
    cases h
    refine Or.inr (Or.inl ⟨rfl, f, rfl, ?_⟩)
    split at ho
    · cases ho
    · cases ho
      rfl
  · rename_i ho
    have hown : page.pid.table = t.id := by simpa using ho
    split at h
    · rename_i d f hs
      cases h
      rcases seekPage_cases hs with ⟨-, hr, -⟩ | ⟨hd, g, hr, hg⟩
      · cases hr
      · cases hr
        exact Or.inr (Or.inr ⟨hd, f, rfl, hg⟩)
    · rename_i d offset hs
      rcases seekPage_cases hs with ⟨rfl, hr, husable⟩ | ⟨-, g, hr, -⟩
      · cases hr
        rcases writeBytes_cases h with ⟨hd, hlt, hr⟩ | ⟨hd, f, hr, hf⟩
        · exact Or.inl ⟨⟨hown, husable, hd, hlt⟩, hr⟩
        · exact Or.inr (Or.inl ⟨hd, f, hr, hf⟩)
      · cases hr

/-- **How writing an empty page behind the last one goes.** -/
theorem appendPage_cases {r : Except Failure PageId} (h : t.appendPage disk = (disk', r)) :
    (r = .ok (t.pageId (t.pageCount disk))
        ∧ disk' = disk.writeAt t.path ((t.pageId (t.pageCount disk)).offset t.pageSize)
            (Bytes.zeros t.pageSize)
        ∧ (t.pageId (t.pageCount disk)).offset t.pageSize + t.pageSize < Disk.positions)
      ∨ (disk' = disk ∨ disk' = disk.spoil t.handle) ∧ ∃ f, r = .error f := by
  unfold appendPage at h
  simp only at h
  split at h
  · rename_i d f hs
    cases h
    rcases seekPage_cases hs with ⟨-, hr, -⟩ | ⟨hd, -⟩
    · cases hr
    · exact Or.inr ⟨hd, f, rfl⟩
  · rename_i d offset hs
    rcases seekPage_cases hs with ⟨rfl, hr, -⟩ | ⟨-, g, hr, -⟩
    · cases hr
      split at h
      · rename_i d' f hw
        cases h
        rcases writeBytes_cases hw with ⟨-, -, hr⟩ | ⟨rfl, -⟩
        · cases hr
        · exact Or.inr ⟨Or.inl rfl, f, rfl⟩
      · rename_i d' hw
        cases h
        rcases writeBytes_cases hw with ⟨hd, hlt, -⟩ | ⟨-, f, hr, -⟩
        · exact Or.inl ⟨rfl, hd, by simpa using hlt⟩
        · cases hr
    · cases hr

end TableFile

namespace Engine

variable {e e' : Engine} {tx : Tx} {pid : PageId}

/-! ## 3. The three steps -/

/-- **Two engines that differ in what is spoiled and in nothing else.** -/
structure Halted (e e' : Engine) : Prop where
  config_eq : e'.config = e.config
  catalog_eq : e'.catalog = e.catalog
  locks_eq : e'.locks = e.locks
  files_eq : e'.disk.files = e.disk.files
  pids_eq : e'.cache.pids = e.cache.pids
  keys_eq : Assoc.keys e'.cache.frames = Assoc.keys e.cache.frames
  page_eq : ∀ pid, (e'.cache.find? pid).map Frame.page = (e.cache.find? pid).map Frame.page

theorem Halted.refl (e : Engine) : Halted e e := ⟨rfl, rfl, rfl, rfl, rfl, rfl, fun _ => rfl⟩

theorem halted_spoil (e : Engine) : Halted e { e with cache := e.cache.spoil } :=
  ⟨rfl, rfl, rfl, rfl, rfl, rfl, fun _ => rfl⟩

theorem halted_spoilPage {disk : Disk} (hd : disk.files = e.disk.files) (pid : PageId) :
    Halted e { e with disk := disk, cache := e.cache.spoilPage pid } := by
  refine ⟨rfl, rfl, rfl, hd, e.cache.pids_spoilPage pid, e.cache.keys_spoilPage pid,
    fun other => ?_⟩
  simp only [Cache.find?_spoilPage]
  split
  · rename_i h
    rw [h, Option.map_map]
    rfl
  · rfl

theorem Halted.find? (h : Halted e e') {frame : Frame} (hf : e'.cache.find? pid = some frame) :
    ∃ old, e.cache.find? pid = some old ∧ old.page = frame.page := by
  have hp := h.page_eq pid
  rw [hf] at hp
  exact Option.map_eq_some_iff.mp hp.symm

theorem Halted.proper (h : Halted e e') (hp : e.cache.Proper) : e'.cache.Proper := by
  refine ⟨?_, by rw [h.pids_eq]; exact hp.nodup, fun hf => ?_⟩
  · rw [h.pids_eq, h.keys_eq, hp.listed]
  obtain ⟨old, hold, he⟩ := h.find? hf
  rw [← he]
  exact hp.keyed hold

/-- **How reverting a page goes.** -/
theorem revertPage_cases {r : Except Failure Unit} (h : e.revertPage pid = (e', r)) :
    (∃ page, e.readPage pid = .ok page
        ∧ e' = { e with cache := ((e.cache.remove pid).load pid page).1 } ∧ r = .ok ())
      ∨ ∃ f, e.readPage pid = .error f ∧ e' = { e with cache := e.cache.remove pid }
        ∧ r = .error f := by
  unfold revertPage at h
  simp only at h
  have hread : readPage { e with cache := e.cache.remove pid } pid = e.readPage pid := rfl
  rw [hread] at h
  split at h
  · rename_i f hr
    cases h
    exact Or.inr ⟨f, hr, rfl, rfl⟩
  · rename_i page hr
    cases h
    exact Or.inl ⟨page, hr, rfl, rfl⟩

/-- **These pages are clean, and all others are cached as before.** -/
structure Cleans (pids : List PageId) (e e' : Engine) : Prop where
  clean : ∀ {pid : PageId} {frame : Frame}, pid ∈ pids → e'.cache.find? pid = some frame →
    frame.page.dirty = none
  find?_eq : ∀ {pid : PageId}, pid ∉ pids → e'.cache.find? pid = e.cache.find? pid

theorem Cleans.nil (e : Engine) : Cleans [] e e :=
  ⟨fun h => absurd h List.not_mem_nil, fun _ => rfl⟩

theorem Cleans.cons {e₁ : Engine} {pids : List PageId} (h : Cleans [pid] e e₁)
    (h' : Cleans pids e₁ e') : Cleans (pid :: pids) e e' where
  clean {p frame} hm hf := by
    by_cases hp : p ∈ pids
    · exact h'.clean hp hf
    · rw [h'.find?_eq hp] at hf
      exact h.clean (List.mem_singleton.mpr ((List.mem_cons.mp hm).resolve_right hp)) hf
  find?_eq {p} hm := by
    rw [List.mem_cons, not_or] at hm
    rw [h'.find?_eq hm.2, h.find?_eq (mt List.mem_singleton.mp hm.1)]

/-- A page that was reverted is clean. -/
theorem revertPage_cleans {r : Except Failure Unit} (h : e.revertPage pid = (e', r)) :
    Cleans [pid] e e' := by
  rcases revertPage_cases h with ⟨page, hr, rfl, -⟩ | ⟨f, hr, rfl, -⟩
  · refine ⟨fun {p frame} hm hf => ?_, fun {p} hm => ?_⟩
    · rw [List.mem_singleton] at hm
      simp only [Cache.find?_load, if_pos hm, Option.some.injEq] at hf
      rw [← hf]
      exact (readPage_eq_ok hr).2
    · rw [List.mem_singleton] at hm
      simp only [Cache.find?_load, Cache.find?_remove, if_neg hm]
  · refine ⟨fun {p frame} hm hf => ?_, fun {p} hm => ?_⟩
    · rw [List.mem_singleton] at hm
      simp only [Cache.find?_remove, if_pos hm] at hf
      cases hf
    · rw [List.mem_singleton] at hm
      simp only [Cache.find?_remove, if_neg hm]

/-- One thing that a flush or a completion does to a page. -/
inductive SettleStep : Engine → Engine → Prop
  | write {e : Engine} {pid : PageId} {frame : Frame} {table : TableFile} {disk : Disk} :
      e.cache.find? pid = some frame → e.catalog.table? pid.table = some table →
      table.Writes e.disk frame.page disk →
      SettleStep e (updatePage { e with disk := disk } pid frame.page.clean)
  | revert {e e' : Engine} {pid : PageId} {r : Except Failure Unit} :
      e.revertPage pid = (e', r) → (e.cache.find? pid).isSome → SettleStep e e'
  | halt {e e' : Engine} : Halted e e' → SettleStep e e'

/-- Any number of such things. -/
abbrev Settles : Engine → Engine → Prop := Relation.ReflTransGen SettleStep

/-- **Flushing and completing pages touches neither the catalog nor a lock.** -/
theorem Settles.same (h : Settles e e') : e'.catalog = e.catalog ∧ e'.locks = e.locks := by
  induction h with
  | refl => exact ⟨rfl, rfl⟩
  | tail _ hs ih =>
    cases hs with
    | write _ _ _ => exact ih
    | revert hr _ =>
      rcases revertPage_cases hr with ⟨page, -, rfl, -⟩ | ⟨f, -, rfl, -⟩ <;> exact ih
    | halt hh => exact ⟨hh.catalog_eq.trans ih.1, hh.locks_eq.trans ih.2⟩

theorem proper_of_revertPage {r : Except Failure Unit} (hp : e.cache.Proper)
    (h : e.revertPage pid = (e', r)) : e'.cache.Proper := by
  rcases revertPage_cases h with ⟨page, hread, rfl, -⟩ | ⟨f, -, rfl, -⟩
  · exact (hp.remove pid).load (readPage_eq_ok hread).1
  · exact hp.remove pid

theorem SettleStep.proper (h : SettleStep e e') (hp : e.cache.Proper) : e'.cache.Proper := by
  cases h with
  | write hf _ _ => exact hp.update (hp.keyed hf)
  | revert hr _ => exact proper_of_revertPage hp hr
  | halt hh => exact hh.proper hp

theorem Settles.proper (h : Settles e e') (hp : e.cache.Proper) : e'.cache.Proper := by
  induction h with
  | refl => exact hp
  | tail _ hs ih => exact hs.proper ih

/-- **No step marks a page**: a mark that is there afterwards was there before. -/
theorem SettleStep.dirty (h : SettleStep e e') {frame : Frame}
    (hf : e'.cache.find? pid = some frame) (hd : frame.page.dirty ≠ none) :
    ∃ old, e.cache.find? pid = some old ∧ old.page = frame.page := by
  cases h with
  | @write other old table disk hold _ _ =>
    simp only [updatePage, Cache.find?_update] at hf
    split at hf
    · obtain ⟨found, _, rfl⟩ := Option.map_eq_some_iff.mp hf
      exact absurd rfl hd
    · exact ⟨frame, hf, rfl⟩
  | @revert _ other _ hr _ =>
    have hc := revertPage_cleans hr
    by_cases hm : pid ∈ [other]
    · exact absurd (hc.clean hm hf) hd
    · exact ⟨frame, hc.find?_eq hm ▸ hf, rfl⟩
  | halt hh => exact hh.find? hf

theorem Settles.dirty (h : Settles e e') {frame : Frame}
    (hf : e'.cache.find? pid = some frame) (hd : frame.page.dirty ≠ none) :
    ∃ old, e.cache.find? pid = some old ∧ old.page = frame.page := by
  induction h generalizing frame with
  | refl => exact ⟨frame, hf, rfl⟩
  | tail _ hs ih =>
    obtain ⟨old, hold, he⟩ := hs.dirty hf hd
    obtain ⟨older, holder, he'⟩ := ih hold (he ▸ hd)
    exact ⟨older, holder, he'.trans he⟩

/-! ## 4. Flushing -/

/-- **How flushing a page goes.** -/
theorem flushPage_cases {r : Except Failure Unit} (h : e.flushPage pid = (e', r)) :
    (e' = e ∧ e.cache.find? pid = none ∧ r = .ok ())
      ∨ (∃ frame table disk, e.cache.find? pid = some frame
        ∧ e.catalog.table? pid.table = some table ∧ table.Writes e.disk frame.page disk
        ∧ e' = updatePage { e with disk := disk } pid frame.page.clean ∧ r = .ok ())
      ∨ (Halted e e' ∧ ∃ f, r = .error f ∧ (f.isUndefined = false → e' = e)) := by
  unfold flushPage at h
  cases hc : e.inCache (fun e => (e, .ok (e.cache.find? pid))) with
  | mk e₁ found =>
    rw [hc] at h
    rcases inCache_cases hc with ⟨-, rfl, rfl⟩ | ⟨-, a, hu, rfl⟩ | ⟨-, f, e₂, hu, -, -⟩
    · cases h
      exact Or.inr (Or.inr ⟨.refl _, _, rfl, fun _ => rfl⟩)
    · cases hu
      cases hf : e.cache.find? pid with
      | none =>
        simp only [hf] at h
        cases h
        exact Or.inl ⟨rfl, rfl, rfl⟩
      | some frame =>
        simp only [hf] at h
        split at h
        · rename_i f _
          cases h
          exact Or.inr (Or.inr ⟨.refl _, f, rfl, fun _ => rfl⟩)
        · rename_i table hl
          split at h
          · rename_i f _
            cases h
            exact Or.inr (Or.inr ⟨.refl _, f, rfl, fun _ => rfl⟩)
          · rename_i page hu
            obtain rfl := Frame.page_of_use hu
            unfold writeBack at h
            split at h
            · rename_i disk _ hw
              cases h
              rcases TableFile.writePage_cases hw with ⟨hw, -⟩ | ⟨-, f, hr, -⟩ | ⟨-, f, hr, -⟩
              · exact Or.inr (Or.inl ⟨frame, table, disk, rfl, table?_of_lookup hl, hw, rfl, rfl⟩)
              · cases hr
              · cases hr
            · rename_i disk f hw
              cases h
              refine Or.inr (Or.inr ?_)
              rcases TableFile.writePage_cases hw with ⟨-, hr⟩ | ⟨rfl, g, hr, hg⟩ | ⟨hd, g, hr, hg⟩
              · cases hr
              · cases hr
                rw [show (if f.isUndefined then e.cache.spoilPage pid else e.cache) = e.cache by
                  simp [hg]]
                exact ⟨.refl _, f, rfl, fun _ => rfl⟩
              · cases hr
                rw [show (if f.isUndefined then e.cache.spoilPage pid else e.cache)
                  = e.cache.spoilPage pid by simp [hg]]
                refine ⟨halted_spoilPage ?_ pid, f, rfl, fun hf => ?_⟩
                · rcases hd with rfl | rfl <;> rfl
                · rw [hg] at hf
                  cases hf
    · cases hu

theorem flushPage_settles {r : Except Failure Unit} (h : e.flushPage pid = (e', r)) :
    Settles e e' := by
  rcases flushPage_cases h with ⟨rfl, -⟩ | ⟨frame, table, disk, hf, ht, hw, rfl, -⟩ | ⟨hh, -⟩
  · exact .refl
  · exact .single (.write hf ht hw)
  · exact .single (.halt hh)

/-- How a flush of several pages begins: with the first of them, and if that is written, with the
others. -/
theorem flushEach_cons_cases {pids : List PageId} {r : Except Failure Unit}
    (h : flushEach (pid :: pids) e = (e', r)) :
    (∃ f, e.flushPage pid = (e', .error f) ∧ r = .error f)
      ∨ ∃ e₁, e.flushPage pid = (e₁, .ok ()) ∧ flushEach pids e₁ = (e', r) := by
  unfold flushEach at h
  split at h
  · rename_i e₁ f hp
    cases h
    exact Or.inl ⟨f, hp, rfl⟩
  · rename_i e₁ _ hp
    exact Or.inr ⟨e₁, hp, h⟩

theorem flushEach_settles {pids : List PageId} {r : Except Failure Unit}
    (h : flushEach pids e = (e', r)) : Settles e e' := by
  induction pids generalizing e with
  | nil =>
    cases h
    exact .refl
  | cons pid pids ih =>
    rcases flushEach_cons_cases h with ⟨f, hp, -⟩ | ⟨e₁, hp, hrest⟩
    · exact flushPage_settles hp
    · exact (flushPage_settles hp).trans (ih hrest)

theorem flushPage_cleans (h : e.flushPage pid = (e', .ok ())) : Cleans [pid] e e' := by
  rcases flushPage_cases h with ⟨rfl, hnone, -⟩ | ⟨old, table, disk, hold, -, -, rfl, -⟩
    | ⟨-, f, hr, -⟩
  · refine ⟨fun {p frame} hm hf => ?_, fun _ => rfl⟩
    rw [List.mem_singleton] at hm
    rw [hm, hnone] at hf
    cases hf
  · refine ⟨fun {p frame} hm hf => ?_, fun {p} hm => ?_⟩
    · rw [List.mem_singleton] at hm
      simp only [updatePage, Cache.find?_update, if_pos hm] at hf
      obtain ⟨found, _, rfl⟩ := Option.map_eq_some_iff.mp hf
      rfl
    · rw [List.mem_singleton] at hm
      simp only [updatePage, Cache.find?_update, if_neg hm]
  · cases hr

/-- **A flush that goes through leaves its pages clean.** -/
theorem flushEach_cleans {pids : List PageId} (h : flushEach pids e = (e', .ok ())) :
    Cleans pids e e' := by
  induction pids generalizing e with
  | nil =>
    cases h
    exact .nil _
  | cons pid pids ih =>
    rcases flushEach_cons_cases h with ⟨f, -, hr⟩ | ⟨e₁, hp, hrest⟩
    · cases hr
    · exact (flushPage_cleans hp).cons (ih hrest)

/-! ## 5. Reverting -/

/-- How a revert of several pages begins: with the first of them, and unless that is undefined, with
the others, also where the first has failed. -/
theorem revertEach_cons_cases {pids : List PageId} {r : Except Failure Unit}
    (h : revertEach (pid :: pids) e = (e', r)) :
    (∃ f, e.revertPage pid = (e', .error f) ∧ r = .error f ∧ f.isUndefined = true)
      ∨ ∃ e₁ r₁ r₂, e.revertPage pid = (e₁, r₁) ∧ revertEach pids e₁ = (e', r₂)
        ∧ (Returned r ↔ Returned r₂) ∧ (r = .ok () → r₁ = .ok () ∧ r₂ = .ok ()) := by
  unfold revertEach at h
  split at h
  · rename_i e₁ _ hp
    exact Or.inr ⟨e₁, .ok (), r, hp, h, Iff.rfl, fun hr => ⟨rfl, hr⟩⟩
  · rename_i e₁ f hp
    cases hf : f.isUndefined with
    | true =>
      simp only [hf, if_true] at h
      cases h
      exact Or.inl ⟨f, hp, rfl, hf⟩
    | false =>
      simp only [hf, Bool.false_eq_true, if_false] at h
      cases h
      exact Or.inr ⟨e₁, .error f, _, hp, rfl, returned_followedBy_iff hf, fun hr => (by cases hr)⟩

/-- **Reverting cached pages is done in steps**, one for every page until one is undefined. -/
theorem revertEach_settles {pids : List PageId} {r : Except Failure Unit} (hn : pids.Nodup)
    (hin : ∀ pid ∈ pids, (e.cache.find? pid).isSome) (h : revertEach pids e = (e', r)) :
    Settles e e' := by
  induction pids generalizing e r with
  | nil =>
    cases h
    exact .refl
  | cons pid pids ih =>
    obtain ⟨hnot, hn⟩ := List.nodup_cons.mp hn
    have hcached := hin pid List.mem_cons_self
    rcases revertEach_cons_cases h with ⟨f, hp, -⟩ | ⟨e₁, r₁, r₂, hp, hrest, -⟩
    · exact .single (.revert hp hcached)
    · refine .head (.revert hp hcached) (ih hn (fun other hm => ?_) hrest)
      -- a page that was reverted may have left the cache, but the others stay
      have hother : other ∉ [pid] := fun he => hnot (List.mem_singleton.mp he ▸ hm)
      rw [(revertPage_cleans hp).find?_eq hother]
      exact hin other (List.mem_cons_of_mem _ hm)

/-- A revert of several pages that returns has reverted the first and then the others. -/
theorem revertEach_cons_returned {pids : List PageId} {r : Except Failure Unit}
    (h : revertEach (pid :: pids) e = (e', r)) (hr : Returned r) :
    ∃ e₁ r₁ r₂, e.revertPage pid = (e₁, r₁) ∧ revertEach pids e₁ = (e', r₂) ∧ Returned r₂ := by
  rcases revertEach_cons_cases h with ⟨f, -, rfl, hf⟩ | ⟨e₁, r₁, r₂, hp, hrest, hiff, -⟩
  · exact absurd hr (not_returned_error hf)
  · exact ⟨e₁, r₁, r₂, hp, hrest, hiff.mp hr⟩

/-- **A revert that returns leaves its pages clean.** -/
theorem revertEach_cleans {pids : List PageId} {r : Except Failure Unit}
    (h : revertEach pids e = (e', r)) (hr : Returned r) : Cleans pids e e' := by
  induction pids generalizing e r with
  | nil =>
    cases h
    exact .nil _
  | cons pid pids ih =>
    obtain ⟨e₁, r₁, r₂, hp, hrest, hr₂⟩ := revertEach_cons_returned h hr
    exact (revertPage_cleans hp).cons (ih hrest hr₂)

/-! ## 6. Completion -/

/-- No cached page is marked by the transaction. -/
def Unmarked (e : Engine) (tx : Tx) : Prop :=
  ∀ pid frame, e.cache.find? pid = some frame → frame.page.dirty ≠ some tx

/-- If the pages a transaction changed are clean and all others stayed, nothing is left marked. -/
theorem Cleans.unmarked (hp : e.cache.Proper) (h : Cleans (e.cache.changedBy tx) e e') :
    Unmarked e' tx := by
  intro pid frame hf hd
  by_cases hm : pid ∈ e.cache.changedBy tx
  · rw [h.clean hm hf] at hd
    cases hd
  · rw [h.find?_eq hm] at hf
    exact hm (hp.mem_changedBy_iff.mpr ⟨frame, hf, hd⟩)

/-- The pages a transaction changed are cached, and listed once. -/
theorem revertEach_changed_settles {r : Except Failure Unit} (hp : e.cache.Proper)
    (h : revertEach (e.cache.changedBy tx) e = (e', r)) : Settles e e' := by
  refine revertEach_settles (hp.nodup_changedBy tx) (fun pid hm => ?_) h
  obtain ⟨frame, hf, -⟩ := hp.mem_changedBy_iff.mp hm
  rw [hf]
  rfl

theorem findChanged_cases {c : Cache} {r : Except Failure (List PageId)}
    (h : c.findChanged tx = r) : r = .error .spoiled ∨ r = .ok (c.changedBy tx) := by
  unfold Cache.findChanged at h
  split at h
  · exact Or.inl h.symm
  · exact Or.inr h.symm

/-- How flushing a transaction's pages goes. -/
theorem flushChanged_cases {r : Except Failure Unit} (h : e.flushChanged tx = (e', r)) :
    (Halted e e' ∧ ¬ Returned r) ∨ flushEach (e.cache.changedBy tx) e = (e', r) := by
  unfold flushChanged at h
  cases hc : e.inCache (fun e => (e, e.cache.findChanged tx)) with
  | mk e₁ found =>
    rw [hc] at h
    rcases inCache_cases hc with ⟨-, rfl, rfl⟩ | ⟨-, pids, hu, rfl⟩ | ⟨-, f, e₂, hu, rfl, he⟩
    · cases h
      exact Or.inl ⟨.refl _, not_returned_error rfl⟩
    · simp only [Prod.mk.injEq] at hu
      obtain ⟨rfl, hu⟩ := hu
      rcases findChanged_cases hu with hc | hc
      · cases hc
      · cases hc
        exact Or.inr h
    · simp only [Prod.mk.injEq] at hu
      obtain ⟨rfl, hu⟩ := hu
      rcases findChanged_cases hu with hf | hf
      · cases hf
        cases h
        rcases he with ⟨hn, -⟩ | ⟨-, rfl⟩
        · cases hn
        · exact Or.inl ⟨halted_spoil _, not_returned_error rfl⟩
      · cases hf

/-- A flush of everything is not started, or flushes every page that is cached. -/
theorem flushAll_cases {r : Except Failure Unit} (h : e.flushAll = (e', r)) :
    e' = e ∨ flushEach e.cache.pids e = (e', r) := by
  unfold flushAll at h
  cases hc : e.inCache (fun e => (e, .ok e.cache.pids)) with
  | mk e₁ found =>
    rw [hc] at h
    rcases inCache_cases hc with ⟨-, rfl, rfl⟩ | ⟨-, pids, hu, rfl⟩ | ⟨-, f, e₂, hu, -, -⟩
    · cases h
      exact Or.inl rfl
    · cases hu
      exact Or.inr h
    · cases hu

/-- How reverting a transaction's pages goes: a stop in the middle spoils the cache after it. -/
theorem revertChanged_cases {r : Except Failure Unit} (h : e.revertChanged tx = (e', r)) :
    (Halted e e' ∧ ¬ Returned r)
      ∨ ∃ e₁, revertEach (e.cache.changedBy tx) e = (e₁, r)
        ∧ (e' = e₁ ∨ Halted e₁ e' ∧ ¬ Returned r) := by
  unfold revertChanged at h
  rcases inCache_cases h with ⟨-, rfl, rfl⟩ | ⟨-, u, hu, rfl⟩ | ⟨-, f, e₁, hu, rfl, he⟩
  · exact Or.inl ⟨.refl _, not_returned_error rfl⟩
  · split at hu
    · cases hu
    · rename_i pids hc
      rcases findChanged_cases hc with hc | hc
      · cases hc
      · cases hc
        exact Or.inr ⟨e', hu, Or.inl rfl⟩
  · split at hu
    · rename_i g hc
      cases hu
      rcases findChanged_cases hc with hc | hc
      · cases hc
        rcases he with ⟨hn, -⟩ | ⟨-, rfl⟩
        · cases hn
        · exact Or.inl ⟨halted_spoil _, not_returned_error rfl⟩
      · cases hc
    · rename_i pids hc
      rcases findChanged_cases hc with hc | hc
      · cases hc
      · cases hc
        refine Or.inr ⟨e₁, hu, ?_⟩
        rcases he with ⟨-, rfl⟩ | ⟨hd, rfl⟩
        · exact Or.inl rfl
        · exact Or.inr ⟨halted_spoil _, not_returned_error hd⟩

theorem revertChanged_settles {r : Except Failure Unit} (hp : e.cache.Proper)
    (h : e.revertChanged tx = (e', r)) : Settles e e' := by
  rcases revertChanged_cases h with ⟨hh, -⟩ | ⟨e₁, hs, rfl | ⟨hh, -⟩⟩
  · exact .single (.halt hh)
  · exact revertEach_changed_settles hp hs
  · exact (revertEach_changed_settles hp hs).tail (.halt hh)

theorem flushChanged_settles {r : Except Failure Unit} (h : e.flushChanged tx = (e', r)) :
    Settles e e' := by
  rcases flushChanged_cases h with ⟨hh, -⟩ | hs
  · exact .single (.halt hh)
  · exact flushEach_settles hs

theorem revertChanged_unmarked {r : Except Failure Unit} (hp : e.cache.Proper)
    (h : e.revertChanged tx = (e', r)) (hr : Returned r) : Unmarked e' tx := by
  rcases revertChanged_cases h with ⟨-, hn⟩ | ⟨e₁, hs, rfl | ⟨-, hn⟩⟩
  · exact absurd hr hn
  · exact (revertEach_cleans hs hr).unmarked hp
  · exact absurd hr hn

/-- **How the pages of a completion go**: steps, and no mark is left if it returns. -/
theorem conclude_cases {commit : Bool} {r : Except Failure Unit} (hp : e.cache.Proper)
    (h : e.conclude tx commit = (e', r)) : Settles e e' ∧ (Returned r → Unmarked e' tx) := by
  unfold conclude at h
  split at h
  · unfold settle at h
    split at h
    · rename_i e₁ _ hf
      cases h
      refine ⟨flushChanged_settles hf, fun hr => ?_⟩
      rcases flushChanged_cases hf with ⟨-, hn⟩ | hs
      · exact absurd hr hn
      · exact (flushEach_cleans hs).unmarked hp
    · rename_i e₁ f hf
      have hs := flushChanged_settles hf
      cases hd : f.isUndefined with
      | true =>
        simp only [hd, if_true] at h
        cases h
        exact ⟨hs, fun hr => absurd hr (not_returned_error hd)⟩
      | false =>
        simp only [hd, Bool.false_eq_true, if_false] at h
        cases hv : e₁.revertChanged tx with
        | mk e₂ rest =>
          rw [hv] at h
          cases h
          exact ⟨hs.trans (revertChanged_settles (hs.proper hp) hv), fun hr =>
            revertChanged_unmarked (hs.proper hp) hv ((returned_followedBy_iff hd).mp hr)⟩
  · exact ⟨revertChanged_settles hp h, fun hr => revertChanged_unmarked hp h hr⟩

/-- **How a completion goes.**  If it returns, no page is left with its transaction's mark, and then
the transaction's locks are released; if it stops in the middle, no lock is. -/
theorem complete_cases {commit : Bool} {r : Except Failure Unit} (hp : e.cache.Proper)
    (h : e.complete tx commit = (e', r)) :
    ∃ e₁, Settles e e₁
      ∧ (Returned r ∧ Unmarked e₁ tx ∧ e' = { e₁ with locks := e₁.locks.releaseAll tx }
        ∨ ¬ Returned r ∧ e' = e₁) := by
  unfold complete at h
  cases hc : e.conclude tx commit with
  | mk e₁ result =>
    obtain ⟨hs, hu⟩ := conclude_cases hp hc
    rw [hc] at h
    cases result with
    | ok a =>
      cases h
      exact ⟨e₁, hs, Or.inl ⟨returned_ok _, hu (returned_ok _), rfl⟩⟩
    | error f =>
      cases h
      cases hd : f.isUndefined with
      | true =>
        exact ⟨e₁, hs, Or.inr ⟨not_returned_error hd, by simp⟩⟩
      | false =>
        have hr : Returned (.error f : Except Failure Unit) := returned_error_iff.mpr hd
        exact ⟨e₁, hs, Or.inl ⟨hr, hu hr, by simp⟩⟩

/-- A commit that goes through has flushed the pages of its transaction. -/
theorem commit_ok (h : e.complete tx true = (e', .ok ())) :
    ∃ e₁, flushEach (e.cache.changedBy tx) e = (e₁, .ok ())
      ∧ e' = { e₁ with locks := e₁.locks.releaseAll tx } := by
  unfold complete conclude settle at h
  simp only [if_true] at h
  cases hf : e.flushChanged tx with
  | mk e₁ result =>
    cases result with
    | ok a =>
      simp only [hf] at h
      cases h
      rcases flushChanged_cases hf with ⟨-, hn⟩ | hs
      · exact absurd (returned_ok _) hn
      · exact ⟨e₁, hs, rfl⟩
    | error f =>
      simp only [hf] at h
      cases hd : f.isUndefined <;> simp [hd] at h

/-- An abort that returns has reverted the pages of its transaction. -/
theorem abort_returned {r : Except Failure Unit} (h : e.complete tx false = (e', r))
    (hr : Returned r) :
    ∃ e₁, revertEach (e.cache.changedBy tx) e = (e₁, r)
      ∧ e' = { e₁ with locks := e₁.locks.releaseAll tx } := by
  unfold complete conclude at h
  simp only [Bool.false_eq_true, if_false] at h
  cases hc : e.revertChanged tx with
  | mk e₁ result =>
    have hres : result = r ∧ e' = { e₁ with locks := e₁.locks.releaseAll tx } := by
      rw [hc] at h
      cases result with
      | ok a =>
        cases h
        exact ⟨rfl, rfl⟩
      | error f =>
        cases h
        have hd := returned_error_iff.mp hr
        exact ⟨rfl, by simp [hd]⟩
    obtain ⟨rfl, rfl⟩ := hres
    rcases revertChanged_cases hc with ⟨-, hn⟩ | ⟨e₂, hs, rfl | ⟨-, hn⟩⟩
    · exact absurd hr hn
    · exact ⟨e₁, hs, rfl⟩
    · exact absurd hr hn

end Engine

end RowStore
