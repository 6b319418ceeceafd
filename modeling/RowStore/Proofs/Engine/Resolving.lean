import RowStore.Proofs.Engine.Completing

/-!
# What becomes of every page of a completion

A completion takes up the pages its transaction changed in their order.  It writes some of them,
from the first one on, and then drops others and reads them again; where it returns, the two are
all of them (`complete_resolves`).

Neither loop is all or nothing.  A page that cannot be written ends the writing, and what was
written until then stays written (`Written`).  A page that cannot be read again stays dropped, and
the pages behind it are still taken up (`Reread`).  So both are stated for the pages that the loop
has reached, whatever it answers.
-/

namespace RowStore

/-! ## 1. Caches that nothing has spoiled -/

namespace Cache

/-- **Neither the cache nor a page in it is spoiled.** -/
structure Intact (c : Cache) : Prop where
  usable : c.spoiled = false
  frames : ∀ {pid : PageId} {frame : Frame}, c.find? pid = some frame → frame.spoiled = false

end Cache

namespace Engine

variable {e e' e₁ e₂ : Engine} {tx : Tx} {pid : PageId} {pids : List PageId} {frame : Frame}
  {r : Except Failure Unit}

/-! ## 2. Writing -/

/-- The page can be written: its table is registered and in use, and the page ends at a position
that a file can have. -/
def Writable (e : Engine) (pid : PageId) (page : Page) : Prop :=
  ∃ table disk, e.catalog.table? pid.table = some table ∧ table.Writes e.disk page disk

/-- Whether a page can be written does not depend on what was written before. -/
theorem Writable.congr {page : Page} (h : e₁.Writable pid page) (hc : e₁.catalog = e.catalog)
    (hd : e₁.disk.spoiled = e.disk.spoiled) : e.Writable pid page := by
  obtain ⟨table, disk, ht, hw⟩ := h
  refine ⟨table, _, hc ▸ ht, hw.own, ?_, rfl, hw.lt⟩
  have husable := hw.usable
  unfold Disk.isUsable at husable ⊢
  rwa [← hd]

/-- The frame with its page clean. -/
def cleaned (frame : Frame) : Frame := { frame with page := frame.page.clean }

/-- **What is left when some pages were written**: each is at its place and clean, and nothing else
in the cache has changed. -/
structure Written (pids : List PageId) (e e' : Engine) : Prop where
  catalog_eq : e'.catalog = e.catalog
  handles_eq : e'.disk.spoiled = e.disk.spoiled
  locks_eq : e'.locks = e.locks
  usable_eq : e'.cache.spoiled = e.cache.spoiled
  pids_eq : e'.cache.pids = e.cache.pids
  find?_eq : ∀ pid, e'.cache.find? pid
    = if pid ∈ pids then (e.cache.find? pid).map cleaned else e.cache.find? pid
  writable : ∀ {pid : PageId} {frame : Frame}, pid ∈ pids → e.cache.find? pid = some frame →
    e.Writable pid frame.page

theorem Written.nil (e : Engine) : Written [] e e where
  catalog_eq := rfl
  handles_eq := rfl
  locks_eq := rfl
  usable_eq := rfl
  pids_eq := rfl
  find?_eq _ := rfl
  writable h := absurd h List.not_mem_nil

theorem Written.cons (h : Written [pid] e e₁) (h' : Written pids e₁ e') :
    Written (pid :: pids) e e' where
  catalog_eq := h'.catalog_eq.trans h.catalog_eq
  handles_eq := h'.handles_eq.trans h.handles_eq
  locks_eq := h'.locks_eq.trans h.locks_eq
  usable_eq := h'.usable_eq.trans h.usable_eq
  pids_eq := h'.pids_eq.trans h.pids_eq
  find?_eq other := by
    rw [h'.find?_eq, h.find?_eq]
    by_cases ho : other = pid
    · -- a page that is written twice is as clean as after the first time
      simp only [ho, List.mem_cons, List.not_mem_nil, or_false, true_or, if_true, Option.map_map]
      split <;> rfl
    · simp [ho]
  writable {other frame} hm hf := by
    by_cases ho : other = pid
    · exact h.writable (List.mem_singleton.mpr ho) hf
    · have hf₁ : e₁.cache.find? other = some frame := by
        rw [h.find?_eq, if_neg (mt List.mem_singleton.mp ho), hf]
      exact (h'.writable ((List.mem_cons.mp hm).resolve_left ho) hf₁).congr h.catalog_eq
        h.handles_eq

theorem flushPage_written (h : e.flushPage pid = (e', .ok ())) : Written [pid] e e' := by
  rcases flushPage_cases h with ⟨rfl, hnone, -⟩ | ⟨frame, table, disk, hf, ht, hw, rfl, -⟩
    | ⟨-, f, hr, -⟩
  · refine ⟨rfl, rfl, rfl, rfl, rfl, fun other => ?_, fun {other frame} hm hf => ?_⟩
    · split
      · rename_i hm
        rw [List.mem_singleton.mp hm, hnone]
        rfl
      · rfl
    · rw [List.mem_singleton.mp hm, hnone] at hf
      cases hf
  · refine ⟨rfl, ?handles, rfl, ?usable, e.cache.pids_update pid _, ?cached, ?writable⟩
    case handles =>
      rw [hw.disk_eq]
      rfl
    case usable =>
      simp only [updatePage, Cache.update, hf]
      rfl
    case cached =>
      intro other
      simp only [updatePage, Cache.find?_update, List.mem_singleton]
      split
      · rename_i he
        rw [he, hf]
        rfl
      · rfl
    case writable =>
      intro other found hm hfound
      obtain rfl := List.mem_singleton.mp hm
      obtain rfl : frame = found := Option.some.inj (hf.symm.trans hfound)
      exact ⟨table, disk, ht, hw⟩
  · cases hr

/-- **A flush writes its pages up to one that it cannot write.**  Unless it stops in the middle, it
leaves everything as it is after the last page that was written. -/
theorem flushEach_written (h : flushEach pids e = (e', r)) :
    ∃ written rest e₁, pids = written ++ rest ∧ Written written e e₁ ∧ Halted e₁ e'
      ∧ (Returned r → e' = e₁) ∧ (r = .ok () → rest = []) := by
  induction pids generalizing e with
  | nil =>
    cases h
    exact ⟨[], [], _, rfl, .nil _, .refl _, fun _ => rfl, fun _ => rfl⟩
  | cons pid pids ih =>
    rcases flushEach_cons_cases h with ⟨f, hp, rfl⟩ | ⟨e₁, hp, hrest⟩
    · rcases flushPage_cases hp with ⟨-, -, hr⟩ | ⟨_, _, _, -, -, -, -, hr⟩ | ⟨hh, g, hr, hdef⟩
      · cases hr
      · cases hr
      · cases hr
        exact ⟨[], pid :: pids, e, rfl, .nil e, hh, fun hr => hdef (returned_error_iff.mp hr),
          fun hr => (by cases hr)⟩
    · obtain ⟨written, rest, e₂, hpids, hw, hh, hret, hok⟩ := ih hrest
      exact ⟨pid :: written, rest, e₂, by rw [hpids, List.cons_append],
        (flushPage_written hp).cons hw, hh, hret, hok⟩

/-- What was written bears no mark any more. -/
theorem Written.changedBy_eq (h : Written pids e e') (tx : Tx) :
    e'.cache.changedBy tx = (e.cache.changedBy tx).filter fun pid => pid ∉ pids := by
  unfold Cache.changedBy
  rw [h.pids_eq, List.filter_filter]
  refine List.filter_congr fun p _ => ?_
  rw [h.find?_eq]
  by_cases hm : p ∈ pids
  · cases e.cache.find? p <;> simp [hm, cleaned, Page.clean]
  · simp [hm]

/-- Writing spoils nothing. -/
theorem Written.intact (h : Written pids e e') (hi : e.cache.Intact) : e'.cache.Intact where
  usable := h.usable_eq.trans hi.usable
  frames {pid frame} hf := by
    rw [h.find?_eq] at hf
    split at hf
    · obtain ⟨old, hold, rfl⟩ := Option.map_eq_some_iff.mp hf
      have hspoiled := hi.frames hold
      exact hspoiled
    · exact hi.frames hf

/-! ## 3. Reading again -/

/-- **What is left when some pages were dropped and read again**: each is clean and as it is on
disk, or it is not cached, for it cannot be read. -/
structure Reread (pids : List PageId) (e e' : Engine) : Prop where
  catalog_eq : e'.catalog = e.catalog
  disk_eq : e'.disk = e.disk
  locks_eq : e'.locks = e.locks
  usable_eq : e'.cache.spoiled = e.cache.spoiled
  reread : ∀ {pid : PageId}, pid ∈ pids →
    (∃ frame, e'.cache.find? pid = some frame ∧ e.readPage pid = .ok frame.page
      ∧ frame.spoiled = false)
    ∨ e'.cache.find? pid = none ∧ ∃ f, e.readPage pid = .error f
  find?_eq : ∀ {pid : PageId}, pid ∉ pids → e'.cache.find? pid = e.cache.find? pid
  /-- The pages that could be read stand at the back, the others in front of them, each in their
  order. -/
  pids_eq : e'.cache.pids = (e.cache.pids.filter fun pid => pid ∉ pids)
    ++ pids.filter fun pid => (e'.cache.find? pid).isSome

/-- What is read depends on the tables and on the disk. -/
theorem readPage_congr (hc : e'.catalog = e.catalog) (hd : e'.disk = e.disk) (pid : PageId) :
    e'.readPage pid = e.readPage pid := by
  unfold readPage
  rw [hc, hd]

theorem Reread.nil (e : Engine) : Reread [] e e where
  catalog_eq := rfl
  disk_eq := rfl
  locks_eq := rfl
  usable_eq := rfl
  reread h := absurd h List.not_mem_nil
  find?_eq _ := rfl
  pids_eq := by
    rw [List.filter_nil, List.append_nil]
    exact (List.filter_eq_self.mpr fun _ _ => by simp).symm

theorem Reread.cons (hnot : pid ∉ pids) (h : Reread [pid] e e₁) (h' : Reread pids e₁ e') :
    Reread (pid :: pids) e e' where
  catalog_eq := h'.catalog_eq.trans h.catalog_eq
  disk_eq := h'.disk_eq.trans h.disk_eq
  locks_eq := h'.locks_eq.trans h.locks_eq
  usable_eq := h'.usable_eq.trans h.usable_eq
  reread {other} hm := by
    by_cases ho : other ∈ pids
    · rw [← readPage_congr h.catalog_eq h.disk_eq other]
      exact h'.reread ho
    · obtain rfl : other = pid := (List.mem_cons.mp hm).resolve_right ho
      rw [h'.find?_eq ho]
      exact h.reread List.mem_cons_self
  find?_eq {other} hm := by
    rw [List.mem_cons, not_or] at hm
    rw [h'.find?_eq hm.2, h.find?_eq (mt List.mem_singleton.mp hm.1)]
  pids_eq := by
    have hlast : (e'.cache.find? pid).isSome = (e₁.cache.find? pid).isSome := by
      rw [h'.find?_eq hnot]
    rw [h'.pids_eq, h.pids_eq, List.filter_append, List.filter_filter]
    simp only [List.filter_cons, List.filter_nil, hlast]
    split <;> simp [hnot, Bool.and_comm]

theorem revertPage_reread (hp : e.cache.Proper) (h : e.revertPage pid = (e', r)) :
    Reread [pid] e e' := by
  have hmissing : (e.cache.remove pid).find? pid = none := by
    rw [Cache.find?_remove, if_pos rfl]
  rcases revertPage_cases h with ⟨page, hread, rfl, -⟩ | ⟨f, hread, rfl, -⟩
  · have hfind : ((e.cache.remove pid).load pid page).1.find? pid
        = some ((e.cache.remove pid).load pid page).2 := by
      rw [Cache.find?_load, if_pos rfl]
    refine ⟨rfl, rfl, rfl, e.cache.spoiled_remove pid, ?reread, ?cached, ?order⟩
    case reread =>
      intro other hm
      obtain rfl := List.mem_singleton.mp hm
      exact Or.inl ⟨_, hfind, hread, rfl⟩
    case cached =>
      intro other hm
      have hne := mt List.mem_singleton.mpr hm
      simp only [Cache.find?_load, Cache.find?_remove, if_neg hne]
    case order =>
      rw [Cache.pids_load_of_missing page hmissing, hp.pids_remove]
      simp [hfind]
  · refine ⟨rfl, rfl, rfl, e.cache.spoiled_remove pid, ?reread, ?cached, ?order⟩
    case reread =>
      intro other hm
      obtain rfl := List.mem_singleton.mp hm
      exact Or.inr ⟨hmissing, f, hread⟩
    case cached =>
      intro other hm
      have hne := mt List.mem_singleton.mpr hm
      simp only [Cache.find?_remove, if_neg hne]
    case order =>
      rw [hp.pids_remove]
      simp [hmissing]

/-- **A revert takes up its pages until it stops in the middle**, also those behind one that could
not be read. -/
theorem revertEach_reread (hproper : e.cache.Proper) (hn : pids.Nodup)
    (h : revertEach pids e = (e', r)) :
    ∃ dropped rest, pids = dropped ++ rest ∧ Reread dropped e e'
      ∧ (Returned r → rest = []) := by
  induction pids generalizing e r with
  | nil =>
    cases h
    exact ⟨[], [], rfl, .nil _, fun _ => rfl⟩
  | cons pid pids ih =>
    obtain ⟨hnot, hn⟩ := List.nodup_cons.mp hn
    rcases revertEach_cons_cases h with ⟨f, hp, rfl, hf⟩ | ⟨e₁, r₁, r₂, hp, hrest, hiff, -⟩
    · exact ⟨[pid], pids, rfl, revertPage_reread hproper hp,
        fun hr => absurd hr (not_returned_error hf)⟩
    · obtain ⟨dropped, rest, rfl, hd, hret⟩ := ih (proper_of_revertPage hproper hp) hn hrest
      have hnot' : pid ∉ dropped := fun hm => hnot (List.mem_append_left _ hm)
      exact ⟨pid :: dropped, rest, rfl, (revertPage_reread hproper hp).cons hnot' hd,
        fun hr => hret (hiff.mp hr)⟩

theorem revertPage_same (h : e.revertPage pid = (e', r)) :
    e'.catalog = e.catalog ∧ e'.disk = e.disk := by
  rcases revertPage_cases h with ⟨_, -, rfl, -⟩ | ⟨_, -, rfl, -⟩ <;> exact ⟨rfl, rfl⟩

/-- **Reverting writes nothing**, however it ends. -/
theorem revertEach_disk (h : revertEach pids e = (e', r)) : e'.disk = e.disk := by
  induction pids generalizing e r with
  | nil =>
    cases h
    rfl
  | cons pid pids ih =>
    rcases revertEach_cons_cases h with ⟨f, hp, -⟩ | ⟨e₁, r₁, r₂, hp, hrest, -⟩
    · exact (revertPage_same hp).2
    · exact (ih hrest).trans (revertPage_same hp).2

theorem revertChanged_disk (h : e.revertChanged tx = (e', r)) : e'.disk = e.disk := by
  unfold revertChanged at h
  rcases inCache_cases h with ⟨-, rfl, -⟩ | ⟨-, u, hu, -⟩ | ⟨-, f, e₁, hu, -, he⟩
  · rfl
  · split at hu
    · cases hu
    · exact revertEach_disk hu
  · have hdisk : e₁.disk = e.disk := by
      split at hu
      · cases hu
        rfl
      · exact revertEach_disk hu
    rcases he with ⟨-, rfl⟩ | ⟨-, rfl⟩ <;> exact hdisk

/-- A revert that goes through has read all its pages again. -/
theorem readPage_of_revertEach (h : revertEach pids e = (e', .ok ())) (hm : pid ∈ pids) :
    ∃ page, e.readPage pid = .ok page := by
  induction pids generalizing e with
  | nil => exact absurd hm List.not_mem_nil
  | cons first pids ih =>
    rcases revertEach_cons_cases h with ⟨f, -, hr, -⟩ | ⟨e₁, r₁, r₂, hp, hrest, -, hok⟩
    · cases hr
    · obtain ⟨rfl, rfl⟩ := hok rfl
      obtain ⟨hcatalog, hdisk⟩ := revertPage_same hp
      rcases List.mem_cons.mp hm with rfl | hm
      · rcases revertPage_cases hp with ⟨page, hread, -, -⟩ | ⟨f, -, -, hr⟩
        · exact ⟨page, hread⟩
        · cases hr
      · rw [← readPage_congr hcatalog hdisk pid]
        exact ih hrest hm

/-- Reading again spoils nothing. -/
theorem Reread.intact (h : Reread pids e e') (hi : e.cache.Intact) : e'.cache.Intact where
  usable := h.usable_eq.trans hi.usable
  frames {pid frame} hf := by
    by_cases hm : pid ∈ pids
    · rcases h.reread hm with ⟨found, hfound, -, hs⟩ | ⟨hnone, -⟩
      · cases hfound.symm.trans hf
        exact hs
      · rw [hnone] at hf
        cases hf
    · exact hi.frames (h.find?_eq hm ▸ hf)

/-! ## 4. Completions -/

/-- **What a completion has done to the pages of its transaction**: it has written the first of them
and then dropped the next, and nothing was done to the rest. -/
structure Resolves (tx : Tx) (written dropped rest : List PageId) (e e₁ e₂ : Engine) : Prop where
  changedBy_eq : e.cache.changedBy tx = written ++ (dropped ++ rest)
  writes : Written written e e₁
  rereads : Reread dropped e₁ e₂

/-- Reverting a transaction's pages, behind those that were written. -/
theorem Written.revertChanged {written rest : List PageId} (hp : e.cache.Proper)
    (hp₁ : e₁.cache.Proper) (hc : e.cache.changedBy tx = written ++ rest) (hw : Written written e e₁)
    (h : e₁.revertChanged tx = (e', r)) :
    ∃ dropped rest e₂, Resolves tx written dropped rest e e₁ e₂ ∧ Halted e₂ e'
      ∧ e'.disk = e₂.disk ∧ (Returned r → rest = [] ∧ e' = e₂) := by
  have hdisk := revertChanged_disk h
  -- what is left to revert is what was not written
  have hleft : e₁.cache.changedBy tx = rest := by
    have hn := hp.nodup_changedBy tx
    rw [hc, List.nodup_append] at hn
    rw [hw.changedBy_eq, hc, List.filter_append,
      List.filter_eq_nil_iff.mpr fun p hm => by simpa using hm, List.nil_append,
      List.filter_eq_self.mpr fun p hm => by simpa using fun hm' => hn.2.2 p hm' p hm rfl]
  rcases revertChanged_cases h with ⟨hh, hnot⟩ | ⟨e₂, hs, he⟩
  · exact ⟨[], rest, e₁, ⟨hc, hw, .nil e₁⟩, hh, hdisk, fun hr => absurd hr hnot⟩
  · obtain ⟨dropped, behind, hpids, hd, hret⟩ :=
      revertEach_reread hp₁ (hp₁.nodup_changedBy tx) hs
    refine ⟨dropped, behind, e₂, ⟨by rw [hc, ← hleft, hpids], hw, hd⟩, ?_,
      hdisk.trans hd.disk_eq.symm, fun hr => ⟨hret hr, ?_⟩⟩
    · rcases he with rfl | ⟨hh, -⟩
      · exact .refl _
      · exact hh
    · rcases he with rfl | ⟨-, hnot⟩
      · rfl
      · exact absurd hr hnot

/-- How the pages of a completion are resolved. -/
theorem conclude_resolves {commit : Bool} (hp : e.cache.Proper)
    (h : e.conclude tx commit = (e', r)) :
    ∃ written dropped rest e₁ e₂, Resolves tx written dropped rest e e₁ e₂ ∧ Halted e₂ e'
      ∧ (dropped ≠ [] → e'.disk = e₂.disk) ∧ (commit = false → written = [])
      ∧ (Returned r → rest = [] ∧ e' = e₂) := by
  unfold conclude at h
  split at h
  · rename_i hcommit
    unfold settle at h
    cases hf : e.flushChanged tx with
    | mk e₁ result =>
      have hs := flushChanged_settles hf
      rcases flushChanged_cases hf with ⟨hh, hnot⟩ | hflush
      · -- the flush has stopped before it wrote anything
        have hresult : e' = e₁ ∧ ¬ Returned r := by
          rw [hf] at h
          cases result with
          | ok a => exact absurd (returned_ok a) hnot
          | error f =>
            have hd : f.isUndefined = true := by
              simpa using mt returned_error_iff.mpr hnot
            simp only [hd, if_true] at h
            cases h
            exact ⟨rfl, not_returned_error hd⟩
        obtain ⟨rfl, hnot⟩ := hresult
        exact ⟨[], [], _, e, e, ⟨rfl, .nil e, .nil e⟩, hh, fun hne => absurd rfl hne, fun _ => rfl,
          fun hr => absurd hr hnot⟩
      · obtain ⟨written, rest, e₂, hpids, hw, hh, hret, hok⟩ := flushEach_written hflush
        rw [hf] at h
        cases result with
        | ok a =>
          cases h
          obtain rfl := hok rfl
          obtain rfl := hret (returned_ok _)
          exact ⟨written, [], [], _, _, ⟨hpids, hw, .nil _⟩, .refl _, fun hne => absurd rfl hne,
            fun hc => absurd (hcommit.symm.trans hc) Bool.noConfusion, fun _ => ⟨rfl, rfl⟩⟩
        | error f =>
          cases hd : f.isUndefined with
          | true =>
            simp only [hd, if_true] at h
            cases h
            exact ⟨written, [], rest, e₂, e₂, ⟨hpids, hw, .nil _⟩, hh, fun hne => absurd rfl hne,
              fun hc => absurd (hcommit.symm.trans hc) Bool.noConfusion,
              fun hr => absurd hr (not_returned_error hd)⟩
          | false =>
            simp only [hd, Bool.false_eq_true, if_false] at h
            obtain rfl := hret (returned_error_iff.mpr hd)
            cases hv : e₁.revertChanged tx with
            | mk e₃ result =>
              rw [hv] at h
              cases h
              obtain ⟨dropped, behind, e₄, hres, hh', hdisk, hret'⟩ :=
                hw.revertChanged hp (hs.proper hp) hpids hv
              exact ⟨written, dropped, behind, _, e₄, hres, hh', fun _ => hdisk,
                fun hc => absurd (hcommit.symm.trans hc) Bool.noConfusion,
                fun hr => hret' ((returned_followedBy_iff hd).mp hr)⟩
  · obtain ⟨dropped, behind, e₂, hres, hh, hdisk, hret⟩ :=
      Written.revertChanged hp hp rfl (.nil e) h
    exact ⟨[], dropped, behind, e, e₂, hres, hh, fun _ => hdisk, fun _ => rfl, hret⟩

/-- **How a completion resolves its pages.**  One that returns has resolved all of them, and has
then released its locks; one that stops in the middle has resolved some, and released none. -/
theorem complete_resolves {commit : Bool} (hp : e.cache.Proper)
    (h : e.complete tx commit = (e', r)) :
    ∃ written dropped rest e₁ e₂ e₃, Resolves tx written dropped rest e e₁ e₂ ∧ Halted e₂ e₃
      ∧ (dropped ≠ [] → e₃.disk = e₂.disk) ∧ (commit = false → written = [])
      ∧ (Returned r ∧ rest = [] ∧ e₃ = e₂ ∧ e' = { e₃ with locks := e₃.locks.releaseAll tx }
        ∨ ¬ Returned r ∧ e' = e₃) := by
  unfold complete at h
  cases hc : e.conclude tx commit with
  | mk e₃ result =>
    obtain ⟨written, dropped, rest, e₁, e₂, hres, hh, hdisk, hnone, hret⟩ :=
      conclude_resolves hp hc
    refine ⟨written, dropped, rest, e₁, e₂, e₃, hres, hh, hdisk, hnone, ?_⟩
    rw [hc] at h
    cases result with
    | ok a =>
      cases h
      obtain ⟨hrest, he⟩ := hret (returned_ok _)
      exact Or.inl ⟨returned_ok _, hrest, he, rfl⟩
    | error f =>
      cases h
      cases hd : f.isUndefined with
      | true => exact Or.inr ⟨not_returned_error hd, by simp⟩
      | false =>
        have hr : Returned (.error f : Except Failure Unit) := returned_error_iff.mpr hd
        obtain ⟨hrest, he⟩ := hret hr
        exact Or.inl ⟨hr, hrest, he, by simp⟩

end Engine

end RowStore
