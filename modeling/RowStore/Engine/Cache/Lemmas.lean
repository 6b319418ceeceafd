import RowStore.Engine.Cache

/-!
# What each operation does to the page cache

Two views say all there is to say about the cached pages: the frame under an id (`find?`) and the
queue (`pids`).  Every lemma here gives one view after one operation in terms of the views before
it.  That the queue lists what is cached is not among the definitions: it is kept by every operation
(`Cache.Proper`), and only then is the search through the queue for a page to make room one through
all pages.
-/

namespace RowStore.Cache

/-! ## 1. Frames -/

theorem find?_insert (c : Cache) (pid other : PageId) (frame : Frame) :
    (c.insert pid frame).find? other = if other = pid then some frame else c.find? other := by
  unfold insert find?
  by_cases h : other = pid
  · subst h
    simp
  · simp only [Assoc.find?_set_of_ne frame h, if_neg h]

theorem find?_load (c : Cache) (pid other : PageId) (page : Page) :
    (c.load pid page).1.find? other
      = if other = pid then some (c.load pid page).2 else c.find? other :=
  find?_insert c pid other ⟨c.nextSerial, page, false⟩

theorem find?_remove (c : Cache) (pid other : PageId) :
    (c.remove pid).find? other = if other = pid then none else c.find? other := by
  unfold remove
  split
  · rename_i hn
    split
    · rename_i h
      rw [h, hn]
    · rfl
  · unfold find?
    by_cases h : other = pid
    · subst h
      simp
    · simp only [Assoc.find?_erase_of_ne h, if_neg h]

theorem find?_update (c : Cache) (pid other : PageId) (page : Page) :
    (c.update pid page).find? other
      = if other = pid then (c.find? pid).map (fun frame => { frame with page := page })
        else c.find? other := by
  unfold update
  split
  · rename_i hn
    split
    · rename_i h
      rw [h, hn]
      rfl
    · rfl
  · rename_i frame hf
    rw [find?_insert, hf]
    rfl

theorem find?_spoilPage (c : Cache) (pid other : PageId) :
    (c.spoilPage pid).find? other
      = if other = pid then (c.find? pid).map (fun frame => { frame with spoiled := true })
        else c.find? other := by
  unfold spoilPage
  split
  · rename_i hn
    split
    · rename_i h
      rw [h, hn]
      rfl
    · rfl
  · rename_i frame hf
    rw [find?_insert, hf]
    rfl

/-! ## 2. The queue -/

/-- A page that is cached keeps its place when it is put in again. -/
theorem pids_insert_of_cached {c : Cache} {pid : PageId} (frame : Frame)
    (h : (c.find? pid).isSome) : (c.insert pid frame).pids = c.pids :=
  if_pos h

/-- A page that is not cached goes to the back. -/
theorem pids_insert_of_missing {c : Cache} {pid : PageId} (frame : Frame)
    (h : c.find? pid = none) : (c.insert pid frame).pids = c.pids ++ [pid] :=
  if_neg (by simp [h])

/-- A page that is brought in goes to the back. -/
theorem pids_load_of_missing {c : Cache} {pid : PageId} (page : Page) (h : c.find? pid = none) :
    (c.load pid page).1.pids = c.pids ++ [pid] :=
  pids_insert_of_missing ⟨c.nextSerial, page, false⟩ h

/-- A new content moves no page. -/
@[simp] theorem pids_update (c : Cache) (pid : PageId) (page : Page) :
    (c.update pid page).pids = c.pids := by
  unfold update
  split
  · rfl
  · rename_i frame hf
    exact pids_insert_of_cached _ (by simp [hf])

/-- A spoiled page keeps its place. -/
@[simp] theorem pids_spoilPage (c : Cache) (pid : PageId) : (c.spoilPage pid).pids = c.pids := by
  unfold spoilPage
  split
  · rfl
  · rename_i frame hf
    exact pids_insert_of_cached _ (by simp [hf])

/-- Spoiling a page changes none of the ids under which pages are kept. -/
theorem keys_spoilPage (c : Cache) (pid : PageId) :
    Assoc.keys (c.spoilPage pid).frames = Assoc.keys c.frames := by
  unfold spoilPage
  split
  · rfl
  · rename_i frame hf
    exact Assoc.keys_set_of_mem _ ((Assoc.find?_isSome_iff pid c.frames).mp (by rw [← find?, hf]; rfl))

@[simp] theorem pids_clear (c : Cache) : c.clear.pids = [] := rfl

@[simp] theorem spoiled_remove (c : Cache) (pid : PageId) :
    (c.remove pid).spoiled = c.spoiled := by
  unfold remove
  split <;> rfl

/-! ## 3. Proper caches -/

/-- **The queue lists the pages as they are kept**, every page is cached once, and under its own
id. -/
structure Proper (c : Cache) : Prop where
  listed : c.pids = Assoc.keys c.frames
  nodup : c.pids.Nodup
  keyed : ∀ {pid : PageId} {frame : Frame}, c.find? pid = some frame → frame.page.pid = pid

namespace Proper

variable {c d : Cache} {pid : PageId} {frame : Frame} {page : Page} {tx : Tx}

/-- **The queue lists exactly what is cached.** -/
theorem mem_pids_iff (h : c.Proper) : pid ∈ c.pids ↔ (c.find? pid).isSome := by
  rw [h.listed, find?, Assoc.find?_isSome_iff]

theorem mem_pids (h : c.Proper) (hf : c.find? pid = some frame) : pid ∈ c.pids :=
  h.mem_pids_iff.mpr (by rw [hf]; rfl)

theorem exists_frame (h : c.Proper) (hm : pid ∈ c.pids) : ∃ frame, c.find? pid = some frame :=
  Option.isSome_iff_exists.mp (h.mem_pids_iff.mp hm)

/-- So it is as long as there are pages. -/
theorem size_eq_length_pids (h : c.Proper) : c.size = c.pids.length := by
  rw [h.listed]
  exact (@List.length_map _ _ c.frames Prod.fst).symm

/-- A page that leaves is taken out of the queue. -/
theorem pids_remove (h : c.Proper) (pid : PageId) :
    (c.remove pid).pids = c.pids.filter fun p => p ≠ pid := by
  unfold remove
  split
  · rename_i hn
    refine (List.filter_eq_self.mpr fun p hp => decide_eq_true (p := p ≠ pid) ?_).symm
    rintro rfl
    rw [h.mem_pids_iff, hn] at hp
    exact Bool.false_ne_true hp
  · rfl

theorem insert (h : c.Proper) (hf : frame.page.pid = pid) : (c.insert pid frame).Proper where
  listed := by
    cases hc : c.find? pid with
    | none =>
      have hnot : pid ∉ Assoc.keys c.frames := (Assoc.find?_eq_none_iff pid _).mp hc
      rw [pids_insert_of_missing frame hc, h.listed]
      exact (Assoc.keys_set_of_not_mem frame hnot).symm
    | some old =>
      have hm : pid ∈ Assoc.keys c.frames := h.listed ▸ h.mem_pids hc
      rw [pids_insert_of_cached frame (by rw [hc]; rfl), h.listed]
      exact (Assoc.keys_set_of_mem frame hm).symm
  nodup := by
    cases hc : c.find? pid with
    | none =>
      rw [pids_insert_of_missing frame hc, List.nodup_append]
      refine ⟨h.nodup, by simp, fun a ha b hb => ?_⟩
      rintro rfl
      rw [List.mem_singleton] at hb
      rw [h.mem_pids_iff, hb, hc] at ha
      exact Bool.false_ne_true ha
    | some old =>
      rw [pids_insert_of_cached frame (by rw [hc]; rfl)]
      exact h.nodup
  keyed {other found} ho := by
    rw [find?_insert] at ho
    split at ho
    · rename_i he
      cases ho
      rw [hf, he]
    · exact h.keyed ho

theorem load (h : c.Proper) (hp : page.pid = pid) : (c.load pid page).1.Proper :=
  have hi := @insert c pid ⟨c.nextSerial, page, false⟩ h hp
  ⟨hi.listed, hi.nodup, hi.keyed⟩

theorem remove (h : c.Proper) (pid : PageId) : (c.remove pid).Proper where
  listed := by
    rw [h.pids_remove, h.listed, ← Assoc.keys_erase]
    unfold Cache.remove
    split
    · rename_i hn
      rw [Assoc.erase_of_find?_eq_none hn]
    · rfl
  nodup := by
    rw [h.pids_remove]
    exact h.nodup.filter _
  keyed {other found} ho := by
    rw [find?_remove] at ho
    split at ho
    · cases ho
    · exact h.keyed ho

theorem update (h : c.Proper) (hp : page.pid = pid) : (c.update pid page).Proper := by
  unfold Cache.update
  split
  · exact h
  · exact h.insert hp

theorem spoilPage (h : c.Proper) (pid : PageId) : (c.spoilPage pid).Proper := by
  unfold Cache.spoilPage
  split
  · exact h
  · rename_i frame hf
    have hkeyed := h.keyed hf
    exact h.insert hkeyed

theorem spoil (h : c.Proper) : c.spoil.Proper := ⟨h.listed, h.nodup, h.keyed⟩

theorem empty : Proper {} := ⟨rfl, List.nodup_nil, fun h => by cases h⟩

theorem clear (c : Cache) : c.clear.Proper := ⟨rfl, List.nodup_nil, fun h => by cases h⟩

/-! ## 4. Looking through the queue -/

/-- A page is among those a transaction changed exactly if it is cached with its mark. -/
theorem mem_changedBy_iff (h : c.Proper) :
    pid ∈ c.changedBy tx ↔ ∃ frame, c.find? pid = some frame ∧ frame.page.dirty = some tx := by
  unfold changedBy
  rw [List.mem_filter, h.mem_pids_iff]
  cases c.find? pid with
  | none => simp
  | some frame => simp

theorem nodup_changedBy (h : c.Proper) (tx : Tx) : (c.changedBy tx).Nodup := h.nodup.filter _

/-- The search for a transaction's pages is through all pages, and stops only at a spoiled one. -/
theorem findChanged_eq_ok_iff (h : c.Proper) {pids : List PageId} :
    c.findChanged tx = .ok pids
      ↔ (∀ {pid : PageId} {frame : Frame}, c.find? pid = some frame → frame.spoiled = false)
        ∧ pids = c.changedBy tx := by
  unfold findChanged
  constructor
  · intro hf
    split at hf
    · cases hf
    · rename_i hany
      refine ⟨fun {pid frame} hc => ?_, (Except.ok.inj hf).symm⟩
      rw [Bool.not_eq_true, List.any_eq_false] at hany
      simpa [isSpoiled, hc] using hany pid (h.mem_pids hc)
  · rintro ⟨hframes, rfl⟩
    refine if_neg fun hany => ?_
    obtain ⟨pid, hm, hspoiled⟩ := List.any_eq_true.mp hany
    obtain ⟨frame, hf⟩ := h.exists_frame hm
    rw [isSpoiled, hf, Option.any_some, hframes hf] at hspoiled
    cases hspoiled

/-- **The victim is the oldest clean page**: all pages before it have changes. -/
theorem victim?_eq_some_iff (h : c.Proper) : c.victim? = some pid ↔ ∃ before after,
    c.pids = before ++ pid :: after
      ∧ (∃ frame, c.find? pid = some frame ∧ frame.page.dirty = none)
      ∧ ∀ p ∈ before, ∃ frame, c.find? p = some frame ∧ frame.page.dirty ≠ none := by
  unfold victim?
  rw [List.find?_eq_some_iff_append]
  constructor
  · rintro ⟨hidle, before, after, he, hb⟩
    obtain ⟨frame, hf⟩ := h.exists_frame (he ▸ List.mem_append_right _ List.mem_cons_self)
    refine ⟨before, after, he, ⟨frame, hf, by simpa [isIdle, hf] using hidle⟩, fun p hp => ?_⟩
    obtain ⟨old, hold⟩ := h.exists_frame (he ▸ List.mem_append_left _ hp)
    refine ⟨old, hold, ?_⟩
    simpa [isIdle, hold, Option.isSome_iff_ne_none] using hb p hp
  · rintro ⟨before, after, he, ⟨frame, hf, hclean⟩, hb⟩
    refine ⟨by simp [isIdle, hf, hclean], before, after, he, fun p hp => ?_⟩
    obtain ⟨old, hold, hd⟩ := hb p hp
    simpa [isIdle, hold, Option.isSome_iff_ne_none] using hd

/-- There is no victim exactly if every cached page has changes. -/
theorem victim?_eq_none_iff (h : c.Proper) :
    c.victim? = none
      ↔ ∀ pid frame, c.find? pid = some frame → frame.page.dirty ≠ none := by
  unfold victim?
  rw [List.find?_eq_none]
  constructor
  · intro hall pid frame hf
    simpa [isIdle, hf] using hall pid (h.mem_pids hf)
  · intro hall pid hm
    obtain ⟨frame, hf⟩ := h.exists_frame hm
    simpa [isIdle, hf] using hall pid frame hf

/-- What leaves to make room is a clean page. -/
theorem evict_eq_ok (h : c.Proper) (he : c.evict = .ok d) :
    ∃ pid frame, c.find? pid = some frame ∧ frame.page.dirty = none ∧ d = c.remove pid := by
  unfold evict at he
  split at he
  · cases he
  · split at he
    · rename_i pid hv
      cases he
      obtain ⟨-, -, -, ⟨frame, hf, hclean⟩, -⟩ := h.victim?_eq_some_iff.mp hv
      exact ⟨pid, frame, hf, hclean, rfl⟩
    · split at he <;> cases he

end Proper

/-- Where no page is spoiled, nothing blocks the search for a victim. -/
theorem isBlocked_eq_false {c : Cache}
    (h : ∀ {pid : PageId} {frame : Frame}, c.find? pid = some frame → frame.spoiled = false) :
    c.isBlocked = false := by
  have hnone : ∀ pid, c.isSpoiled pid = false := fun pid => by
    unfold isSpoiled
    cases hf : c.find? pid with
    | none => rfl
    | some frame => exact h hf
  unfold isBlocked
  cases c.pids.find? _ with
  | none => rfl
  | some pid => exact hnone pid

end RowStore.Cache
