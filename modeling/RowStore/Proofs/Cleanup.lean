import RowStore.Proofs.Sanity

/-!
# A completion always cleans up

A completion may fail: a commit at the first page that it cannot write, an abort at every page that
it cannot read again.  Whatever it answers, it leaves nothing behind (`Engine.CleansUp`).  Every page
its transaction changed was written, or read again, or has left the cache; the transaction holds no
lock; and a second completion has nothing to do.

The pages that a failed commit drops are those it did not write, since what was written bears no
mark any more (`Written.changedBy_eq`).  So the two loops of a failed commit take up every page
between them, and none twice.  Main statement: `completion_cleans_up`.
-/

namespace RowStore.Engine

variable {e e' e₁ e₂ : Engine} {tx : Tx} {pid : PageId} {pids : List PageId} {frame : Frame}
  {commit : Bool} {r : Except Failure Unit}

/-! ## 1. Completions that return look at every page -/

theorem intact_of_flushChanged (hp : e.cache.Proper) (h : e.flushChanged tx = (e', r))
    (hr : Returned r) : e.cache.Intact := by
  unfold flushChanged at h
  cases hc : e.inCache (fun e => (e, e.cache.findChanged tx)) with
  | mk e₁ found =>
    rw [hc] at h
    rcases inCache_cases hc with ⟨-, -, rfl⟩ | ⟨hs, pids, hu, rfl⟩ | ⟨-, f, e₂, hu, rfl, -⟩
    · cases h
      exact absurd hr (not_returned_error rfl)
    · exact ⟨hs, (hp.findChanged_eq_ok_iff.mp (congrArg Prod.snd hu)).1⟩
    · cases h
      rcases findChanged_cases (congrArg Prod.snd hu) with hf | hf <;> cases hf
      exact absurd hr (not_returned_error rfl)

theorem intact_of_revertChanged (hp : e.cache.Proper) (h : e.revertChanged tx = (e', r))
    (hr : Returned r) : e.cache.Intact := by
  unfold revertChanged at h
  rcases inCache_cases h with ⟨-, -, rfl⟩ | ⟨hs, u, hu, rfl⟩ | ⟨hs, f, e₁, hu, rfl, -⟩
  · exact absurd hr (not_returned_error rfl)
  · split at hu
    · cases hu
    · rename_i pids hfound
      exact ⟨hs, (hp.findChanged_eq_ok_iff.mp hfound).1⟩
  · split at hu
    · rename_i g hfound
      cases hu
      rcases findChanged_cases hfound with hg | hg <;> cases hg
      exact absurd hr (not_returned_error rfl)
    · rename_i pids hfound
      exact ⟨hs, (hp.findChanged_eq_ok_iff.mp hfound).1⟩

/-- **A completion that returns has met nothing spoiled.** -/
theorem intact_of_complete (hp : e.cache.Proper) (h : e.complete tx commit = (e', r))
    (hr : Returned r) : e.cache.Intact := by
  have hconclude : ∃ e₁, e.conclude tx commit = (e₁, r) := by
    unfold complete at h
    cases hc : e.conclude tx commit with
    | mk e₁ result =>
      rw [hc] at h
      cases result <;> (cases h; exact ⟨e₁, rfl⟩)
  obtain ⟨e₁, hc⟩ := hconclude
  unfold conclude at hc
  split at hc
  · unfold settle at hc
    cases hf : e.flushChanged tx with
    | mk e₂ result =>
      refine intact_of_flushChanged hp hf fun f hresult => ?_
      subst hresult
      rw [hf] at hc
      cases hd : f.isUndefined with
      | false => rfl
      | true =>
        simp only [hd, if_true] at hc
        cases hc
        exact absurd hr (not_returned_error hd)
  · exact intact_of_revertChanged hp hc hr

/-! ## 2. Completions that have nothing to do -/

theorem Unmarked.changedBy_eq (h : Unmarked e tx) (hp : e.cache.Proper) :
    e.cache.changedBy tx = [] := by
  apply List.eq_nil_iff_forall_not_mem.mpr
  intro pid hm
  obtain ⟨frame, hf, hd⟩ := hp.mem_changedBy_iff.mp hm
  exact h pid frame hf hd

/-- **Where no page is marked and no lock is held, a completion does nothing.** -/
theorem complete_of_unmarked (hp : e.cache.Proper) (hi : e.cache.Intact) (hu : Unmarked e tx)
    (hl : Assoc.find? tx e.locks.held = none) (commit : Bool) :
    e.complete tx commit = (e, .ok ()) := by
  have hfound : e.cache.findChanged tx = .ok [] :=
    hp.findChanged_eq_ok_iff.mpr ⟨hi.frames, (hu.changedBy_eq hp).symm⟩
  have hconclude : e.conclude tx commit = (e, .ok ()) := by
    unfold conclude settle flushChanged revertChanged inCache
    cases commit <;> simp only [hi.usable, hfound, Bool.false_eq_true, if_false, if_true] <;> rfl
  unfold complete
  rw [hconclude]
  simp only [LockTable.releaseAll_of_no_entry hl]

/-! ## 3. What is left -/

/-- **What a completion leaves**, whatever it answers. -/
structure CleansUp (tx : Tx) (commit : Bool) (e e' : Engine) : Prop where
  /-- No cached page is marked by the transaction. -/
  unmarked : Unmarked e' tx
  /-- The transaction holds no lock, and all others hold theirs. -/
  locks : LockTable.Frees tx e.locks e'.locks
  /-- Nor is there an entry for it in the map of the pages that are held. -/
  no_entry : Assoc.find? tx e'.locks.held = none
  /-- Every page the transaction changed was written, by a commit, and is clean; or it is cached as
  it is read from disk; or it cannot be read, and has left. -/
  outcome : ∀ {pid : PageId} {frame : Frame}, e.cache.find? pid = some frame →
    frame.page.dirty = some tx →
    (commit = true ∧ e.Writable pid frame.page ∧ e'.cache.find? pid = some (cleaned frame))
    ∨ (∃ found, e'.cache.find? pid = some found ∧ found.page.dirty = none
      ∧ e'.readPage pid = .ok found.page)
    ∨ e'.cache.find? pid = none ∧ ∃ f, e'.readPage pid = .error f
  /-- A page that could neither be written nor read again has left. -/
  gone : ∀ {pid : PageId} {frame : Frame} {f : Failure}, e.cache.find? pid = some frame →
    frame.page.dirty = some tx → (commit = true → ¬ e.Writable pid frame.page) →
    e'.readPage pid = .error f → e'.cache.find? pid = none
  /-- Every other page is cached as before, or not cached as before. -/
  others : ∀ {pid : PageId},
    (∀ frame, e.cache.find? pid = some frame → frame.page.dirty ≠ some tx) →
    e'.cache.find? pid = e.cache.find? pid
  /-- The other pages are in the order they were in. -/
  order_eq : (e'.cache.pids.filter fun pid => pid ∉ e.cache.changedBy tx)
    = e.cache.pids.filter fun pid => pid ∉ e.cache.changedBy tx
  /-- A further completion goes through and changes nothing. -/
  again : ∀ commit' : Bool, e'.complete tx commit' = (e', .ok ())

/-- Where all pages of a transaction are resolved, each has come to one of three ends. -/
theorem Resolves.outcome {written dropped : List PageId} (hp : e.cache.Proper)
    (h : Resolves tx written dropped [] e e₁ e₂) (hf : e.cache.find? pid = some frame)
    (hd : frame.page.dirty = some tx) :
    (pid ∈ written ∧ e.Writable pid frame.page ∧ e₂.cache.find? pid = some (cleaned frame))
    ∨ (∃ found, e₂.cache.find? pid = some found ∧ found.page.dirty = none
      ∧ e₂.readPage pid = .ok found.page)
    ∨ e₂.cache.find? pid = none ∧ ∃ f, e₂.readPage pid = .error f := by
  have hm : pid ∈ e.cache.changedBy tx := hp.mem_changedBy_iff.mpr ⟨frame, hf, hd⟩
  rw [h.changedBy_eq, List.append_nil] at hm
  by_cases hdropped : pid ∈ dropped
  · refine Or.inr ?_
    rw [readPage_congr h.rereads.catalog_eq h.rereads.disk_eq pid]
    rcases h.rereads.reread hdropped with ⟨found, hfound, hread, -⟩ | hgone
    · exact Or.inl ⟨found, hfound, (readPage_eq_ok hread).2, hread⟩
    · exact Or.inr hgone
  · have hwritten := (List.mem_append.mp hm).resolve_right hdropped
    refine Or.inl ⟨hwritten, h.writes.writable hwritten hf, ?_⟩
    rw [h.rereads.find?_eq hdropped, h.writes.find?_eq, if_pos hwritten, hf, Option.map_some]

/-- The other pages stay where and what they are. -/
theorem Resolves.others {written dropped rest : List PageId}
    (h : Resolves tx written dropped rest e e₁ e₂) :
    (∀ {pid : PageId}, pid ∉ e.cache.changedBy tx → e₂.cache.find? pid = e.cache.find? pid)
      ∧ (e₂.cache.pids.filter fun pid => pid ∉ e.cache.changedBy tx)
        = e.cache.pids.filter fun pid => pid ∉ e.cache.changedBy tx := by
  have hmem : ∀ {pid : PageId}, pid ∈ e.cache.changedBy tx
      ↔ pid ∈ written ∨ pid ∈ dropped ∨ pid ∈ rest := by
    intro pid
    rw [h.changedBy_eq, List.mem_append, List.mem_append]
  constructor
  · intro pid hnot
    rw [hmem, not_or, not_or] at hnot
    rw [h.rereads.find?_eq hnot.2.1, h.writes.find?_eq, if_neg hnot.1]
  · have hback : (dropped.filter fun pid => (e₂.cache.find? pid).isSome).filter
        (fun pid => pid ∉ e.cache.changedBy tx) = [] := by
      refine List.filter_eq_nil_iff.mpr fun pid hm => ?_
      have hdropped := (List.mem_filter.mp hm).1
      simpa using hmem.mpr (Or.inr (Or.inl hdropped))
    rw [h.rereads.pids_eq, h.writes.pids_eq, List.filter_append, hback, List.append_nil,
      List.filter_filter]
    refine List.filter_congr fun pid _ => ?_
    simp only [hmem, not_or]
    by_cases hdropped : pid ∈ dropped <;> simp [hdropped]

/-- **A completion that returns cleans up**, in any state. -/
theorem Orderly.cleansUp (ho : Orderly e) (h : e.complete tx commit = (e', r)) (hr : Returned r) :
    CleansUp tx commit e e' := by
  have ho' : Orderly e' := (complete_moves ho.proper h).orderly ho
  have hi := intact_of_complete ho.proper h hr
  have hunmarked : Unmarked e' tx := by
    obtain ⟨e₁, -, ⟨-, hu, rfl⟩ | ⟨hn, -⟩⟩ := complete_cases ho.proper h
    · exact hu
    · exact absurd hr hn
  obtain ⟨written, dropped, rest, e₁, _, e₂, hres, -, -, hnone, ⟨-, rfl, rfl, rfl⟩ | ⟨hn, -⟩⟩ :=
    complete_resolves ho.proper h
  swap
  · exact absurd hr hn
  have hi' : e₂.cache.Intact := hres.rereads.intact (hres.writes.intact hi)
  have hlocks : e₂.locks = e.locks := hres.rereads.locks_eq.trans hres.writes.locks_eq
  have hout := fun {pid : PageId} {frame : Frame} => @Resolves.outcome e e₁ e₂ tx pid frame
    written dropped ho.proper hres
  have hcommit : ∀ {pid : PageId}, pid ∈ written → commit = true := fun {pid} hm => by
    cases commit with
    | true => rfl
    | false => exact absurd (hnone rfl ▸ hm) List.not_mem_nil
  refine ⟨hunmarked, ?locks, LockTable.find?_held_releaseAll _ tx, ?outcome, ?gone, ?others,
    hres.others.2, ?again⟩
  case locks =>
    simp only [hlocks]
    exact ho.consistent.frees tx
  case outcome =>
    intro pid frame hf hd
    exact (hout hf hd).imp (fun hw => ⟨hcommit hw.1, hw.2⟩) id
  case gone =>
    intro pid frame f hf hd hnot hread
    rcases hout hf hd with ⟨hm, hw, -⟩ | ⟨found, -, -, hread'⟩ | ⟨hgone, -⟩
    · exact absurd hw (hnot (hcommit hm))
    · exact absurd (hread.symm.trans hread') (fun hne => by cases hne)
    · exact hgone
  case others =>
    intro pid hother
    refine hres.others.1 fun hm => ?_
    obtain ⟨frame, hf, hd⟩ := ho.proper.mem_changedBy_iff.mp hm
    exact hother frame hf hd
  case again =>
    exact complete_of_unmarked ho'.proper hi' hunmarked (LockTable.find?_held_releaseAll _ tx)

end RowStore.Engine

namespace RowStore

open Engine

/-- **A completion always cleans up**, also when it fails.  In every state that a new store reaches
by any calls, over any files, and for every transaction: once a completion returns, with an answer or
a failure, no page bears the transaction's mark and no lock is its own; every page it had changed is
clean or has left the cache, and has left if it could neither be written nor read again; all other
pages and locks are what they were; and completing the transaction again does nothing.

It does return where the files are sane and all tables have pages of the store's size, be they
registered at the moment or not. -/
theorem completion_cleans_up {config : Config} {disk : Disk} {e : Engine} {log : List Event}
    (h : Run (fun _ _ => True) { config := config, disk := disk } e log) (tx : Tx) (commit : Bool) :
    (∀ e' r, e.complete tx commit = (e', r) → Returned r → CleansUp tx commit e e')
      ∧ ∀ log', disk.Sane →
        Run (fun e c => c.OneSize e) { config := config, disk := disk } e log' →
        Returned (e.complete tx commit).2 := by
  have ho := h.orderly (orderly_new config disk)
  constructor
  · intro e' r hc hr
    exact ho.cleansUp hc hr
  · intro log' hdisk hrun
    have hu := hrun.uniform (orderly_new config disk) (uniform_new config disk)
    exact (hrun.sane hdisk).complete_returned ho hu rfl

/-- A store whose table was taken out of the catalog after a transaction had put a row into it. -/
def Sample.orphaned : Engine := (inserted.call (.unregister table.id)).1

/-- The table is gone when the transaction commits, so the page can neither be written nor read
again.  The commit fails, the page is not cached any more, and an abort has nothing left to do. -/
theorem completion_cleans_up_orphaned : ∃ log frame f e',
    Run (fun _ _ => True) Sample.start Sample.orphaned log
      ∧ Sample.orphaned.cache.find? Sample.first.page = some frame
      ∧ frame.page.dirty = some ⟨1⟩
      ∧ Sample.orphaned.complete ⟨1⟩ true = (e', .error f)
      ∧ e'.cache.find? Sample.first.page = none
      ∧ e'.locks.pagesOf ⟨1⟩ = ∅
      ∧ e'.complete ⟨1⟩ false = (e', .ok ()) := by
  have hinserted : Run (fun _ _ => True) Sample.start Sample.inserted _ :=
    (Sample.run_opened.mono fun _ => trivial).call
      (.insert ⟨1⟩ Sample.table.id ⟨[.int 5], none⟩) trivial (by rw [Sample.inserted])
  have hrun : Run (fun _ _ => True) Sample.start Sample.orphaned _ :=
    hinserted.call (.unregister Sample.table.id) trivial rfl
  have hdirty : ((Sample.orphaned.cache.find? Sample.first.page).bind fun frame =>
      frame.page.dirty) = some ⟨1⟩ := by decide +kernel
  have htable : Sample.orphaned.catalog.table? Sample.first.page.table = none := by
    decide +kernel
  have hfails : (Sample.orphaned.complete ⟨1⟩ true).2 = .error (.unknownTable Sample.table.id) := by
    rfl
  obtain ⟨frame, hf, hd⟩ := Option.bind_eq_some_iff.mp hdirty
  rcases hc : Sample.orphaned.complete ⟨1⟩ true with ⟨e', r⟩
  rw [hc] at hfails
  obtain rfl : r = .error (.unknownTable Sample.table.id) := hfails
  have hclean := (completion_cleans_up hrun ⟨1⟩ true).1 e' _ hc (returned_error_iff.mpr rfl)
  have hread : e'.readPage Sample.first.page = .error (.unknownTable Sample.table.id) := by
    have he : (Sample.orphaned.complete ⟨1⟩ true).1 = e' := congrArg Prod.fst hc
    rw [← he]
    rfl
  have hgone : e'.cache.find? Sample.first.page = none := by
    refine hclean.gone hf hd (fun _ => ?_) hread
    rintro ⟨table, disk, ht, -⟩
    rw [htable] at ht
    cases ht
  exact ⟨_, frame, _, e', hrun, hf, hd, rfl, hgone, (hclean.locks.pagesOf_eq ⟨1⟩).trans (if_pos rfl),
    hclean.again false⟩

end RowStore
