import RowStore.Proofs.History

/-!
# Replaying a log

What a run should leave behind is read off its log: the changes whose transaction's next completion
is a commit, applied in order to the empty map (`kept`, `replay`).  While transactions are under
way, what is seen should be the changes whose transaction is not aborted afterwards (`live`).

One completion more changes the fate of its own transaction's pending changes and of nothing else.
At a record id where only that transaction has pending changes, a commit makes the kept map the
live one and an abort makes the live map the kept one; where it has none, neither map changes.
-/

namespace RowStore

/-! ## 1. Choosing and replaying -/

/-- The changes in a log whose fate is wanted. -/
def choose (wanted : Option Bool → Bool) : List Event → List Event
  | [] => []
  | .changed tx rid values :: rest =>
    if wanted (fate tx rest) then .changed tx rid values :: choose wanted rest
    else choose wanted rest
  | .completed .. :: rest => choose wanted rest

/-- **What is kept in the end**: the changes whose transaction's next completion is a commit. -/
def kept (log : List Event) : List Event := choose (· == some true) log

/-- **What is not taken back yet**: the changes whose transaction's next completion is no abort. -/
def live (log : List Event) : List Event := choose (· != some false) log

/-- A map from record ids to values after an event. -/
def Event.apply (rows : RecordId → Option (List Value)) :
    Event → RecordId → Option (List Value)
  | changed _ rid values => fun r => if r = rid then values else rows r
  | completed .. => rows

/-- **The map that events lead to**, one after the other, from the empty one. -/
def replay (events : List Event) : RecordId → Option (List Value) :=
  events.foldl Event.apply fun _ => none

/-! ## 2. One change more -/

theorem choose_append_changed (wanted : Option Bool → Bool) (tx : Tx) (rid : RecordId)
    (values : Option (List Value)) : ∀ log : List Event,
    choose wanted (log ++ [.changed tx rid values])
      = choose wanted log ++ if wanted none then [.changed tx rid values] else []
  | [] => by
    simp only [List.nil_append, choose, fate]
    rfl
  | .changed other r vs :: rest => by
    have ih := choose_append_changed wanted tx rid values rest
    have hfate : fate other (rest ++ [.changed tx rid values]) = fate other rest := by
      rw [fate_append]
      exact Option.or_none
    simp only [List.cons_append, choose, hfate, ih]
    split <;> rfl
  | .completed .. :: rest => choose_append_changed wanted tx rid values rest

/-- A change is not kept before its transaction commits. -/
theorem kept_append_changed (log : List Event) (tx : Tx) (rid : RecordId)
    (values : Option (List Value)) : kept (log ++ [.changed tx rid values]) = kept log := by
  rw [kept, choose_append_changed]
  exact List.append_nil _

/-- It is live at once. -/
theorem replay_live_append_changed (log : List Event) (tx : Tx) (rid : RecordId)
    (values : Option (List Value)) (r : RecordId) :
    replay (live (log ++ [.changed tx rid values])) r
      = if r = rid then values else replay (live log) r := by
  rw [live, choose_append_changed]
  simp only [replay, List.foldl_append]
  rfl

/-! ## 3. One completion more -/

/-- Two choices from a log, before and after a completion, lead to the same values at a record id
if they choose the same of the changes there.  The induction leaves open what the maps were
before. -/
theorem foldl_choose_congr {wanted wanted' : Option Bool → Bool} {tx : Tx} {commit : Bool}
    {rid : RecordId} : ∀ {log : List Event} {rows rows' : RecordId → Option (List Value)},
    (∀ before owner values after, log = before ++ .changed owner rid values :: after →
      wanted (fate owner (after ++ [.completed tx commit])) = wanted' (fate owner after)) →
    rows rid = rows' rid →
    (choose wanted (log ++ [.completed tx commit])).foldl Event.apply rows rid
      = (choose wanted' log).foldl Event.apply rows' rid
  | [], _, _, _, hrows => hrows
  | .completed other c :: rest, _, _, h, hrows => by
    simp only [List.cons_append, choose]
    exact foldl_choose_congr (fun before owner values after he =>
      h (.completed other c :: before) owner values after (by rw [he]; rfl)) hrows
  | .changed owner r values :: rest, rows, rows', h, hrows => by
    have hrest : ∀ before owner values after, rest = before ++ .changed owner rid values :: after →
        wanted (fate owner (after ++ [.completed tx commit])) = wanted' (fate owner after) :=
      fun before owner values after he => h (_ :: before) owner values after (by rw [he]; rfl)
    simp only [List.cons_append, choose]
    by_cases hr : r = rid
    · subst hr
      rw [h [] owner values rest rfl]
      split
      · exact foldl_choose_congr hrest (by simp [Event.apply])
      · exact foldl_choose_congr hrest hrows
    · -- a change at another place makes no difference here, chosen or not
      have happly : ∀ m : RecordId → Option (List Value),
          Event.apply m (.changed owner r values) rid = m rid := fun m =>
        if_neg (Ne.symm hr)
      split <;> split
      · exact foldl_choose_congr hrest (by rw [happly, happly, hrows])
      · exact foldl_choose_congr hrest (by rw [happly, hrows])
      · exact foldl_choose_congr hrest (by rw [happly, hrows])
      · exact foldl_choose_congr hrest hrows

theorem fate_append_completed (owner tx : Tx) (commit : Bool) (after : List Event) :
    fate owner (after ++ [.completed tx commit])
      = (fate owner after).or (if tx = owner then some commit else none) := by
  rw [fate_append]
  rfl

variable {log : List Event} {tx : Tx} {rid : RecordId}

/-- A completion does not matter at a place where its transaction has no pending change. -/
theorem replay_choose_of_not_pending (wanted : Option Bool → Bool) (commit : Bool)
    (h : ¬ Pending log tx rid) :
    replay (choose wanted (log ++ [.completed tx commit])) rid
      = replay (choose wanted log) rid := by
  refine foldl_choose_congr (fun before owner values after he => ?_) rfl
  rw [fate_append_completed]
  split
  · rename_i htx
    cases hf : fate owner after with
    | some c => rfl
    | none => exact absurd ⟨before, values, after, htx ▸ he, htx ▸ hf⟩ h
  · rw [Option.or_none]

/-- A commit takes nothing back. -/
theorem replay_live_commit (log : List Event) (tx : Tx) (rid : RecordId) :
    replay (live (log ++ [.completed tx true])) rid = replay (live log) rid := by
  refine foldl_choose_congr (fun before owner values after _ => ?_) rfl
  rw [fate_append_completed]
  cases fate owner after with
  | some c => rfl
  | none => split <;> rfl

/-- An abort keeps nothing. -/
theorem replay_kept_abort (log : List Event) (tx : Tx) (rid : RecordId) :
    replay (kept (log ++ [.completed tx false])) rid = replay (kept log) rid := by
  refine foldl_choose_congr (fun before owner values after _ => ?_) rfl
  rw [fate_append_completed]
  cases fate owner after with
  | some c => rfl
  | none => split <;> rfl

/-- **A commit keeps all that is live** at a place where nobody else has pending changes. -/
theorem replay_kept_commit (h : ∀ other, Pending log other rid → other = tx) :
    replay (kept (log ++ [.completed tx true])) rid = replay (live log) rid := by
  refine foldl_choose_congr (fun before owner values after he => ?_) rfl
  rw [fate_append_completed]
  cases hf : fate owner after with
  | some c => cases c <;> rfl
  | none =>
    rw [h owner ⟨before, values, after, he, hf⟩]
    simp

/-- **An abort leaves what was kept** at a place where nobody else has pending changes. -/
theorem replay_live_abort (h : ∀ other, Pending log other rid → other = tx) :
    replay (live (log ++ [.completed tx false])) rid = replay (kept log) rid := by
  refine foldl_choose_congr (fun before owner values after he => ?_) rfl
  rw [fate_append_completed]
  cases hf : fate owner after with
  | some c => cases c <;> rfl
  | none =>
    rw [h owner ⟨before, values, after, he, hf⟩]
    simp

end RowStore
