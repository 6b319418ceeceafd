import RowStore.Proofs.Query.Following
import RowStore.Proofs.Query.Meaning

/-!
# What each operator performs

Every operator performs a script that is put together from those of its inputs: a list hands out its
rows; a scan asks for the pages of its table, one after the other (`performs_scan`); a filter does
what its input does and leaves out rows (`performs_filter`); a join goes through its right input for
every row of its left one (`pairing`, `performs_join`); an aggregate does everything when it is
opened, and hands out the results then (`performs_aggregate`).

The places of an operator at which something is left to do are said for each of them, for a join
also those in the middle of its right input (`JoinStands`).
-/

namespace RowStore

/-! ## 1. Leaves -/

/-- What is left of a list. -/
def RowsStand (place : Option (List Row)) (events : List PlanEvent) : Prop :=
  ∃ left, place = some left ∧ events = left.map .row

theorem performs_rows (list : List Row) :
    (Source.ofRows list).Performs ⟨[], list.map .row⟩ [] RowsStand where
  run := by
    rintro β k place events rest e e' acc acc' signal ⟨left, rfl, rfl⟩ h
    rw [← List.append_nil (left.map PlanEvent.row)] at h
    rcases h.feed with ⟨e₁, acc₁, hf, hend⟩ | ⟨-, left', hf, rfl⟩
    · cases hend
      exact ⟨some [], by simp [Source.ofRows, hf], fun _ => ⟨[], rfl, rfl⟩⟩
    · exact ⟨some left', by simp [Source.ofRows, hf], fun _ => ⟨left', rfl, by simp⟩⟩
  start := by
    intro place e e' r h
    obtain ⟨rfl, rfl⟩ := reads_nil h
    exact ⟨some list, rfl, fun _ => ⟨list, rfl, rfl⟩⟩
  rewind := by
    intro place events e e' r _ h
    obtain ⟨rfl, rfl⟩ := reads_nil h
    exact ⟨some list, rfl, fun _ => ⟨list, rfl, rfl⟩⟩
  script_within := by simp [Script.requests]
  left_within := by
    rintro place events ⟨left, -, rfl⟩
    simp

/-- What is done on `n` pages from number `i` on. -/
def pagesFrom (v : View) (tx : Tx) (table : TableFile) : Nat → Nat → List PlanEvent
  | 0, _ => []
  | n + 1, i => .request (.page tx table i (v.rows table i)) ::
      ((v.rows table i).map .row ++ pagesFrom v tx table n (i + 1))

/-- **What is left of a scan** at a place. -/
inductive ScanStands (v : View) (tx : Tx) (table : TableFile) : ScanPlace → List PlanEvent → Prop
  /-- Everything, before the pages were counted. -/
  | first : ScanStands v tx table {} (.request (.count table (v.count table)) ::
      pagesFrom v tx table (v.count table) 0)
  /-- The rows of the page before, and the pages from the next one on. -/
  | within {place : ScanPlace} : place.done = false → place.pageCount = some (v.count table) →
      ScanStands v tx table place (place.pending.map .row
        ++ pagesFrom v tx table (v.count table - place.nextPage) place.nextPage)
  | ended {place : ScanPlace} : place.done = true → ScanStands v tx table place []

section Scan

variable {v : View} {tx : Tx} {table : TableFile} {β : Type} {k : Consumer β}
  {rest : List PlanEvent} {e' : Engine} {acc' : β} {signal : Signal}

/-- The requests of a scan: the number of pages, and every page. -/
def scanRequests (v : View) (tx : Tx) (table : TableFile) : List Request :=
  .count table (v.count table)
    :: (List.range (v.count table)).map fun i => .page tx table i (v.rows table i)

theorem requests_pagesFrom : ∀ (n i : Nat), i + n ≤ v.count table →
    ∀ request ∈ PlanEvent.requests (pagesFrom v tx table n i), request ∈ scanRequests v tx table
  | 0, i, _ => by simp [pagesFrom, PlanEvent.requests]
  | n + 1, i, h => by
    intro request hm
    simp only [pagesFrom, PlanEvent.requests, PlanEvent.requests_append, PlanEvent.requests_map_row,
      List.nil_append, List.mem_cons] at hm
    rcases hm with rfl | hm
    · exact List.mem_cons_of_mem _ (List.mem_map.mpr ⟨i, List.mem_range.mpr (by omega), rfl⟩)
    · exact requests_pagesFrom n (i + 1) (by omega) request hm

/-- **Running over pages follows them.** -/
theorem runPages_follows : ∀ (n : Nat) {place : ScanPlace} {e : Engine} {acc : β},
    place.done = false → place.pageCount = some (v.count table) →
    n = v.count table - place.nextPage →
    k.Follows (pagesFrom v tx table n place.nextPage) e acc rest e' acc' signal →
    ∃ place', ScanPlace.runPages tx table k n place e acc = ⟨place', e', acc', signal.verdict⟩
      ∧ (¬signal.Broke → ScanStands v tx table place' rest)
  | 0, place, e, acc, _, _, _, h => by
    cases h
    exact ⟨{ place with done := true }, rfl, fun _ => .ended rfl⟩
  | n + 1, place, e, acc, hd, hc, hn, h => by
    cases h with
    | @failed _ _ _ _ _ f hr =>
      cases hr with
      | @unfetched _ _ _ _ _ _ r _ hfetch hbind =>
        cases r with
        | error g =>
          cases hbind
          exact ⟨{ place with done := !f.isUndefined }, by simp [ScanPlace.runPages, hfetch]; rfl,
            fun hb => absurd ⟨f, rfl⟩ hb⟩
        | ok frame =>
          have huse : frame.use = .error f := hbind
          exact ⟨place, by simp [ScanPlace.runPages, hfetch, huse]; rfl,
            fun hb => absurd ⟨f, rfl⟩ hb⟩
    | request hr h =>
      cases hr with
      | @fetched _ _ _ _ _ _ frame page hfetch huse hrows =>
        rw [ScanPlace.runPages, hfetch]
        simp only [huse, hrows]
        rcases h.feed with ⟨e₂, acc₂, hfeed, hmore⟩ | ⟨hs, left, hfeed, rfl⟩
        · rw [hfeed]
          exact runPages_follows n hd hc (by simp; omega) hmore
        · rw [hfeed]
          refine ⟨{ place with nextPage := place.nextPage + 1, pending := left }, ?_, fun _ => ?_⟩
          · cases signal with
            | more => exact absurd rfl hs
            | stop => rfl
            | fail f => rfl
          · have hleft : n = v.count table - (place.nextPage + 1) := by omega
            rw [hleft]
            exact .within hd hc

/-- **Running a scan follows what is left of it.** -/
theorem run_follows {place : ScanPlace} {events : List PlanEvent} {e : Engine} {acc : β}
    (hstands : ScanStands v tx table place events)
    (h : k.Follows events e acc rest e' acc' signal) :
    ∃ place', ScanPlace.run tx table place e acc k = ⟨place', e', acc', signal.verdict⟩
      ∧ (¬signal.Broke → ScanStands v tx table place' rest) := by
  unfold ScanPlace.run
  cases hstands with
  | first =>
    -- the pages have to be counted
    rw [if_neg (by simp)]
    simp only [Consumer.feed, ScanPlace.countPages]
    cases h with
    | request hr h =>
      cases hr with
      | counted hcount =>
        rw [hcount]
        exact runPages_follows _ rfl rfl rfl h
    | @failed _ _ _ _ _ f hr =>
      cases hr with
      | uncounted hcount =>
        rw [hcount]
        exact ⟨_, rfl, fun hb => absurd ⟨f, rfl⟩ hb⟩
  | within hd hc =>
    rw [if_neg (by simp [hd])]
    rcases h.feed with ⟨e₁, acc₁, hfeed, hmore⟩ | ⟨hs, left, hfeed, rfl⟩
    · rw [hfeed]
      simp only [ScanPlace.countPages, hc]
      exact runPages_follows _ hd rfl rfl hmore
    · rw [hfeed]
      refine ⟨{ place with pending := left }, ?_, fun _ => .within hd hc⟩
      cases signal with
      | more => exact absurd rfl hs
      | stop => rfl
      | fail f => rfl
  | ended hd =>
    cases h
    rw [if_pos hd]
    exact ⟨place, rfl, fun _ => .ended hd⟩

theorem requests_first : ∀ request ∈ PlanEvent.requests (.request (.count table (v.count table)) ::
    pagesFrom v tx table (v.count table) 0), request ∈ scanRequests v tx table := by
  intro request hm
  rcases List.mem_cons.mp hm with rfl | hm
  · exact List.mem_cons_self
  · exact requests_pagesFrom _ 0 (by omega) request hm

theorem ScanStands.requests {place : ScanPlace} {events : List PlanEvent}
    (h : ScanStands v tx table place events) :
    ∀ request ∈ PlanEvent.requests events, request ∈ scanRequests v tx table := by
  intro request hm
  cases h with
  | first => exact requests_first request hm
  | within =>
    simp only [PlanEvent.requests_append, PlanEvent.requests_map_row, List.nil_append] at hm
    by_cases hle : place.nextPage ≤ v.count table
    · exact requests_pagesFrom _ _ (by omega) request hm
    · have hzero : v.count table - place.nextPage = 0 := by omega
      rw [hzero] at hm
      cases hm
  | ended => cases hm

/-- **A scan performs its pages**, one after the other. -/
theorem performs_scan (v : View) (tx : Tx) (table : TableFile) :
    (Source.scan tx table).Performs
      ⟨[], .request (.count table (v.count table)) :: pagesFrom v tx table (v.count table) 0⟩
      (scanRequests v tx table)
      (fun place events => ∃ scan, place = some scan ∧ ScanStands v tx table scan events) where
  run := by
    rintro β k place events rest e e' acc acc' signal ⟨scan, rfl, hscan⟩ h
    obtain ⟨place', hrun, hstands⟩ := run_follows hscan h
    exact ⟨some place', by simp only [Source.scan, hrun], fun hb => ⟨place', rfl, hstands hb⟩⟩
  start := by
    intro place e e' r h
    obtain ⟨rfl, rfl⟩ := reads_nil h
    exact ⟨some {}, rfl, fun _ => ⟨{}, rfl, .first⟩⟩
  rewind := by
    rintro place events e e' r ⟨scan, rfl, -⟩ h
    obtain ⟨rfl, rfl⟩ := reads_nil h
    exact ⟨some {}, rfl, fun _ => ⟨{}, rfl, .first⟩⟩
  script_within := requests_first
  left_within := by
    rintro place events ⟨scan, -, hscan⟩
    exact hscan.requests

end Scan

/-! ## 2. Operators with inputs -/

section Inputs

variable {σ ρ : Type} {input left : Source σ} {right : Source ρ} {script ls rs : Script}
  {reqs reqsLeft reqsRight : List Request} {stands standsLeft : σ → List PlanEvent → Prop}
  {standsRight : ρ → List PlanEvent → Prop}

/-- The rows that satisfy a condition. -/
def chosen (condition : Condition) (row : Row) : Option Row :=
  if condition.holds row then some row else none

/-- **A filter performs what its input performs**, and hands on the chosen rows. -/
theorem performs_filter (condition : Condition) (h : input.Performs script reqs stands) :
    (Source.filter condition input).Performs
      ⟨script.opening, PlanEvent.sift (chosen condition) script.body⟩ reqs
      (fun place events => place.opened = true ∧ ∃ inner, stands place.input inner
        ∧ events = PlanEvent.sift (chosen condition) inner) where
  run := by
    rintro β k ⟨place, opened⟩ events rest e e' acc acc' signal ⟨rfl, inner, hstands, rfl⟩ hf
    obtain ⟨left, hinner, rfl⟩ := hf.sift
    have hk : k.sift (chosen condition) = fun acc row e =>
        if condition.holds row then k acc row e else (e, acc, .more) :=
      Consumer.sift_ite condition.holds (fun row => row) k
    obtain ⟨place', hrun, hleft⟩ := h.run hstands hinner
    refine ⟨⟨place', true⟩, ?_, fun hb => ⟨rfl, left, hleft hb, rfl⟩⟩
    simp [Source.filter, ← hk, hrun]
  start := by
    intro place e e' r hr
    obtain ⟨place', hstart, hbody⟩ := h.start place.input hr
    cases r with
    | error f => exact ⟨⟨place', place.opened⟩, by simp [Source.filter, hstart], nofun⟩
    | ok u =>
      exact ⟨⟨place', true⟩, by simp [Source.filter, hstart],
        fun _ => ⟨rfl, script.body, hbody rfl, rfl⟩⟩
  rewind := by
    rintro ⟨place, opened⟩ events e e' r ⟨rfl, inner, hstands, -⟩ hr
    obtain ⟨place', hrewind, hbody⟩ := h.rewind hstands hr
    exact ⟨⟨place', true⟩, by simp [Source.filter, hrewind],
      fun ho => ⟨rfl, script.body, hbody ho, rfl⟩⟩
  script_within := by
    unfold Script.requests
    rw [PlanEvent.requests_sift]
    exact h.script_within
  left_within := by
    rintro place events ⟨-, inner, hstands, rfl⟩ request hm
    rw [PlanEvent.requests_sift] at hm
    exact h.left_within hstands request hm

/-- The pairs of one left row with the right rows that match it. -/
def matching (condition : JoinCondition) (outer inner : Row) : Option Row :=
  if condition.holds outer inner then some (outer.joined inner) else none

/-- **What a join does with what its left input does**: for every left row it goes through its
right input and starts it over. -/
def pairing (condition : JoinCondition) (right : Script) : List PlanEvent → List PlanEvent
  | [] => []
  | .request r :: events => .request r :: pairing condition right events
  | .row outer :: events => PlanEvent.sift (matching condition outer) right.body
      ++ (right.opening.map .request ++ pairing condition right events)

/-- What is left of a join of which the left input has `outer` left to do, at a place of the right
input and with the left row that is being matched. -/
def JoinStands (condition : JoinCondition) (rs : Script)
    (standsRight : ρ → List PlanEvent → Prop) (right : ρ) (current : Option Row)
    (outer events : List PlanEvent) : Prop :=
  match current with
  | none => standsRight right rs.body ∧ events = pairing condition rs outer
  | some row => ∃ inner, standsRight right inner
      ∧ events = PlanEvent.sift (matching condition row) inner
        ++ (rs.opening.map .request ++ pairing condition rs outer)

section Join

variable {condition : JoinCondition} {β : Type} {k : Consumer β} {events more rest : List PlanEvent}
  {e e' : Engine} {acc acc' : β} {signal : Signal}

/-- **Matching one left row** follows what is left of the right input and the requests that start
it over. -/
theorem matchRow_follows (hr : right.Performs rs reqsRight standsRight) {outer : Row} {place : ρ}
    (hstands : standsRight place events)
    (h : k.Follows (PlanEvent.sift (matching condition outer) events
      ++ (rs.opening.map .request ++ more)) e acc rest e' acc' signal) :
    (∃ e₁ acc₁ place', right.matchRow condition k outer place acc e
          = (e₁, ⟨acc₁, place', none⟩, .more)
        ∧ standsRight place' rs.body ∧ k.Follows more e₁ acc₁ rest e' acc' signal)
      ∨ (signal = .stop ∧ ∃ place' left, right.matchRow condition k outer place acc e
          = (e', ⟨acc', place', some outer⟩, signal) ∧ standsRight place' left
        ∧ rest = PlanEvent.sift (matching condition outer) left
          ++ (rs.opening.map .request ++ more))
      ∨ signal.Broke ∧ ∃ state, right.matchRow condition k outer place acc e = (e', state, signal)
        ∧ state.collected = acc' := by
  have hk : k.sift (matching condition outer) = fun acc inner e =>
      if condition.holds outer inner then k acc (outer.joined inner) e else (e, acc, .more) :=
    Consumer.sift_ite (condition.holds outer) outer.joined k
  unfold Source.matchRow
  rw [← hk]
  rcases h.append with ⟨left, hfirst, hs, rfl⟩ | ⟨e₁, acc₁, hfirst, hthen⟩
  · -- the consumer has enough before the right input ends, or something fails
    obtain ⟨left', hinner, rfl⟩ := hfirst.sift
    obtain ⟨place', hrun, hleft⟩ := hr.run hstands hinner
    rw [hrun]
    cases signal with
    | more => exact absurd rfl hs
    | stop =>
      exact Or.inr (Or.inl ⟨rfl, place', left', rfl, hleft Signal.not_broke_stop, rfl⟩)
    | fail f => exact Or.inr (Or.inr ⟨⟨f, rfl⟩, _, rfl, rfl⟩)
  · -- the right input ends and is started over
    obtain ⟨left', hinner, -⟩ := hfirst.sift
    obtain ⟨place', hrun, hleft⟩ := hr.run hstands hinner
    rw [hrun]
    have hended := hleft Signal.not_broke_more
    simp only [Signal.verdict]
    rcases hthen.reads with ⟨f, rfl, rfl, hreads⟩ | ⟨e₂, hreads, hmore⟩
    · obtain ⟨again, hrewind, -⟩ := hr.rewind hended hreads
      rw [hrewind]
      exact Or.inr (Or.inr ⟨⟨f, rfl⟩, _, rfl, rfl⟩)
    · obtain ⟨again, hrewind, hbody⟩ := hr.rewind hended hreads
      rw [hrewind]
      exact Or.inl ⟨e₂, acc₁, again, rfl, hbody rfl, hmore⟩

/-- **Matching row after row** follows the pairing of what the left input does. -/
theorem pairing_follows (hr : right.Performs rs reqsRight standsRight) {place : ρ}
    (hstands : standsRight place rs.body)
    (h : k.Follows (pairing condition rs events) e acc rest e' acc' signal) :
    ∃ left state, Consumer.Follows
        (fun state outer e => right.matchRow condition k outer state.right state.collected e)
        events e ⟨acc, place, none⟩ left e' state signal
      ∧ state.collected = acc'
      ∧ (¬signal.Broke →
          JoinStands condition rs standsRight state.right state.current left rest) := by
  induction events generalizing e acc place with
  | nil =>
    cases h
    exact ⟨[], _, .ended, rfl, fun _ => ⟨hstands, rfl⟩⟩
  | cons event events ih =>
    cases event with
    | request r =>
      cases h with
      | request hreq h =>
        obtain ⟨left, state, hf, hc, hleft⟩ := ih hstands h
        exact ⟨left, state, .request hreq hf, hc, hleft⟩
      | @failed _ _ _ _ _ f hreq =>
        exact ⟨events, _, .failed hreq, rfl, fun hb => absurd ⟨f, rfl⟩ hb⟩
    | row outer =>
      rcases matchRow_follows hr hstands h with ⟨e₁, acc₁, place', hm, hbody, hmore⟩
        | ⟨rfl, place', left, hm, hleft, rfl⟩ | ⟨hb, state, hm, hc⟩
      · obtain ⟨left, state, hf, hc, hleft⟩ := ih hbody hmore
        exact ⟨left, state, .more hm hf, hc, hleft⟩
      · exact ⟨events, _, .stopped hm nofun, rfl, fun _ => ⟨left, hleft, rfl⟩⟩
      · refine ⟨events, state, .stopped hm ?_, hc, fun h => absurd hb h⟩
        rintro rfl
        exact Signal.not_broke_more hb

theorem matchRows_follows (hl : left.Performs ls reqsLeft standsLeft)
    (hr : right.Performs rs reqsRight standsRight) {lplace : σ} {rplace : ρ}
    {outer : List PlanEvent} (houter : standsLeft lplace outer) (hbody : standsRight rplace rs.body)
    (h : k.Follows (pairing condition rs outer) e acc rest e' acc' signal) :
    ∃ place', left.matchRows condition right k lplace ⟨acc, rplace, none⟩ e
        = ⟨place', e', acc', signal.verdict⟩ ∧ (¬signal.Broke → place'.opened = true
          ∧ ∃ outer', standsLeft place'.left outer'
            ∧ JoinStands condition rs standsRight place'.right place'.current outer' rest) := by
  obtain ⟨outer', state, hf, rfl, hleft⟩ := pairing_follows hr hbody h
  obtain ⟨lplace', hrun, hl'⟩ := hl.run houter hf
  refine ⟨⟨lplace', state.right, state.current, true⟩, ?_,
    fun hb => ⟨rfl, outer', hl' hb, hleft hb⟩⟩
  unfold Source.matchRows
  rw [hrun]

/-- A pairing makes the requests of the left input, and those of the right one. -/
theorem requests_pairing {request : Request} {outer : List PlanEvent}
    (h : request ∈ PlanEvent.requests (pairing condition rs outer)) :
    request ∈ PlanEvent.requests outer ∨ request ∈ rs.requests := by
  induction outer with
  | nil => exact Or.inl h
  | cons event outer ih =>
    cases event with
    | request r =>
      rcases List.mem_cons.mp h with rfl | h
      · exact Or.inl List.mem_cons_self
      · exact (ih h).imp_left (List.mem_cons_of_mem r)
    | row row =>
      simp only [pairing, PlanEvent.requests_append, PlanEvent.requests_sift,
        PlanEvent.requests_map_request, List.mem_append] at h
      rcases h with h | h | h
      · exact Or.inr (List.mem_append_right _ h)
      · exact Or.inr (List.mem_append_left _ h)
      · exact ih h

/-- Where a join stands, its right input stands somewhere. -/
theorem JoinStands.right_stands {rplace : ρ} {current : Option Row} {outer : List PlanEvent}
    (h : JoinStands condition rs standsRight rplace current outer events) :
    ∃ inner, standsRight rplace inner := by
  cases current with
  | none => exact ⟨rs.body, h.1⟩
  | some row =>
    obtain ⟨inner, hinner, -⟩ := h
    exact ⟨inner, hinner⟩

/-- What is left of a join makes the requests that are left of its left input, and those of the
right one. -/
theorem JoinStands.requests (hr : right.Performs rs reqsRight standsRight) {rplace : ρ}
    {current : Option Row} {outer : List PlanEvent} {request : Request}
    (h : JoinStands condition rs standsRight rplace current outer events)
    (hm : request ∈ PlanEvent.requests events) :
    request ∈ PlanEvent.requests outer ∨ request ∈ reqsRight := by
  have hpairing : request ∈ PlanEvent.requests (pairing condition rs outer) →
      request ∈ PlanEvent.requests outer ∨ request ∈ reqsRight := fun h =>
    (requests_pairing h).imp_right (hr.script_within request)
  cases current with
  | none =>
    obtain ⟨-, rfl⟩ := h
    exact hpairing hm
  | some row =>
    obtain ⟨inner, hinner, rfl⟩ := h
    simp only [PlanEvent.requests_append, PlanEvent.requests_sift, PlanEvent.requests_map_request,
      List.mem_append] at hm
    rcases hm with hm | hm | hm
    · exact Or.inr (hr.left_within hinner request hm)
    · exact Or.inr (hr.script_within request (List.mem_append_left _ hm))
    · exact hpairing hm

/-- **A join performs the pairing of what its inputs perform.** -/
theorem performs_join (condition : JoinCondition) (hl : left.Performs ls reqsLeft standsLeft)
    (hr : right.Performs rs reqsRight standsRight) :
    (Source.join condition left right).Performs
      ⟨ls.opening ++ rs.opening, pairing condition rs ls.body⟩ (reqsLeft ++ reqsRight)
      (fun place events => place.opened = true ∧ ∃ outer, standsLeft place.left outer
        ∧ JoinStands condition rs standsRight place.right place.current outer events) where
  run := by
    rintro β k ⟨lplace, rplace, current, opened⟩ events rest e e' acc acc' signal
      ⟨rfl, outer, houter, hjoin⟩ h
    simp only [Source.join, if_true]
    cases current with
    | none =>
      obtain ⟨hbody, rfl⟩ := hjoin
      exact matchRows_follows hl hr houter hbody h
    | some row =>
      obtain ⟨inner, hinner, rfl⟩ := hjoin
      rcases matchRow_follows hr hinner h with ⟨e₁, acc₁, place', hm, hbody, hmore⟩
        | ⟨rfl, place', left', hm, hleft, rfl⟩ | ⟨⟨f, rfl⟩, state, hm, rfl⟩
      · simp only [hm]
        exact matchRows_follows hl hr houter hbody hmore
      · simp only [hm]
        exact ⟨_, rfl, fun _ => ⟨rfl, outer, houter, left', hleft, rfl⟩⟩
      · simp only [hm]
        exact ⟨_, rfl, fun hb => absurd ⟨f, rfl⟩ hb⟩
  start := by
    intro place e e' r h
    rcases reads_append h with ⟨f, rfl, hfirst⟩ | ⟨e₁, hfirst, hsecond⟩
    · obtain ⟨lplace, hstart, -⟩ := hl.start place.left hfirst
      exact ⟨_, by simp only [Source.join, hstart]; rfl, nofun⟩
    · obtain ⟨lplace, hstart, hlbody⟩ := hl.start place.left hfirst
      obtain ⟨rplace, hstart', hrbody⟩ := hr.start place.right hsecond
      cases r with
      | error f => exact ⟨_, by simp only [Source.join, hstart, hstart']; rfl, nofun⟩
      | ok u =>
        exact ⟨⟨lplace, rplace, none, true⟩, by simp only [Source.join, hstart, hstart'],
          fun _ => ⟨rfl, ls.body, hlbody rfl, hrbody rfl, rfl⟩⟩
  rewind := by
    rintro ⟨lplace, rplace, current, opened⟩ events e e' r ⟨rfl, outer, houter, hjoin⟩ h
    obtain ⟨inner, hinner⟩ := hjoin.right_stands
    rcases reads_append h with ⟨f, rfl, hfirst⟩ | ⟨e₁, hfirst, hsecond⟩
    · obtain ⟨lplace', hrewind, -⟩ := hl.rewind houter hfirst
      exact ⟨_, by simp only [Source.join, hrewind]; rfl, nofun⟩
    · obtain ⟨lplace', hrewind, hlbody⟩ := hl.rewind houter hfirst
      obtain ⟨rplace', hrewind', hrbody⟩ := hr.rewind hinner hsecond
      cases r with
      | error f => exact ⟨_, by simp only [Source.join, hrewind, hrewind']; rfl, nofun⟩
      | ok u =>
        exact ⟨⟨lplace', rplace', none, true⟩, by simp only [Source.join, hrewind, hrewind'],
          fun _ => ⟨rfl, ls.body, hlbody rfl, hrbody rfl, rfl⟩⟩
  script_within := by
    intro request hm
    have hright : request ∈ rs.requests → request ∈ reqsLeft ++ reqsRight := fun h =>
      List.mem_append_right _ (hr.script_within request h)
    have hleft : request ∈ ls.requests → request ∈ reqsLeft ++ reqsRight := fun h =>
      List.mem_append_left _ (hl.script_within request h)
    rcases List.mem_append.mp hm with hm | hm
    · rcases List.mem_append.mp hm with hm | hm
      · exact hleft (List.mem_append_left _ hm)
      · exact hright (List.mem_append_left _ hm)
    · rcases requests_pairing hm with hm | hm
      · exact hleft (List.mem_append_right _ hm)
      · exact hright hm
  left_within := by
    rintro ⟨lplace, rplace, current, opened⟩ events ⟨-, outer, houter, hjoin⟩ request hm
    rcases hjoin.requests hr hm with hm | hm
    · exact List.mem_append_left _ (hl.left_within houter request hm)
    · exact List.mem_append_right _ hm

end Join

/-- Adding row after row, as an aggregate does with its input. -/
def gathering (a : Aggregation) (schema : Schema) : Consumer Groups := fun groups row e =>
  match a.addRow schema groups row with
  | .ok groups => (e, groups, .more)
  | .error f => (e, groups, .fail f)

section Aggregate

variable {a : Aggregation} {schema : Schema} {events : List PlanEvent} {e e' : Engine}
  {groups groups' : Groups} {r : Except Failure Unit}

/-- **Gathering the rows of some events** takes their requests, if every row can be added. -/
theorem gathering_follows (h : Reads (PlanEvent.requests events) e e' r)
    (hadd : (PlanEvent.rows events).foldlM (a.addRow schema) groups = .ok groups') :
    (r = .ok () ∧ (gathering a schema).Follows events e groups [] e' groups' .more)
      ∨ ∃ f left some, r = .error f
        ∧ (gathering a schema).Follows events e groups left e' some (.fail f) := by
  induction events generalizing e groups with
  | nil =>
    obtain ⟨rfl, rfl⟩ := reads_nil h
    cases hadd
    exact Or.inl ⟨rfl, .ended⟩
  | cons event events ih =>
    cases event with
    | request request =>
      cases h with
      | cons hr h =>
        rcases ih h hadd with ⟨hok, hf⟩ | ⟨f, left, some, he, hf⟩
        · exact Or.inl ⟨hok, .request hr hf⟩
        · exact Or.inr ⟨f, left, some, he, .request hr hf⟩
      | @failed _ _ _ _ f hr => exact Or.inr ⟨f, events, groups, rfl, .failed hr⟩
    | row row =>
      simp only [PlanEvent.rows, List.foldlM_cons] at hadd
      cases hrow : a.addRow schema groups row with
      | error f =>
        rw [hrow] at hadd
        cases hadd
      | ok added =>
        rw [hrow] at hadd
        have hk : gathering a schema groups row e = (e, added, .more) := by
          rw [gathering, hrow]
        rcases ih h hadd with ⟨hok, hf⟩ | ⟨f, left, some, he, hf⟩
        · exact Or.inl ⟨hok, .more hk hf⟩
        · exact Or.inr ⟨f, left, some, he, .more hk hf⟩

/-- What an aggregate makes of a pass over its input. -/
theorem aggregated_eq {place : AggregatePlace σ} {pass : Pass σ Groups}
    (h : input.run place.input e a.empty (gathering a schema) = pass) :
    input.aggregated a schema place e = match pass.verdict with
      | .failed f => (⟨pass.place, place.results⟩, pass.engine, .error f)
      | _ =>
        match pass.collected.rows a.fn with
        | .error f => (⟨pass.place, place.results⟩, pass.engine, .error f)
        | .ok rows => (⟨pass.place, some rows⟩, pass.engine, .ok ()) := by
  subst h
  rfl

/-- What is left of an aggregate: some of its results, wherever its input stands. -/
def AggregateStands (stands : σ → List PlanEvent → Prop) (place : AggregatePlace σ)
    (events : List PlanEvent) : Prop :=
  (∃ inner, stands place.input inner) ∧ RowsStand place.results events

/-- **Computing the results** makes the requests of the input. -/
theorem aggregated_stands {results : List Row} (h : input.Performs script reqs stands)
    (hresult : a.result schema (PlanEvent.rows script.body) = .ok results)
    {place : AggregatePlace σ} (hplace : stands place.input script.body)
    (hreads : Reads (PlanEvent.requests script.body) e e' r) :
    ∃ place', input.aggregated a schema place e = (place', e', r)
      ∧ (r = .ok () → AggregateStands stands place' (results.map .row)) := by
  rw [← Aggregation.result_eq] at hresult
  cases hadd : (PlanEvent.rows script.body).foldlM (a.addRow schema) a.empty with
  | error f =>
    rw [hadd] at hresult
    cases hresult
  | ok groups =>
    rw [hadd] at hresult
    have hrows : groups.rows a.fn = .ok results := hresult
    rcases gathering_follows hreads hadd with ⟨rfl, hf⟩ | ⟨f, left, some, rfl, hf⟩
    · obtain ⟨inner, hrun, hended⟩ := h.run hplace hf
      rw [aggregated_eq hrun]
      simp only [Signal.verdict, hrows]
      exact ⟨_, rfl, fun _ => ⟨⟨[], hended Signal.not_broke_more⟩, results, rfl, rfl⟩⟩
    · obtain ⟨inner, hrun, -⟩ := h.run hplace hf
      rw [aggregated_eq hrun]
      exact ⟨_, rfl, nofun⟩

/-- **An aggregate performs what its input performs when it is opened**, and hands out the result
then. -/
theorem performs_aggregate {results : List Row} (h : input.Performs script reqs stands)
    (hresult : a.result schema (PlanEvent.rows script.body) = .ok results) :
    (Source.aggregate a schema input).Performs
      ⟨script.requests, results.map .row⟩ reqs (AggregateStands stands) where
  run := by
    rintro β k ⟨place, results⟩ events rest e e' acc acc' signal ⟨hinput, left, hl, rfl⟩ hf
    obtain rfl : results = some left := hl
    rw [← List.append_nil (left.map PlanEvent.row)] at hf
    rcases hf.feed with ⟨e₁, acc₁, hfeed, hend⟩ | ⟨-, left', hfeed, rfl⟩
    · cases hend
      exact ⟨⟨place, some []⟩, by simp [Source.aggregate, hfeed], fun _ => ⟨hinput, [], rfl, rfl⟩⟩
    · exact ⟨⟨place, some left'⟩, by simp [Source.aggregate, hfeed],
        fun _ => ⟨hinput, left', rfl, by simp⟩⟩
  start := by
    intro place e e' r hreads
    rcases reads_append hreads with ⟨f, rfl, hopening⟩ | ⟨e₁, hopening, hbody⟩
    · obtain ⟨inner, hstart, -⟩ := h.start place.input hopening
      exact ⟨_, by simp only [Source.aggregate, hstart]; rfl, nofun⟩
    · obtain ⟨inner, hstart, hinner⟩ := h.start place.input hopening
      simp only [Source.aggregate, hstart]
      exact aggregated_stands h hresult (hinner rfl) hbody
  rewind := by
    rintro place events e e' r ⟨⟨inner, hinner⟩, -⟩ hreads
    rcases reads_append hreads with ⟨f, rfl, hopening⟩ | ⟨e₁, hopening, hbody⟩
    · obtain ⟨inner', hrewind, -⟩ := h.rewind hinner hopening
      exact ⟨_, by simp only [Source.aggregate, hrewind]; rfl, nofun⟩
    · obtain ⟨inner', hrewind, hinner'⟩ := h.rewind hinner hopening
      simp only [Source.aggregate, hrewind]
      exact aggregated_stands h hresult (hinner' rfl) hbody
  script_within := by
    intro request hm
    unfold Script.requests at hm
    simp only [PlanEvent.requests_map_row, List.append_nil] at hm
    exact h.script_within request hm
  left_within := by
    rintro place events ⟨-, left, -, rfl⟩ request hm
    simp at hm

end Aggregate

end Inputs

end RowStore
