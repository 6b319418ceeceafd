import RowStore.Query.Plan

/-!
# What an operator does, step by step

An operator that is asked for rows makes requests, for the number of pages of a table and for
pages, and hands out rows in between.  Where the answers are known beforehand, so is everything the
operator does: a list of `PlanEvent`s, requests with their answers and rows.

* **Following events** (`Consumer.Follows`) is making the requests and handing the rows to a
  consumer, up to the first request that fails or the first row after which the consumer wants no
  more.
* **An operator performs a script** (`Source.Performs`) if opening it makes the requests of the
  script's `opening`, from any place, and running it follows the script's `body`, or what is left
  of it at a place where the operator stands in the middle (`Performs.run`).
-/

namespace RowStore

/-! ## 1. Requests and events -/

/-- A request with its answer. -/
inductive Request where
  /-- How many pages the table has. -/
  | count (table : TableFile) (n : Nat)
  /-- A page for reading, and the rows on it. -/
  | page (tx : Tx) (table : TableFile) (i : Nat) (rows : List Row)

/-- A request is made, or a row is handed out. -/
inductive PlanEvent where
  | request (r : Request)
  | row (row : Row)

namespace PlanEvent

/-- The rows that are handed out. -/
def rows : List PlanEvent → List Row
  | [] => []
  | request _ :: events => rows events
  | row r :: events => r :: rows events

/-- The requests that are made. -/
def requests : List PlanEvent → List Request
  | [] => []
  | request r :: events => r :: requests events
  | row _ :: events => requests events

/-- Hand out something else for each row, or nothing. -/
def sift (g : Row → Option Row) : List PlanEvent → List PlanEvent
  | [] => []
  | request r :: events => request r :: sift g events
  | row r :: events => ((g r).map row).toList ++ sift g events

variable {g : Row → Option Row} {events more : List PlanEvent}

@[simp] theorem rows_append : rows (events ++ more) = rows events ++ rows more := by
  induction events with
  | nil => rfl
  | cons event events ih => cases event <;> simp [rows, ih]

@[simp] theorem requests_append :
    requests (events ++ more) = requests events ++ requests more := by
  induction events with
  | nil => rfl
  | cons event events ih => cases event <;> simp [requests, ih]

@[simp] theorem rows_map_row (list : List Row) : rows (list.map row) = list := by
  induction list with
  | nil => rfl
  | cons r list ih => simp [rows, ih]

@[simp] theorem requests_map_row (list : List Row) : requests (list.map row) = [] := by
  induction list with
  | nil => rfl
  | cons r list ih => simp [requests, ih]

@[simp] theorem rows_map_request (list : List Request) : rows (list.map request) = [] := by
  induction list with
  | nil => rfl
  | cons r list ih => simp [rows, ih]

@[simp] theorem requests_map_request (list : List Request) :
    requests (list.map request) = list := by
  induction list with
  | nil => rfl
  | cons r list ih => simp [requests, ih]

theorem rows_sift (g : Row → Option Row) (events : List PlanEvent) :
    rows (sift g events) = (rows events).filterMap g := by
  induction events with
  | nil => rfl
  | cons event events ih =>
    cases event with
    | request r => exact ih
    | row r => cases hg : g r <;> simp [sift, rows, hg, ih]

@[simp] theorem requests_sift (g : Row → Option Row) (events : List PlanEvent) :
    requests (sift g events) = requests events := by
  induction events with
  | nil => rfl
  | cons event events ih =>
    cases event with
    | request r => simp [sift, requests, ih]
    | row r => cases hg : g r <;> simp [sift, requests, hg, ih]

end PlanEvent

/-- **How a request is answered**: as it says, or by a failure. -/
inductive Request.Answered : Request → Engine → Engine → Except Failure Unit → Prop
  | counted {table : TableFile} {e : Engine} {n : Nat} : table.countPages e.disk = .ok n →
      Answered (.count table n) e e (.ok ())
  | uncounted {table : TableFile} {e : Engine} {n : Nat} {f : Failure} :
      table.countPages e.disk = .error f → Answered (.count table n) e e (.error f)
  | fetched {tx : Tx} {table : TableFile} {i : Nat} {rows : List Row} {e e' : Engine}
      {frame : Frame} {page : Page} :
      e.fetch tx .read (table.pageId i) = (e', .ok frame) → frame.use = .ok page →
        page.rows = rows → Answered (.page tx table i rows) e e' (.ok ())
  | unfetched {tx : Tx} {table : TableFile} {i : Nat} {rows : List Row} {e e' : Engine}
      {r : Except Failure Frame} {f : Failure} :
      e.fetch tx .read (table.pageId i) = (e', r) → r.bind Frame.use = .error f →
        Answered (.page tx table i rows) e e' (.error f)

/-- Make requests, up to the first one that fails. -/
inductive Reads : List Request → Engine → Engine → Except Failure Unit → Prop
  | nil {e : Engine} : Reads [] e e (.ok ())
  | cons {request : Request} {requests : List Request} {e e₁ e' : Engine}
      {r : Except Failure Unit} :
      request.Answered e e₁ (.ok ()) → Reads requests e₁ e' r → Reads (request :: requests) e e' r
  | failed {request : Request} {requests : List Request} {e e' : Engine} {f : Failure} :
      request.Answered e e' (.error f) → Reads (request :: requests) e e' (.error f)

/-- **Follow events**: make the requests and hand the rows to a consumer, up to the first request
that fails or the first row after which the consumer wants no more.  What follows the events is
those that are left, the engine, what was collected, and why it ended. -/
inductive Consumer.Follows {β : Type} (k : Consumer β) :
    List PlanEvent → Engine → β → List PlanEvent → Engine → β → Signal → Prop
  | ended {e : Engine} {acc : β} : Follows k [] e acc [] e acc .more
  | request {r : Request} {events rest : List PlanEvent} {e e₁ e' : Engine} {acc acc' : β}
      {signal : Signal} :
      r.Answered e e₁ (.ok ()) → Follows k events e₁ acc rest e' acc' signal →
        Follows k (.request r :: events) e acc rest e' acc' signal
  | failed {r : Request} {events : List PlanEvent} {e e' : Engine} {acc : β} {f : Failure} :
      r.Answered e e' (.error f) →
        Follows k (.request r :: events) e acc events e' acc (.fail f)
  | more {row : Row} {events rest : List PlanEvent} {e e₁ e' : Engine} {acc acc₁ acc' : β}
      {signal : Signal} :
      k acc row e = (e₁, acc₁, .more) → Follows k events e₁ acc₁ rest e' acc' signal →
        Follows k (.row row :: events) e acc rest e' acc' signal
  | stopped {row : Row} {events : List PlanEvent} {e e' : Engine} {acc acc' : β} {signal : Signal} :
      k acc row e = (e', acc', signal) → signal ≠ .more →
        Follows k (.row row :: events) e acc events e' acc' signal

/-- Something failed, the consumer or a request. -/
def Signal.Broke (signal : Signal) : Prop := ∃ f, signal = .fail f

theorem Signal.not_broke_more : ¬more.Broke := fun ⟨_, h⟩ => Signal.noConfusion h

theorem Signal.not_broke_stop : ¬stop.Broke := fun ⟨_, h⟩ => Signal.noConfusion h

section Follows

variable {β : Type} {k : Consumer β} {events more rest : List PlanEvent} {e e' : Engine}
  {acc acc' : β} {signal : Signal} {g : Row → Option Row} {requests : List Request}

/-- Following one part of the events after the other. -/
theorem Consumer.Follows.append (h : k.Follows (events ++ more) e acc rest e' acc' signal) :
    (∃ left, k.Follows events e acc left e' acc' signal ∧ signal ≠ .more ∧ rest = left ++ more)
      ∨ ∃ e₁ acc₁, k.Follows events e acc [] e₁ acc₁ .more
        ∧ k.Follows more e₁ acc₁ rest e' acc' signal := by
  induction events generalizing e acc with
  | nil => exact Or.inr ⟨e, acc, .ended, h⟩
  | cons event events ih =>
    cases h with
    | request hr h =>
      rcases ih h with ⟨left, hl, hs, he⟩ | ⟨e₁, acc₁, hl, hm⟩
      · exact Or.inl ⟨left, .request hr hl, hs, he⟩
      · exact Or.inr ⟨e₁, acc₁, .request hr hl, hm⟩
    | failed hr => exact Or.inl ⟨events, .failed hr, fun h => Signal.noConfusion h, rfl⟩
    | more hk h =>
      rcases ih h with ⟨left, hl, hs, he⟩ | ⟨e₁, acc₁, hl, hm⟩
      · exact Or.inl ⟨left, .more hk hl, hs, he⟩
      · exact Or.inr ⟨e₁, acc₁, .more hk hl, hm⟩
    | stopped hk hs => exact Or.inl ⟨events, .stopped hk hs, hs, rfl⟩

/-- Requests hand out nothing, and what is behind them follows unless one of them fails. -/
theorem Consumer.Follows.reads
    (h : k.Follows (requests.map .request ++ more) e acc rest e' acc' signal) :
    (∃ f, signal = .fail f ∧ acc' = acc ∧ Reads requests e e' (.error f))
      ∨ ∃ e₁, Reads requests e e₁ (.ok ()) ∧ k.Follows more e₁ acc rest e' acc' signal := by
  induction requests generalizing e with
  | nil => exact Or.inr ⟨e, .nil, h⟩
  | cons request requests ih =>
    cases h with
    | request hr h =>
      rcases ih h with ⟨f, hs, ha, hreads⟩ | ⟨e₁, hreads, hmore⟩
      · exact Or.inl ⟨f, hs, ha, .cons hr hreads⟩
      · exact Or.inr ⟨e₁, .cons hr hreads, hmore⟩
    | @failed _ _ _ _ _ f hr => exact Or.inl ⟨f, rfl, rfl, .failed hr⟩

/-- Rows are handed out as from a list. -/
theorem Consumer.Follows.feed {rows : List Row}
    (h : k.Follows (rows.map .row ++ more) e acc rest e' acc' signal) :
    (∃ e₁ acc₁, k.feed rows acc e = ([], e₁, acc₁, .more)
        ∧ k.Follows more e₁ acc₁ rest e' acc' signal)
      ∨ signal ≠ .more ∧ ∃ left, k.feed rows acc e = (left, e', acc', signal)
        ∧ rest = left.map .row ++ more := by
  induction rows generalizing e acc with
  | nil => exact Or.inl ⟨e, acc, rfl, h⟩
  | cons row rows ih =>
    cases h with
    | more hk h =>
      rw [Consumer.feed, hk]
      exact ih h
    | stopped hk hs =>
      refine Or.inr ⟨hs, rows, ?_, rfl⟩
      rw [Consumer.feed, hk]
      cases signal with
      | more => exact absurd rfl hs
      | stop => rfl
      | fail f => rfl

/-- A consumer of what is left of the rows. -/
def Consumer.sift (g : Row → Option Row) (k : Consumer β) : Consumer β := fun acc row e =>
  match g row with
  | some row => k acc row e
  | none => (e, acc, .more)

/-- Who hands on the rows that it keeps, changed, is a consumer of what is left of the rows. -/
theorem Consumer.sift_ite (keeps : Row → Bool) (change : Row → Row) (k : Consumer β) :
    k.sift (fun row => if keeps row then some (change row) else none)
      = fun acc row e => if keeps row then k acc (change row) e else (e, acc, .more) := by
  funext acc row e
  unfold Consumer.sift
  by_cases hc : keeps row = true
  · simp only [hc, if_true]
  · simp only [hc, Bool.false_eq_true, if_false]

/-- **Who hands on only some rows follows the events of its input.** -/
theorem Consumer.Follows.sift (h : k.Follows (PlanEvent.sift g events) e acc rest e' acc' signal) :
    ∃ left, (k.sift g).Follows events e acc left e' acc' signal ∧ rest = PlanEvent.sift g left := by
  induction events generalizing e acc with
  | nil =>
    cases h
    exact ⟨[], .ended, rfl⟩
  | cons event events ih =>
    cases event with
    | request r =>
      cases h with
      | request hr h =>
        obtain ⟨left, hl, he⟩ := ih h
        exact ⟨left, .request hr hl, he⟩
      | failed hr => exact ⟨events, .failed hr, rfl⟩
    | row row =>
      cases hg : g row with
      | none =>
        simp only [PlanEvent.sift, hg, Option.map_none, Option.toList_none, List.nil_append] at h
        obtain ⟨left, hl, he⟩ := ih h
        refine ⟨left, .more ?_ hl, he⟩
        simp [Consumer.sift, hg]
      | some found =>
        simp only [PlanEvent.sift, hg, Option.map_some, Option.toList_some,
          List.singleton_append] at h
        cases h with
        | more hk h =>
          obtain ⟨left, hl, he⟩ := ih h
          refine ⟨left, .more ?_ hl, he⟩
          simpa [Consumer.sift, hg] using hk
        | stopped hk hs =>
          refine ⟨events, .stopped ?_ hs, rfl⟩
          simpa [Consumer.sift, hg] using hk

end Follows

/-! ## 2. Scripts -/

/-- What an operator does when it is opened, and what it does then. -/
structure Script where
  opening : List Request
  body : List PlanEvent

/-- All requests of a script. -/
def Script.requests (s : Script) : List Request := s.opening ++ PlanEvent.requests s.body

/-- **The operator performs the script.**  `stands` says at which places it has what left to do,
and `reqs` are all the requests that it may ever make. -/
structure Source.Performs {σ : Type} (s : Source σ) (script : Script) (reqs : List Request)
    (stands : σ → List PlanEvent → Prop) : Prop where
  /-- Running it follows what is left; it then stands behind that, unless something failed. -/
  run : ∀ {β : Type} {k : Consumer β} {place : σ} {events rest : List PlanEvent} {e e' : Engine}
    {acc acc' : β} {signal : Signal}, stands place events →
    k.Follows events e acc rest e' acc' signal →
    ∃ place', s.run place e acc k = ⟨place', e', acc', signal.verdict⟩
      ∧ (¬signal.Broke → stands place' rest)
  /-- It can be opened wherever it stands, also if it does not stand anywhere. -/
  start : ∀ (place : σ) {e e' : Engine} {r : Except Failure Unit}, Reads script.opening e e' r →
    ∃ place', s.start place e = (place', e', r) ∧ (r = .ok () → stands place' script.body)
  /-- It can be started over wherever it stands. -/
  rewind : ∀ {place : σ} {events : List PlanEvent} {e e' : Engine} {r : Except Failure Unit},
    stands place events → Reads script.opening e e' r →
    ∃ place', s.rewind place e = (place', e', r) ∧ (r = .ok () → stands place' script.body)
  script_within : ∀ request ∈ script.requests, request ∈ reqs
  left_within : ∀ {place : σ} {events : List PlanEvent}, stands place events →
    ∀ request ∈ PlanEvent.requests events, request ∈ reqs

theorem reads_append {first second : List Request} {e e' : Engine} {r : Except Failure Unit}
    (h : Reads (first ++ second) e e' r) :
    (∃ f, r = .error f ∧ Reads first e e' (.error f))
      ∨ ∃ e₁, Reads first e e₁ (.ok ()) ∧ Reads second e₁ e' r := by
  induction first generalizing e with
  | nil => exact Or.inr ⟨e, .nil, h⟩
  | cons request first ih =>
    cases h with
    | cons hr h =>
      rcases ih h with ⟨f, he, hf⟩ | ⟨e₁, hf, hs⟩
      · exact Or.inl ⟨f, he, .cons hr hf⟩
      · exact Or.inr ⟨e₁, .cons hr hf, hs⟩
    | @failed _ _ _ _ f hr => exact Or.inl ⟨f, rfl, .failed hr⟩

theorem reads_nil {e e' : Engine} {r : Except Failure Unit} (h : Reads [] e e' r) :
    e' = e ∧ r = .ok () := by
  cases h
  exact ⟨rfl, rfl⟩

/-! ### The next row -/

/-- A consumer that has enough after one row. -/
def Consumer.one : Consumer (Option Row) := fun _ row e => (e, some row, .stop)

/-- What asking for the next row makes of a pass with a consumer that has enough after one row. -/
theorem Source.next_eq {σ : Type} {s : Source σ} {place : σ} {pass : Pass σ (Option Row)}
    (h : s.run place e none Consumer.one = pass) :
    s.next place e = match pass.verdict with
      | .failed f => (pass.place, pass.engine, .error f)
      | _ => (pass.place, pass.engine, .ok pass.collected) := by
  subst h
  rfl

end RowStore
