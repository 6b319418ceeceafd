import RowStore.Proofs.Query.Performing

/-!
# Open and closed plans

Whether a plan is open is up to the operator at its root, and every operator remembers it in its own
way (`Plan.isOpen`).  While a plan is closed, a request for a row fails, names the operator and
changes nothing.  Opening a plan opens it if it succeeds, and closing it closes it.  What starting
over does depends on the operator: most of them hand it on to their inputs and stay closed, but a
list of rows is open afterwards, and so is an aggregate, which computes its result again.

Main statement: `Plan.closed_until_opened`, over every sequence of calls, where anything may happen
to the engine between two of them.
-/

namespace RowStore

/-! ## 1. Calls -/

/-- What can be asked of a plan. -/
inductive PlanCall where
  | start
  | rewind
  | next
  | close
  deriving DecidableEq, Repr

namespace Plan

/-- Ask a plan for something; only the next row is a reply with a row. -/
def call (p : Plan) (place : p.Place) (e : Engine) :
    PlanCall → p.Place × Engine × Except Failure (Option Row)
  | .start =>
    match p.source.start place e with
    | (place, e, result) => (place, e, result.map fun _ => none)
  | .rewind =>
    match p.source.rewind place e with
    | (place, e, result) => (place, e, result.map fun _ => none)
  | .next => p.source.next place e
  | .close => (p.source.close place, e, .ok none)

/-- **A place in a plan and the calls that led there**, the latest one first, each with whether it
succeeded.  Every call finds an engine of its own. -/
inductive Called (p : Plan) : p.Place → List (PlanCall × Bool) → Prop
  | fresh : Called p p.source.fresh []
  | call {place place' : p.Place} {log : List (PlanCall × Bool)} {e e' : Engine} {c : PlanCall}
      {reply : Except Failure (Option Row)} :
      Called p place log → p.call place e c = (place', e', reply) →
      Called p place' ((c, reply.isOk) :: log)

end Plan

/-- The calls since the last one that closed the plan, or all of them. -/
def sinceClose (log : List (PlanCall × Bool)) : List (PlanCall × Bool) :=
  log.takeWhile fun entry => entry.1 ≠ .close

theorem sinceClose_close (ok : Bool) (log : List (PlanCall × Bool)) :
    sinceClose ((.close, ok) :: log) = [] := rfl

theorem sinceClose_cons {c : PlanCall} (h : c ≠ .close) (ok : Bool)
    (log : List (PlanCall × Bool)) : sinceClose ((c, ok) :: log) = (c, ok) :: sinceClose log :=
  List.takeWhile_cons_of_pos (by simpa using h)

/-! ## 2. How an operator remembers it -/

/-- **An operator that remembers whether it is open.**  Opening it opens it if it succeeds, and so
does starting over if `again` says so; nothing else does.  While it is closed it hands out nothing
and does nothing to the engine. -/
structure Source.Latches {σ : Type} (s : Source σ) (kind : OperatorKind) (isOpen : σ → Bool)
    (again : Bool) : Prop where
  fresh : isOpen s.fresh = false
  close : ∀ place, isOpen (s.close place) = false
  start : ∀ {place place' : σ} {e e' : Engine} {r : Except Failure Unit},
    s.start place e = (place', e', r) → isOpen place' = (isOpen place || r.isOk)
  rewind : ∀ {place place' : σ} {e e' : Engine} {r : Except Failure Unit},
    s.rewind place e = (place', e', r) → isOpen place' = (isOpen place || again && r.isOk)
  run : ∀ {β : Type} (place : σ) (e : Engine) (acc : β) (k : Consumer β),
    isOpen (s.run place e acc k).place = isOpen place
  closed : ∀ {β : Type} {place : σ}, isOpen place = false → ∀ (e : Engine) (acc : β)
    (k : Consumer β), s.run place e acc k = ⟨place, e, acc, .failed (.notOpened kind)⟩

section Operators

variable {σ ρ : Type}

theorem latches_rows (rows : List Row) :
    (Source.ofRows rows).Latches .rows Option.isSome true where
  fresh := rfl
  close _ := rfl
  start {place place' e e' r} h := by
    cases h
    exact (Bool.or_true _).symm
  rewind {place place' e e' r} h := by
    cases h
    exact (Bool.or_true _).symm
  run place e acc k := by
    cases place <;> rfl
  closed {β place} h e acc k := by
    obtain rfl := Option.isNone_iff_eq_none.mp (Option.isSome_eq_false_iff.mp h)
    rfl

theorem latches_scan (tx : Tx) (table : TableFile) :
    (Source.scan tx table).Latches .scan Option.isSome false where
  fresh := rfl
  close _ := rfl
  start {place place' e e' r} h := by
    cases h
    exact (Bool.or_true _).symm
  rewind {place place' e e' r} h := by
    cases place <;> cases h <;> rfl
  run place e acc k := by
    cases place <;> rfl
  closed {β place} h e acc k := by
    obtain rfl := Option.isNone_iff_eq_none.mp (Option.isSome_eq_false_iff.mp h)
    rfl

theorem latches_filter (condition : Condition) (input : Source σ) :
    (Source.filter condition input).Latches .filter FilterPlace.opened false where
  fresh := rfl
  close _ := rfl
  start {place place' e e' r} h := by
    rcases hi : input.start place.input e with ⟨inner, e₁, result⟩
    simp only [Source.filter, hi] at h
    cases result with
    | error f =>
      cases h
      exact (Bool.or_false _).symm
    | ok u =>
      cases h
      exact (Bool.or_true _).symm
  rewind {place place' e e' r} h := by
    cases h
    exact (Bool.or_false _).symm
  run place e acc k := by
    cases ho : place.opened <;> simp [Source.filter, ho]
  closed {β place} h e acc k := by
    simp only [Source.filter, h, Bool.false_eq_true, if_false]

theorem latches_join (condition : JoinCondition) (left : Source σ) (right : Source ρ) :
    (Source.join condition left right).Latches .join JoinPlace.opened false where
  fresh := rfl
  close _ := rfl
  start {place place' e e' r} h := by
    rcases hl : left.start place.left e with ⟨l, e₁, first⟩
    simp only [Source.join, hl] at h
    cases first with
    | error f =>
      cases h
      exact (Bool.or_false _).symm
    | ok u =>
      rcases hr : right.start place.right e₁ with ⟨r, e₂, second⟩
      simp only [hr] at h
      cases second with
      | error f =>
        cases h
        exact (Bool.or_false _).symm
      | ok u =>
        cases h
        exact (Bool.or_true _).symm
  rewind {place place' e e' r} h := by
    rcases hl : left.rewind place.left e with ⟨l, e₁, first⟩
    simp only [Source.join, hl] at h
    cases first with
    | error f =>
      cases h
      exact (Bool.or_false _).symm
    | ok u =>
      rcases hr : right.rewind place.right e₁ with ⟨r, e₂, second⟩
      simp only [hr] at h
      cases second <;> cases h <;> exact (Bool.or_false _).symm
  run place e acc k := by
    cases ho : place.opened with
    | false => simp only [Source.join, ho, Bool.false_eq_true, if_false]
    | true =>
      simp only [Source.join, ho, if_true]
      cases hc : place.current with
      | none => rfl
      | some outer =>
        rcases hm : right.matchRow condition k outer place.right acc e with ⟨e₁, state, signal⟩
        cases signal <;> simp only [hm, Source.matchRows]
  closed {β place} h e acc k := by
    simp only [Source.join, h, Bool.false_eq_true, if_false]

/-- A result that was computed is there, and if it could not be, the one before is. -/
theorem isSome_results_aggregated {a : Aggregation} {schema : Schema} {input : Source σ}
    {place place' : AggregatePlace σ} {e e' : Engine} {r : Except Failure Unit}
    (h : input.aggregated a schema place e = (place', e', r)) :
    place'.results.isSome = (place.results.isSome || r.isOk) := by
  rw [aggregated_eq rfl] at h
  split at h
  · cases h
    exact (Bool.or_false _).symm
  · split at h
    · cases h
      exact (Bool.or_false _).symm
    · cases h
      exact (Bool.or_true _).symm

theorem latches_aggregate (a : Aggregation) (schema : Schema) (input : Source σ) :
    (Source.aggregate a schema input).Latches .aggregate (fun place => place.results.isSome)
      true where
  fresh := rfl
  close _ := rfl
  start {place place' e e' r} h := by
    rcases hi : input.start place.input e with ⟨inner, e₁, result⟩
    simp only [Source.aggregate, hi] at h
    cases result with
    | error f =>
      cases h
      exact (Bool.or_false _).symm
    | ok u =>
      have hagg : input.aggregated a schema ⟨inner, place.results⟩ e₁ = (place', e', r) := h
      have hresults := isSome_results_aggregated hagg
      exact hresults
  rewind {place place' e e' r} h := by
    rcases hi : input.rewind place.input e with ⟨inner, e₁, result⟩
    simp only [Source.aggregate, hi] at h
    cases result with
    | error f =>
      cases h
      exact (Bool.or_false _).symm
    | ok u =>
      have hagg : input.aggregated a schema ⟨inner, place.results⟩ e₁ = (place', e', r) := h
      have hresults := isSome_results_aggregated hagg
      exact hresults
  run place e acc k := by
    cases hr : place.results <;> simp [Source.aggregate, hr]
  closed {β place} h e acc k := by
    have hr := Option.isNone_iff_eq_none.mp (Option.isSome_eq_false_iff.mp h)
    simp only [Source.aggregate, hr]

/-- An aggregate whose input is closed keeps the result it had when it is started over. -/
theorem rewind_aggregate_of_closed {kind : OperatorKind} {isOpen : σ → Bool} {again : Bool}
    {a : Aggregation} {schema : Schema} {input : Source σ} (h : input.Latches kind isOpen again)
    {place : AggregatePlace σ} {e : Engine}
    (hclosed : isOpen (input.rewind place.input e).1 = false) :
    ((Source.aggregate a schema input).rewind place e).1
      = ⟨(input.rewind place.input e).1, place.results⟩ := by
  rcases hi : input.rewind place.input e with ⟨inner, e₁, r⟩
  rw [hi] at hclosed
  cases r with
  | error f => simp only [Source.aggregate, hi]
  | ok u =>
    have hagg : input.aggregated a schema ⟨inner, place.results⟩ e₁ = _ :=
      aggregated_eq (h.closed hclosed e₁ a.empty (gathering a schema))
    simp only [Source.aggregate, hi, hagg]

theorem latches_change (kind : OperatorKind)
    (apply : Row → Engine → Engine × Except Failure Unit) (input : Source σ) :
    (Source.change kind apply input).Latches kind ChangePlace.opened false where
  fresh := rfl
  close _ := rfl
  start {place place' e e' r} h := by
    rcases hi : input.start place.input e with ⟨inner, e₁, result⟩
    simp only [Source.change, hi] at h
    cases result with
    | error f =>
      cases h
      exact (Bool.or_false _).symm
    | ok u =>
      cases h
      exact (Bool.or_true _).symm
  rewind {place place' e e' r} h := by
    rcases hi : input.rewind place.input e with ⟨inner, e₁, result⟩
    simp only [Source.change, hi] at h
    cases result <;> cases h <;> exact (Bool.or_false _).symm
  run place e acc k := by
    cases ho : place.opened with
    | false => simp only [Source.change, ho, Bool.false_eq_true, if_false]
    | true =>
      cases hd : place.done with
      | true => simp only [Source.change, ho, hd, if_true]
      | false =>
        simp only [Source.change, ho, hd, if_true, Bool.false_eq_true, if_false]
        split <;> rfl
  closed {β place} h e acc k := by
    simp only [Source.change, h, Bool.false_eq_true, if_false]

end Operators

namespace Plan

/-! ## 3. Being open -/

/-- The operator at the root. -/
def kind : Plan → OperatorKind
  | rows .. => .rows
  | scan .. => .scan
  | filter .. => .filter
  | join .. => .join
  | aggregate .. => .aggregate
  | insert .. => .insert
  | delete .. => .delete

/-- **Whether a plan is open**, as the operator at its root remembers it. -/
def isOpen : (p : Plan) → p.Place → Bool
  | rows .. => Option.isSome
  | scan .. => Option.isSome
  | filter .. => FilterPlace.opened
  | join .. => JoinPlace.opened
  | aggregate .. => fun place => place.results.isSome
  | insert .. => ChangePlace.opened
  | delete .. => ChangePlace.opened

/-- Whether starting over opens the plan: a list of rows, or a result that is computed again. -/
def opensAgain : Plan → Bool
  | rows .. => true
  | aggregate .. => true
  | _ => false

/-- **Every plan latches as the operator at its root does**, whatever its inputs are. -/
theorem latches (p : Plan) : p.source.Latches p.kind p.isOpen p.opensAgain := by
  cases p with
  | rows schema list => exact latches_rows list
  | scan tx table label => exact latches_scan tx table
  | filter condition input => exact latches_filter condition input.source
  | join condition left right => exact latches_join condition left.source right.source
  | aggregate a input => exact latches_aggregate a input.schema input.source
  | insert tx id input => exact latches_change .insert _ input.source
  | delete tx input => exact latches_change .delete _ input.source

variable {p : Plan} {place place' : p.Place} {e e' : Engine} {c : PlanCall}
  {log : List (PlanCall × Bool)} {reply : Except Failure (Option Row)}

/-- The calls that open a plan when they succeed. -/
def opens (p : Plan) : PlanCall → Bool
  | .start => true
  | .rewind => p.opensAgain
  | .next => false
  | .close => false

theorem next_of_closed (h : p.isOpen place = false) (e : Engine) :
    p.source.next place e = (place, e, .error (.notOpened p.kind)) := by
  rw [Source.next, p.latches.closed h]

/-- **A list of rows and a result that are open** hand out rows without fail. -/
theorem next_of_open (hp : p.opensAgain = true) (h : p.isOpen place = true) (e : Engine) :
    ∃ place' row, p.source.next place e = (place', e, .ok row) := by
  cases p with
  | scan | filter | join | insert | delete => cases hp
  | rows schema list =>
    obtain ⟨left, rfl⟩ := Option.isSome_iff_exists.mp h
    cases left <;> exact ⟨_, _, rfl⟩
  | aggregate a input =>
    obtain ⟨inner, results⟩ := place
    obtain ⟨left, rfl⟩ := Option.isSome_iff_exists.mp h
    cases left <;> exact ⟨_, _, rfl⟩

theorem isOpen_next (place : p.Place) (e : Engine) :
    p.isOpen (p.source.next place e).1 = p.isOpen place := by
  have hrun := p.latches.run place e none fun _ row e => (e, some row, .stop)
  rcases hp : p.source.run place e none fun _ row e => (e, some row, .stop)
    with ⟨inner, e', row, verdict⟩
  rw [hp] at hrun
  cases verdict <;> simpa only [Source.next, hp] using hrun

/-- **What a call does to being open.** -/
theorem isOpen_call (h : p.call place e c = (place', e', reply)) :
    p.isOpen place' = (c ≠ .close && (p.isOpen place || p.opens c && reply.isOk)) := by
  cases c with
  | start =>
    rcases hs : p.source.start place e with ⟨inner, e₁, r⟩
    have ho := p.latches.start hs
    simp only [call, hs] at h
    cases h
    rw [ho]
    cases r <;> simp [opens, Except.map, Except.isOk, Except.toBool]
  | rewind =>
    rcases hs : p.source.rewind place e with ⟨inner, e₁, r⟩
    have ho := p.latches.rewind hs
    simp only [call, hs] at h
    cases h
    rw [ho]
    cases r <;> simp [opens, Except.map, Except.isOk, Except.toBool]
  | next =>
    have hplace : (p.source.next place e).1 = place' := congrArg Prod.fst h
    rw [← hplace, isOpen_next]
    simp [opens]
  | close =>
    cases h
    rw [p.latches.close]
    rfl

/-- **A plan is open when a call that opens it has succeeded** and none closed it since. -/
theorem Called.isOpen_iff (h : p.Called place log) :
    p.isOpen place = true ↔ ∃ c, p.opens c = true ∧ (c, true) ∈ sinceClose log := by
  -- the newest call stands first in the log, and a call to close leaves nothing behind it to see
  induction h with
  | fresh => simp [p.latches.fresh, sinceClose]
  | @call place place' log e e' c reply _ hcall ih =>
    rw [isOpen_call hcall]
    by_cases hc : c = .close
    · subst hc
      simp [sinceClose_close]
    · simp only [sinceClose_cons hc, List.mem_cons, ne_eq, hc, not_false_eq_true, decide_true,
        Bool.true_and, Bool.or_eq_true, Bool.and_eq_true, ih, Prod.mk.injEq]
      constructor
      · rintro (⟨d, hd, hm⟩ | ⟨ho, hok⟩)
        · exact ⟨d, hd, Or.inr hm⟩
        · exact ⟨c, ho, Or.inl ⟨rfl, hok.symm⟩⟩
      · rintro ⟨d, hd, ⟨rfl, hok⟩ | hm⟩
        · exact Or.inr ⟨hd, hok.symm⟩
        · exact Or.inl ⟨d, hd, hm⟩

theorem Called.closed (h : p.Called place log)
    (hnone : ∀ c, p.opens c = true → (c, true) ∉ sinceClose log) : p.isOpen place = false :=
  Bool.not_eq_true _ ▸ fun ho => by
    obtain ⟨c, hc, hm⟩ := h.isOpen_iff.mp ho
    exact hnone c hc hm

/-! ## 4. Results that are computed again -/

/-- Whether the plan is a list of rows under nothing but aggregates. -/
def restsOnRows : Plan → Bool
  | rows .. => true
  | aggregate _ input => input.restsOnRows
  | _ => false

/-- **A plan that is closed**, and under an aggregate the input as well. -/
def Shut : (p : Plan) → p.Place → Prop
  | aggregate _ input => fun place => place.results = none ∧ input.Shut place.input
  | p => fun place => p.isOpen place = false

theorem Shut.closed (h : p.Shut place) : p.isOpen place = false := by
  cases p with
  | aggregate a input => exact Option.isSome_eq_false_iff.mpr (Option.isNone_iff_eq_none.mpr h.1)
  | rows | scan | filter | join | insert | delete => exact h

theorem shut_fresh (p : Plan) : p.Shut p.source.fresh := by
  induction p with
  | aggregate a input ih => exact ⟨rfl, ih⟩
  | rows | scan | filter | join | insert | delete => exact (latches _).fresh

theorem shut_close (p : Plan) (place : p.Place) : p.Shut (p.source.close place) := by
  induction p with
  | aggregate a input ih => exact ⟨rfl, ih place.input⟩
  | rows | scan | filter | join | insert | delete => exact (latches _).close place

theorem Shut.next (h : p.Shut place) (e : Engine) : p.Shut (p.source.next place e).1 := by
  rw [next_of_closed h.closed]
  exact h

/-- **Starting over leaves it shut**, unless it rests on a list of rows: there is nothing that a
result could be computed of. -/
theorem Shut.rewind (hp : p.restsOnRows = false) (h : p.Shut place) (e : Engine) :
    p.Shut (p.source.rewind place e).1 := by
  induction p generalizing e with
  | rows => cases hp
  | scan | filter | join | insert | delete =>
    refine (latches _).rewind rfl |>.trans ?_
    rw [h.closed]
    rfl
  | aggregate a input ih =>
    -- the input is still closed when the rows for the result are asked for
    obtain ⟨hresults, hinput⟩ := h
    have hrewind := ih hp hinput e
    have hplace : ((aggregate a input).source.rewind place e).1
        = ⟨(input.source.rewind place.input e).1, place.results⟩ :=
      rewind_aggregate_of_closed input.latches hrewind.closed
    rw [hplace]
    exact ⟨hresults, hrewind⟩

/-- **A plan that was not opened is shut**, also if it was started over, unless it rests on a list
of rows. -/
theorem Called.shut (hp : p.restsOnRows = false) (h : p.Called place log)
    (hstart : ∀ ok, (.start, ok) ∉ sinceClose log) : p.Shut place := by
  induction h with
  | fresh => exact p.shut_fresh
  | @call place place' log e e' c reply _ hcall ih =>
    cases c with
    | close =>
      cases hcall
      exact p.shut_close place
    | start => exact absurd (List.mem_cons_self) (hstart reply.isOk)
    | rewind =>
      have hshut := ih fun ok hm => hstart ok (List.mem_cons_of_mem _ hm)
      have hplace : (p.source.rewind place e).1 = place' := congrArg Prod.fst hcall
      exact hplace ▸ hshut.rewind hp e
    | next =>
      have hshut := ih fun ok hm => hstart ok (List.mem_cons_of_mem _ hm)
      have hplace : (p.source.next place e).1 = place' := congrArg Prod.fst hcall
      exact hplace ▸ hshut.next e

/-! ## 5. Which plans hand out rows -/

/-- **A plan hands out nothing until it is opened**: for every plan, after every sequence of calls
since its beginning, whatever the engine was at each of them, asking for the next row fails, names
the operator and changes nothing

* if the plan has not been opened with success since it was closed, or ever, and the operator at its
  root is neither a list of rows nor an aggregate: starting over never opens it;
* if it has been neither opened nor started over with success since then, whatever operator it is;
* if nobody has tried to open it since then, unless it is a list of rows under nothing but
  aggregates.

A list of rows and an aggregate that were started over with success hand out rows without having
been opened. -/
theorem closed_until_opened (h : p.Called place log) (e : Engine) :
    (p.opensAgain = false → (.start, true) ∉ sinceClose log →
      p.source.next place e = (place, e, .error (.notOpened p.kind)))
    ∧ ((.start, true) ∉ sinceClose log → (.rewind, true) ∉ sinceClose log →
      p.source.next place e = (place, e, .error (.notOpened p.kind)))
    ∧ (p.restsOnRows = false → (∀ ok, (.start, ok) ∉ sinceClose log) →
      p.source.next place e = (place, e, .error (.notOpened p.kind)))
    ∧ (p.opensAgain = true → (.rewind, true) ∈ sinceClose log →
      ∃ place' row, p.source.next place e = (place', e, .ok row)) := by
  refine ⟨fun hp hs => next_of_closed (h.closed fun c hc => ?_) e,
    fun hs hr => next_of_closed (h.closed fun c hc => ?_) e,
    fun hp hs => next_of_closed (h.shut hp hs).closed e,
    fun hp hr => next_of_open hp (h.isOpen_iff.mpr ⟨.rewind, hp, hr⟩) e⟩
  · cases c with
    | start => exact hs
    | rewind => exact absurd (hp.symm.trans hc) Bool.false_ne_true
    | next | close => cases hc
  · cases c with
    | start => exact hs
    | rewind => exact hr
    | next | close => cases hc

end Plan

namespace Sample

/-- A store without tables. -/
def bare : Engine := { config := { pageSize := 40, pages := 2 } }

/-- One row with a five. -/
def five : Plan := .rows ⟨[⟨"n", .int64⟩]⟩ [⟨[.int 5], none⟩]

end Sample

/-- A filter that was only started over is closed, though its input is open. -/
theorem Plan.closed_until_opened_filter :
    ∃ place, Plan.Called (.filter ⟨0, .eq, .int 5⟩ Sample.five) place [(.rewind, true)]
      ∧ (Plan.filter ⟨0, .eq, .int 5⟩ Sample.five).source.next place Sample.bare
        = (place, Sample.bare, .error (.notOpened .filter)) := by
  have hcalled : Plan.Called (.filter ⟨0, .eq, .int 5⟩ Sample.five) _ [(.rewind, true)] :=
    .call (e := Sample.bare) .fresh rfl
  exact ⟨_, hcalled, (Plan.closed_until_opened hcalled Sample.bare).1 rfl (by decide)⟩

/-- **Starting over may open a plan.**  A list of rows that was never opened hands out its row once
it was started over, and so does an aggregate of it, and a list that was opened and closed. -/
theorem Plan.rewind_opens :
    (∃ place, Sample.five.Called place [(.rewind, true)]
      ∧ (Sample.five.source.next place Sample.bare).2.2.toOption = some (some ⟨[.int 5], none⟩))
    ∧ (∃ place, Sample.five.Called place [(.rewind, true), (.close, true), (.start, true)]
      ∧ (Sample.five.source.next place Sample.bare).2.2.toOption = some (some ⟨[.int 5], none⟩))
    ∧ ∃ p place, Plan.aggregated ⟨.sum, 0, none⟩ Sample.five = .ok p
      ∧ p.Called place [(.rewind, true)]
      ∧ (p.source.next place Sample.bare).2.2.toOption = some (some ⟨[.int 5], none⟩) := by
  refine ⟨⟨_, .call (e := Sample.bare) .fresh (c := .rewind) rfl, rfl⟩,
    ⟨_, .call (e := Sample.bare) (.call (e := Sample.bare) (.call (e := Sample.bare) .fresh
      (c := .start) rfl) (c := .close) rfl) (c := .rewind) rfl, rfl⟩,
    _, _, rfl, .call (e := Sample.bare) .fresh (c := .rewind) rfl, rfl⟩

end RowStore
