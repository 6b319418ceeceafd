import RowStore.Proofs.Query.Performing

/-!
# The script of a plan

Every plan that changes nothing performs a script (`Plan.performs`), and the rows of this script are
the meaning of the plan (`Plan.script_meaning`).
-/

namespace RowStore

namespace Plan

/-! ## 1. What a plan performs -/

/-- Go through all rows and hand out their number. -/
def counting (s : Script) : Script :=
  ⟨s.opening, PlanEvent.sift (fun _ => none) s.body
    ++ [.row (Source.countRow (PlanEvent.rows s.body).length)]⟩

/-- **The script of a plan**, unless an aggregate in it cannot be computed.  Of a plan that changes
rows it is what the plan would do if it only counted them. -/
def script (v : View) : Plan → Except Failure Script
  | rows _ list => .ok ⟨[], list.map .row⟩
  | scan tx table _ =>
    .ok ⟨[], .request (.count table (v.count table)) :: pagesFrom v tx table (v.count table) 0⟩
  | filter condition input => (input.script v).map fun s =>
    ⟨s.opening, PlanEvent.sift (chosen condition) s.body⟩
  | join condition left right => (left.script v).bind fun ls => (right.script v).map fun rs =>
    ⟨ls.opening ++ rs.opening, pairing condition rs ls.body⟩
  | aggregate a input => (input.script v).bind fun s =>
    (a.result input.schema (PlanEvent.rows s.body)).map fun results =>
      ⟨s.requests, results.map .row⟩
  | insert _ _ input => (input.script v).map counting
  | delete _ input => (input.script v).map counting

/-- All requests that a plan may make: those of its scans. -/
def requests (v : View) : Plan → List Request
  | rows .. => []
  | scan tx table _ => scanRequests v tx table
  | filter _ input | aggregate _ input | insert _ _ input | delete _ input => input.requests v
  | join _ left right => left.requests v ++ right.requests v

variable {v : View} {s : Script}

/-- **A plan that changes nothing performs its script.** -/
theorem performs : ∀ {p : Plan} {s : Script}, p.ReadOnly → p.script v = .ok s →
    ∃ stands, p.source.Performs s (p.requests v) stands
  | rows _ list, s, _, h => by
    cases h
    exact ⟨_, performs_rows list⟩
  | scan tx table _, s, _, h => by
    cases h
    exact ⟨_, performs_scan v tx table⟩
  | filter condition input, s, hr, h => by
    cases hi : input.script v with
    | error f =>
      simp only [script, hi] at h
      cases h
    | ok is =>
      simp only [script, hi] at h
      cases h
      obtain ⟨stands, hp⟩ := performs (p := input) hr hi
      exact ⟨_, performs_filter condition hp⟩
  | join condition left right, s, hr, h => by
    cases hl : left.script v with
    | error f =>
      simp only [script, hl] at h
      cases h
    | ok ls =>
      cases hrs : right.script v with
      | error f =>
        simp only [script, hl, hrs] at h
        cases h
      | ok rs =>
        simp only [script, hl, hrs] at h
        cases h
        obtain ⟨standsLeft, hpl⟩ := performs (p := left) hr.1 hl
        obtain ⟨standsRight, hpr⟩ := performs (p := right) hr.2 hrs
        exact ⟨_, performs_join condition hpl hpr⟩
  | aggregate a input, s, hr, h => by
    cases hi : input.script v with
    | error f =>
      simp only [script, hi] at h
      cases h
    | ok is =>
      cases hres : a.result input.schema (PlanEvent.rows is.body) with
      | error f =>
        simp only [script, hi] at h
        rw [Except.bind, hres] at h
        cases h
      | ok results =>
        simp only [script, hi] at h
        rw [Except.bind, hres] at h
        cases h
        obtain ⟨stands, hp⟩ := performs (p := input) hr hi
        exact ⟨_, performs_aggregate hp hres⟩

/-! ## 2. The rows of a script -/

theorem rows_pagesFrom (v : View) (tx : Tx) (table : TableFile) : ∀ n i : Nat,
    PlanEvent.rows (pagesFrom v tx table n i) = (List.range' i n).flatMap (v.rows table)
  | 0, i => rfl
  | n + 1, i => by
    have ih := rows_pagesFrom v tx table n (i + 1)
    simp only [pagesFrom, PlanEvent.rows, PlanEvent.rows_append, PlanEvent.rows_map_row, ih,
      List.range'_succ, List.flatMap_cons]

theorem filterMap_ite (keeps : Row → Bool) (change : Row → Row) (list : List Row) :
    list.filterMap (fun row => if keeps row then some (change row) else none)
      = (list.filter keeps).map change := by
  induction list with
  | nil => rfl
  | cons row list ih =>
    by_cases hc : keeps row = true <;> simp [hc, ih]

theorem filterMap_chosen (condition : Condition) (list : List Row) :
    list.filterMap (chosen condition) = list.filter condition.holds :=
  (filterMap_ite condition.holds id list).trans (List.map_id _)

theorem filterMap_matching (condition : JoinCondition) (outer : Row) (list : List Row) :
    list.filterMap (matching condition outer)
      = (list.filter (condition.holds outer)).map outer.joined :=
  filterMap_ite (condition.holds outer) outer.joined list

theorem rows_pairing (condition : JoinCondition) (rs : Script) (events : List PlanEvent) :
    PlanEvent.rows (pairing condition rs events)
      = pairs condition (PlanEvent.rows events) (PlanEvent.rows rs.body) := by
  induction events with
  | nil => rfl
  | cons event events ih =>
    cases event with
    | request r => exact ih
    | row outer =>
      simp only [pairing, PlanEvent.rows, PlanEvent.rows_append, PlanEvent.rows_sift,
        PlanEvent.rows_map_request,
        List.nil_append, ih, filterMap_matching, pairs, List.flatMap_cons]

theorem rows_counting (s : Script) :
    PlanEvent.rows (counting s).body = [Source.countRow (PlanEvent.rows s.body).length] := by
  have hnone : (PlanEvent.rows s.body).filterMap (fun _ => (none : Option Row)) = [] := by simp
  simp only [counting, PlanEvent.rows_append, PlanEvent.rows_sift, hnone, PlanEvent.rows,
    List.nil_append]

/-- **The rows of the script are the meaning of the plan.** -/
theorem script_meaning (v : View) : ∀ p : Plan,
    (p.script v).map (fun s => PlanEvent.rows s.body) = p.meaning v
  | rows _ list => by simp [script, meaning, Except.map]
  | scan tx table _ => by
    simp [script, meaning, Except.map, PlanEvent.rows, rows_pagesFrom, View.table,
      List.range_eq_range']
  | filter condition input => by
    simp only [script, meaning, ← script_meaning v input]
    cases input.script v with
    | error f => rfl
    | ok s => simp [Except.map, PlanEvent.rows_sift, filterMap_chosen]
  | join condition left right => by
    simp only [script, meaning, ← script_meaning v left, ← script_meaning v right]
    cases left.script v with
    | error f => rfl
    | ok ls =>
      cases right.script v with
      | error f => rfl
      | ok rs => simp [Except.map, Except.bind, rows_pairing]
  | aggregate a input => by
    simp only [script, meaning, ← script_meaning v input]
    cases input.script v with
    | error f => rfl
    | ok s =>
      simp only [Except.map, Except.bind]
      cases a.result input.schema (PlanEvent.rows s.body) <;> simp
  | insert tx id input => by
    simp only [script, meaning, ← script_meaning v input]
    cases input.script v with
    | error f => rfl
    | ok s => simp [Except.map, rows_counting]
  | delete tx input => by
    simp only [script, meaning, ← script_meaning v input]
    cases input.script v with
    | error f => rfl
    | ok s => simp [Except.map, rows_counting]

end Plan

end RowStore
