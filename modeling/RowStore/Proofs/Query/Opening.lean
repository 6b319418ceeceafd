import RowStore.Proofs.Query.Scripts

/-!
# Opening a plan

Opening a plan opens all operators in it and computes its aggregates.  So it says already whether
the plan has a meaning: as long as the requests of the plan, if they are answered at all, are
answered as expected (`Honest`),

* a plan that cannot be computed cannot be opened (`Plan.start_fails`);
* a plan that was opened has a script and stands at its beginning (`Plan.started`).
-/

namespace RowStore

/-! ## 1. Requests that are answered as expected -/

/-- **Requests that are answered are answered as they say**, as long as the engine is one of these;
and, answered or failed, they leave it so. -/
def Honest (reqs : List Request) (S : Engine → Prop) : Prop :=
  ∀ request ∈ reqs, ∀ e, S e → ∃ e' r, request.Answered e e' r ∧ S e'

section Honest

variable {S : Engine → Prop} {reqs : List Request} {request : Request} {events : List PlanEvent}
  {e : Engine}

theorem Honest.tail (h : Honest (request :: reqs) S) : Honest reqs S :=
  fun r hm => h r (List.mem_cons_of_mem request hm)

theorem Honest.reads (h : Honest reqs S) (he : S e) : ∃ e' r, Reads reqs e e' r ∧ S e' := by
  induction reqs generalizing e with
  | nil => exact ⟨e, .ok (), .nil, he⟩
  | cons request reqs ih =>
    obtain ⟨e₁, r, ha, he₁⟩ := h request List.mem_cons_self e he
    cases r with
    | error f => exact ⟨e₁, .error f, .failed ha, he₁⟩
    | ok u =>
      obtain ⟨e', r, hr, he'⟩ := ih h.tail he₁
      exact ⟨e', r, .cons ha hr, he'⟩

/-- Gathering rows of which one cannot be added fails, there or before. -/
theorem Honest.gathering_fails {a : Aggregation} {schema : Schema} {groups : Groups} {f : Failure}
    (h : Honest (PlanEvent.requests events) S) (he : S e)
    (hadd : (PlanEvent.rows events).foldlM (a.addRow schema) groups = .error f) :
    ∃ rest e' some g, (gathering a schema).Follows events e groups rest e' some (.fail g)
      ∧ S e' := by
  induction events generalizing e groups with
  | nil => cases hadd
  | cons event events ih =>
    cases event with
    | request request =>
      obtain ⟨e₁, r, ha, he₁⟩ := h request List.mem_cons_self e he
      cases r with
      | error g => exact ⟨events, e₁, groups, g, .failed ha, he₁⟩
      | ok u =>
        obtain ⟨rest, e', some, g, hf, he'⟩ := ih h.tail he₁ hadd
        exact ⟨rest, e', some, g, .request ha hf, he'⟩
    | row row =>
      simp only [PlanEvent.rows, List.foldlM_cons] at hadd
      cases hrow : a.addRow schema groups row with
      | error g =>
        have hmore : Signal.fail g ≠ .more := by simp
        exact ⟨events, e, groups, g, .stopped (by rw [gathering, hrow]) hmore, he⟩
      | ok added =>
        rw [hrow] at hadd
        obtain ⟨rest, e', some, g, hf, he'⟩ := ih h he hadd
        exact ⟨rest, e', some, g, .more (by rw [gathering, hrow]) hf, he'⟩

/-- **An operator that performs a script stands at its beginning once it is opened.** -/
theorem Source.Performs.honest_start {σ : Type} {s : Source σ} {script : Script}
    {stands : σ → List PlanEvent → Prop} (h : s.Performs script reqs stands) (hs : Honest reqs S)
    (place : σ) (he : S e) :
    ∃ place' e' r, s.start place e = (place', e', r) ∧ (r = .ok () → stands place' script.body)
      ∧ S e' := by
  have hopening : Honest script.opening S := fun request hm =>
    hs request (h.script_within request (List.mem_append_left _ hm))
  obtain ⟨e', r, hreads, he'⟩ := hopening.reads he
  obtain ⟨place', hstart, hstands⟩ := h.start place hreads
  exact ⟨place', e', r, hstart, hstands, he'⟩

end Honest

/-! ## 2. Plans without a meaning -/

namespace Plan

variable {v : View} {S : Engine → Prop}

/-- The plans that a plan is made of, itself among them. -/
inductive PartOf (part : Plan) : Plan → Prop
  | whole : PartOf part part
  | filter {condition : Condition} {input : Plan} :
      PartOf part input → PartOf part (filter condition input)
  | left {condition : JoinCondition} {l r : Plan} :
      PartOf part l → PartOf part (join condition l r)
  | right {condition : JoinCondition} {l r : Plan} :
      PartOf part r → PartOf part (join condition l r)
  | aggregate {a : Aggregation} {input : Plan} : PartOf part input → PartOf part (aggregate a input)
  | insert {tx : Tx} {id : TableId} {input : Plan} :
      PartOf part input → PartOf part (insert tx id input)
  | delete {tx : Tx} {input : Plan} : PartOf part input → PartOf part (delete tx input)

/-- **What has a part that cannot be computed cannot be computed.** -/
theorem PartOf.meaning_fails {part p : Plan} {f : Failure} (h : PartOf part p)
    (hm : part.meaning v = .error f) : ∃ g, p.meaning v = .error g := by
  induction h with
  | whole => exact ⟨f, hm⟩
  | filter _ ih | aggregate _ ih | insert _ ih | delete _ ih =>
    obtain ⟨g, hg⟩ := ih
    exact ⟨g, by rw [meaning, hg]; rfl⟩
  | left _ ih =>
    obtain ⟨g, hg⟩ := ih
    exact ⟨g, by rw [meaning, hg]; rfl⟩
  | @right _ l _ _ ih =>
    obtain ⟨g, hg⟩ := ih
    rw [meaning, hg]
    cases l.meaning v with
    | error f => exact ⟨f, rfl⟩
    | ok ls => exact ⟨g, rfl⟩

theorem script_of_meaning_ok {p : Plan} {list : List Row} (h : p.meaning v = .ok list) :
    ∃ s, p.script v = .ok s ∧ PlanEvent.rows s.body = list := by
  rw [← script_meaning v p] at h
  cases hs : p.script v with
  | error g =>
    rw [hs] at h
    cases h
  | ok s =>
    rw [hs] at h
    cases h
    exact ⟨s, rfl, rfl⟩

/-- An aggregate that cannot be computed of what its input performs fails when it takes that. -/
theorem aggregated_fails {σ : Type} {input : Source σ} {a : Aggregation} {schema : Schema}
    {script : Script} {reqs : List Request} {stands : σ → List PlanEvent → Prop} {e : Engine}
    {f : Failure} (h : input.Performs script reqs stands) (hs : Honest reqs S)
    (hresult : a.result schema (PlanEvent.rows script.body) = .error f)
    (place : AggregatePlace σ) (hplace : stands place.input script.body) (he : S e) :
    ∃ place' e' g, input.aggregated a schema place e = (place', e', .error g) ∧ S e' := by
  have hbody : Honest (PlanEvent.requests script.body) S := fun request hm =>
    hs request (h.left_within hplace request hm)
  rw [← Aggregation.result_eq] at hresult
  cases hadd : (PlanEvent.rows script.body).foldlM (a.addRow schema) a.empty with
  | error g =>
    obtain ⟨rest, e', some, g, hf, he'⟩ := hbody.gathering_fails he hadd
    obtain ⟨inner, hrun, -⟩ := h.run hplace hf
    rw [aggregated_eq hrun]
    exact ⟨_, e', g, rfl, he'⟩
  | ok groups =>
    rw [hadd] at hresult
    have hrows : groups.rows a.fn = .error f := hresult
    obtain ⟨e', r, hreads, he'⟩ := hbody.reads he
    rcases gathering_follows hreads hadd with ⟨-, hf⟩ | ⟨g, left, some, -, hf⟩
    · obtain ⟨inner, hrun, -⟩ := h.run hplace hf
      rw [aggregated_eq hrun]
      simp only [Signal.verdict, hrows]
      exact ⟨_, e', f, rfl, he'⟩
    · obtain ⟨inner, hrun, -⟩ := h.run hplace hf
      rw [aggregated_eq hrun]
      exact ⟨_, e', g, rfl, he'⟩

/-- **A plan that cannot be computed cannot be opened.** -/
theorem start_fails {p : Plan} {f : Failure} (hr : p.ReadOnly) (hs : Honest (p.requests v) S)
    (hm : p.meaning v = .error f) : ∀ (place : p.Place) {e : Engine}, S e →
      ∃ place' e' g, p.source.start place e = (place', e', .error g) ∧ S e' := by
  induction p generalizing f with
  | rows | scan => cases hm
  | insert | delete => exact hr.elim
  | filter condition input ih =>
    intro place e he
    have hm : input.meaning v = .error f := by
      cases hi : input.meaning v <;> simp only [meaning, hi] at hm <;> cases hm
      rfl
    obtain ⟨inner, e', g, hstart, he'⟩ := ih hr hs hm place.input he
    exact ⟨⟨inner, place.opened⟩, e', g, by simp only [source, Source.filter, hstart]; rfl, he'⟩
  | join condition left right ihl ihr =>
    intro place e he
    have hsl : Honest (left.requests v) S := fun r h => hs r (List.mem_append_left _ h)
    have hsr : Honest (right.requests v) S := fun r h => hs r (List.mem_append_right _ h)
    cases hl : left.meaning v with
    | error g =>
      obtain ⟨inner, e', g, hstart, he'⟩ := ihl hr.1 hsl hl place.left he
      exact ⟨_, e', g, by simp only [source, Source.join, hstart]; rfl, he'⟩
    | ok ls =>
      have hrm : right.meaning v = .error f := by
        rw [meaning, hl] at hm
        cases hi : right.meaning v <;> rw [hi] at hm <;> cases hm
        rfl
      obtain ⟨script, hscript, -⟩ := script_of_meaning_ok hl
      obtain ⟨stands, hp⟩ := performs hr.1 hscript
      obtain ⟨lplace, e₁, r, hstart, -, he₁⟩ := hp.honest_start hsl place.left he
      cases r with
      | error g => exact ⟨_, e₁, g, by simp only [source, Source.join, hstart]; rfl, he₁⟩
      | ok u =>
        obtain ⟨rplace, e', g, hstart', he'⟩ := ihr hr.2 hsr hrm place.right he₁
        exact ⟨_, e', g, by simp only [source, Source.join, hstart, hstart']; rfl, he'⟩
  | aggregate a input ih =>
    intro place e he
    cases hi : input.meaning v with
    | error g =>
      obtain ⟨inner, e', g, hstart, he'⟩ := ih hr hs hi place.input he
      exact ⟨_, e', g, by simp only [source, Source.aggregate, hstart]; rfl, he'⟩
    | ok list =>
      rw [meaning, hi] at hm
      obtain ⟨script, hscript, rfl⟩ := script_of_meaning_ok hi
      obtain ⟨stands, hp⟩ := performs (p := input) hr hscript
      obtain ⟨inner, e₁, r, hstart, hstands, he₁⟩ := hp.honest_start hs place.input he
      cases r with
      | error g => exact ⟨_, e₁, g, by simp only [source, Source.aggregate, hstart]; rfl, he₁⟩
      | ok u =>
        obtain ⟨place', e', g, hagg, he'⟩ :=
          aggregated_fails hp hs hm ⟨inner, place.results⟩ (hstands rfl) he₁
        exact ⟨place', e', g, by simp only [source, Source.aggregate, hstart, hagg]; rfl, he'⟩

/-! ## 3. Plans that were opened -/

/-- **A plan that was opened can be computed**, and stands at the beginning of its script. -/
theorem started {p : Plan} (hp : p.ReadOnly) (hs : Honest (p.requests v) S)
    {place place' : p.Place} {e e' : Engine} (he : S e)
    (h : p.source.start place e = (place', e', .ok ())) :
    S e' ∧ ∃ script stands, p.script v = .ok script
      ∧ p.source.Performs script (p.requests v) stands ∧ stands place' script.body := by
  cases hm : p.meaning v with
  | error f =>
    obtain ⟨_, _, g, hstart, -⟩ := start_fails hp hs hm place he
    rw [h] at hstart
    cases hstart
  | ok list =>
    obtain ⟨script, hscript, -⟩ := script_of_meaning_ok hm
    obtain ⟨stands, hperforms⟩ := performs hp hscript
    obtain ⟨_, _, r, hstart, hstands, he'⟩ := hperforms.honest_start hs place he
    rw [h] at hstart
    cases hstart
    exact ⟨he', script, stands, hscript, hperforms, hstands rfl⟩

end Plan

end RowStore
