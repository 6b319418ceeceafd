import RowStore.Proofs.Engine.Fetching
import RowStore.Proofs.Query.Performing

/-!
# Operators that only look

An operator without a change in it does nothing to the engine but to ask for pages; whatever else
happens to the engine while it runs is its consumer's doing.  And it cannot tell consumers apart
that answer alike and do the same to the engine: it hands them the same rows and stands at the same
place afterwards.

Both are said at once (`Source.Looks`), by a relation between what two consumers have collected and
the engine: where requests leave it alone and the consumers keep it, a whole run keeps it.  Main
statement: `Plan.looks`.
-/

namespace RowStore

/-! ## 1. What is kept -/

/-- A property of engines that requests for pages leave alone. -/
def Engine.Steady (S : Engine → Prop) : Prop :=
  ∀ {tx : Tx} {e e' : Engine}, Engine.Fetches tx e e' → S e → S e'

section InStep

variable {σ β γ : Type} {R : β → γ → Engine → Prop} {k₁ : Consumer β} {k₂ : Consumer γ}

/-- **Two consumers in step** answer alike and do the same to the engine, and keep the relation. -/
def Consumer.InStep (R : β → γ → Engine → Prop) (k₁ : Consumer β) (k₂ : Consumer γ) : Prop :=
  ∀ {a : β} {b : γ} (row : Row) {e : Engine}, R a b e → ∀ {e' : Engine} {a' : β} {signal : Signal},
    k₁ a row e = (e', a', signal) → ∃ b', k₂ b row e = (e', b', signal) ∧ R a' b' e'

/-- Two passes in step have led to the same place and the same engine. -/
def Pass.InStep (R : β → γ → Engine → Prop) (p : Pass σ β) (q : Pass σ γ) : Prop :=
  ∃ b, q = ⟨p.place, p.engine, b, p.verdict⟩ ∧ R p.collected b p.engine

theorem Consumer.InStep.feed (h : Consumer.InStep R k₁ k₂) : ∀ (rows : List Row) {a : β} {b : γ}
    {e : Engine}, R a b e → ∀ {left : List Row} {e' : Engine} {a' : β} {signal : Signal},
    k₁.feed rows a e = (left, e', a', signal) →
    ∃ b', k₂.feed rows b e = (left, e', b', signal) ∧ R a' b' e'
  | [], a, b, e, hr, left, e', a', signal, hf => by
    cases hf
    exact ⟨b, rfl, hr⟩
  | row :: rows, a, b, e, hr, left, e', a', signal, hf => by
    rcases hk : k₁ a row e with ⟨e₁, a₁, answer⟩
    obtain ⟨b₁, hk₂, hr₁⟩ := h row hr hk
    rw [Consumer.feed, hk] at hf
    rw [Consumer.feed, hk₂]
    cases answer with
    | more => exact h.feed rows hr₁ hf
    | stop =>
      cases hf
      exact ⟨b₁, rfl, hr₁⟩
    | fail f =>
      cases hf
      exact ⟨b₁, rfl, hr₁⟩

/-- Consumers that get some of the rows only are in step if those that get all are. -/
theorem Consumer.InStep.some (h : Consumer.InStep R k₁ k₂) (keeps : Row → Bool)
    (change : Row → Row) :
    Consumer.InStep R
      (fun acc row e => if keeps row then k₁ acc (change row) e else (e, acc, .more))
      (fun acc row e => if keeps row then k₂ acc (change row) e else (e, acc, .more)) := by
  intro a b row e hr e' a' signal hk
  by_cases hc : keeps row = true
  · simp only [hc, if_true] at hk ⊢
    exact h _ hr hk
  · simp only [hc, Bool.false_eq_true, if_false] at hk ⊢
    cases hk
    exact ⟨b, rfl, hr⟩

end InStep

/-- **The operator only looks**: whatever requests leave alone and consumers keep, it keeps. -/
structure Source.Looks {σ : Type} (s : Source σ) : Prop where
  run : ∀ {β γ : Type} {R : β → γ → Engine → Prop} {k₁ : Consumer β} {k₂ : Consumer γ},
    (∀ a b, Engine.Steady (R a b)) → Consumer.InStep R k₁ k₂ → ∀ (place : σ) {e : Engine} {a : β}
    {b : γ}, R a b e → Pass.InStep R (s.run place e a k₁) (s.run place e b k₂)
  start : ∀ {S : Engine → Prop}, Engine.Steady S → ∀ (place : σ) {e : Engine}, S e →
    S (s.start place e).2.1
  rewind : ∀ {S : Engine → Prop}, Engine.Steady S → ∀ (place : σ) {e : Engine}, S e →
    S (s.rewind place e).2.1

/-! ## 2. Leaves -/

section Leaves

variable {β γ : Type} {R : β → γ → Engine → Prop} {k₁ : Consumer β} {k₂ : Consumer γ}

theorem looks_rows (rows : List Row) : (Source.ofRows rows).Looks where
  run := by
    intro β γ R k₁ k₂ _ hk place e a b hr
    cases place with
    | none => exact ⟨b, rfl, hr⟩
    | some left =>
      simp only [Source.ofRows]
      rcases hf : k₁.feed left a e with ⟨left', e', a', signal⟩
      obtain ⟨b', hf₂, hr'⟩ := hk.feed left hr hf
      exact ⟨b', by simp only [hf₂], hr'⟩
  start _ _ _ h := h
  rewind _ _ _ h := h

theorem runPages_inStep (hsteady : ∀ a b, Engine.Steady (R a b)) (hk : Consumer.InStep R k₁ k₂)
    (tx : Tx) (table : TableFile) : ∀ (n : Nat) (place : ScanPlace) {e : Engine} {a : β} {b : γ},
      R a b e → Pass.InStep R (ScanPlace.runPages tx table k₁ n place e a)
        (ScanPlace.runPages tx table k₂ n place e b)
  | 0, place, e, a, b, hr => ⟨b, rfl, hr⟩
  | n + 1, place, e, a, b, hr => by
    rcases hfetch : e.fetch tx .read (table.pageId place.nextPage) with ⟨e₁, result⟩
    have hr₁ := hsteady a b (Engine.fetch_fetches hfetch) hr
    simp only [ScanPlace.runPages, hfetch]
    cases result with
    | error f => exact ⟨b, rfl, hr₁⟩
    | ok frame =>
      cases huse : frame.use with
      | error f =>
        simp only [huse]
        exact ⟨b, rfl, hr₁⟩
      | ok page =>
        simp only [huse]
        rcases hf : k₁.feed page.rows a e₁ with ⟨left, e', a', signal⟩
        obtain ⟨b', hf₂, hr'⟩ := hk.feed page.rows hr₁ hf
        rw [hf₂]
        cases signal with
        | more => exact runPages_inStep hsteady hk tx table n _ hr'
        | stop => exact ⟨b', rfl, hr'⟩
        | fail f => exact ⟨b', rfl, hr'⟩

theorem run_inStep (hsteady : ∀ a b, Engine.Steady (R a b)) (hk : Consumer.InStep R k₁ k₂)
    (tx : Tx) (table : TableFile) (place : ScanPlace) {e : Engine} {a : β} {b : γ}
    (hr : R a b e) : Pass.InStep R (ScanPlace.run tx table place e a k₁)
      (ScanPlace.run tx table place e b k₂) := by
  unfold ScanPlace.run
  cases hd : place.done with
  | true => exact ⟨b, rfl, hr⟩
  | false =>
    simp only [Bool.false_eq_true, if_false]
    rcases hf : k₁.feed place.pending a e with ⟨left, e', a', signal⟩
    obtain ⟨b', hf₂, hr'⟩ := hk.feed place.pending hr hf
    rw [hf₂]
    cases signal with
    | more =>
      cases place.countPages table e'.disk with
      | error f => exact ⟨b', rfl, hr'⟩
      | ok count => exact runPages_inStep hsteady hk tx table _ _ hr'
    | stop => exact ⟨b', rfl, hr'⟩
    | fail f => exact ⟨b', rfl, hr'⟩

theorem looks_scan (tx : Tx) (table : TableFile) : (Source.scan tx table).Looks where
  run := by
    intro β γ R k₁ k₂ hsteady hk place e a b hr
    cases place with
    | none => exact ⟨b, rfl, hr⟩
    | some place =>
      obtain ⟨b', hrun, hr'⟩ := run_inStep hsteady hk tx table place hr
      exact ⟨b', by simp only [Source.scan, hrun], hr'⟩
  start _ _ _ h := h
  rewind _ place _ h := by
    cases place <;> exact h

end Leaves

/-! ## 3. Operators with inputs -/

section Inputs

variable {σ ρ : Type} {input left : Source σ} {right : Source ρ}

theorem looks_filter (condition : Condition) (h : input.Looks) :
    (Source.filter condition input).Looks where
  run := by
    intro β γ R k₁ k₂ hsteady hk place e a b hr
    unfold Source.filter
    cases ho : place.opened with
    | false => exact ⟨b, by simp only [ho, Bool.false_eq_true, if_false],
        by simpa only [ho, Bool.false_eq_true, if_false] using hr⟩
    | true =>
      obtain ⟨b', hrun, hr'⟩ :=
        h.run hsteady (hk.some condition.holds fun row => row) place.input hr
      simp only [ho, if_true]
      exact ⟨b', by simp only [hrun], hr'⟩
  start := by
    intro S hsteady place e he
    have he' := h.start hsteady place.input he
    simp only [Source.filter]
    rcases hs : input.start place.input e with ⟨inner, e', r⟩
    rw [hs] at he'
    cases r <;> exact he'
  rewind := by
    intro S hsteady place e he
    exact h.rewind hsteady place.input he

/-- What is kept from one left row of a join to the next. -/
def JoinState.InStep {β γ : Type} (R : β → γ → Engine → Prop) (s : JoinState ρ β)
    (t : JoinState ρ γ) (e : Engine) : Prop :=
  ∃ b, t = ⟨b, s.right, s.current⟩ ∧ R s.collected b e

section Join

variable {β γ : Type} {R : β → γ → Engine → Prop} {k₁ : Consumer β} {k₂ : Consumer γ}

theorem matchRow_inStep (condition : JoinCondition) (h : right.Looks)
    (hsteady : ∀ a b, Engine.Steady (R a b)) (hk : Consumer.InStep R k₁ k₂) (outer : Row)
    (place : ρ) {a : β} {b : γ} {e : Engine} (hr : R a b e) {e' : Engine} {s : JoinState ρ β}
    {signal : Signal} (hm : right.matchRow condition k₁ outer place a e = (e', s, signal)) :
    ∃ t, right.matchRow condition k₂ outer place b e = (e', t, signal)
      ∧ JoinState.InStep R s t e' := by
  obtain ⟨b', hrun, hr'⟩ := h.run hsteady (hk.some (condition.holds outer) outer.joined) place hr
  unfold Source.matchRow at hm ⊢
  rw [hrun]
  rcases hpass : right.run place e a (fun acc inner e =>
      if condition.holds outer inner then k₁ acc (outer.joined inner) e else (e, acc, .more))
    with ⟨place', e₁, a', verdict⟩
  simp only [hpass] at hm hr' ⊢
  cases verdict with
  | stopped =>
    cases hm
    exact ⟨_, rfl, b', rfl, hr'⟩
  | failed f =>
    cases hm
    exact ⟨_, rfl, b', rfl, hr'⟩
  | ended =>
    have hr₂ := h.rewind (hsteady a' b') place' hr'
    rcases hrewind : right.rewind place' e₁ with ⟨again, e₂, r⟩
    simp only [hrewind] at hm hr₂ ⊢
    cases r with
    | error f =>
      cases hm
      exact ⟨_, rfl, b', rfl, hr₂⟩
    | ok u =>
      cases hm
      exact ⟨_, rfl, b', rfl, hr₂⟩

theorem matchRows_inStep (condition : JoinCondition) (hl : left.Looks) (hr : right.Looks)
    (hsteady : ∀ a b, Engine.Steady (R a b)) (hk : Consumer.InStep R k₁ k₂) (place : σ)
    {s : JoinState ρ β} {t : JoinState ρ γ} {e : Engine} (hs : JoinState.InStep R s t e) :
    Pass.InStep R (left.matchRows condition right k₁ place s e)
      (left.matchRows condition right k₂ place t e) := by
  have hkeep : ∀ (s : JoinState ρ β) (t : JoinState ρ γ),
      Engine.Steady (JoinState.InStep R s t) := by
    rintro s t tx e e' hf ⟨b, ht, hb⟩
    exact ⟨b, ht, hsteady _ _ hf hb⟩
  have hrows : Consumer.InStep (JoinState.InStep R)
      (fun s outer e => right.matchRow condition k₁ outer s.right s.collected e)
      (fun t outer e => right.matchRow condition k₂ outer t.right t.collected e) := by
    rintro s t outer e ⟨b, rfl, hb⟩ e' s' signal hm
    exact matchRow_inStep condition hr hsteady hk outer s.right hb hm
  obtain ⟨t', hrun, b', rfl, hb'⟩ := hl.run hkeep hrows place hs
  exact ⟨b', by unfold Source.matchRows; rw [hrun], hb'⟩

theorem looks_join (condition : JoinCondition) (hl : left.Looks) (hr : right.Looks) :
    (Source.join condition left right).Looks where
  run := by
    intro β γ R k₁ k₂ hsteady hk place e a b hab
    unfold Source.join
    cases ho : place.opened with
    | false => exact ⟨b, by simp only [ho, Bool.false_eq_true, if_false],
        by simpa only [ho, Bool.false_eq_true, if_false] using hab⟩
    | true =>
      simp only [ho, if_true]
      cases hc : place.current with
      | none =>
        exact matchRows_inStep condition hl hr hsteady hk place.left ⟨b, rfl, hab⟩
      | some outer =>
        rcases hm : right.matchRow condition k₁ outer place.right a e with ⟨e', s, signal⟩
        obtain ⟨t, hm₂, hst⟩ :=
          matchRow_inStep condition hr hsteady hk outer place.right hab hm
        simp only [hm, hm₂]
        cases signal with
        | more => exact matchRows_inStep condition hl hr hsteady hk place.left hst
        | stop =>
          obtain ⟨b', rfl, hb'⟩ := hst
          exact ⟨b', rfl, hb'⟩
        | fail f =>
          obtain ⟨b', rfl, hb'⟩ := hst
          exact ⟨b', rfl, hb'⟩
  start := by
    intro S hsteady place e he
    have he₁ := hl.start hsteady place.left he
    simp only [Source.join]
    rcases hs : left.start place.left e with ⟨l, e₁, r⟩
    rw [hs] at he₁
    cases r with
    | error f => exact he₁
    | ok u =>
      have he₂ := hr.start hsteady place.right he₁
      rcases hs₂ : right.start place.right e₁ with ⟨r, e₂, result⟩
      rw [hs₂] at he₂
      simp only [hs₂]
      cases result <;> exact he₂
  rewind := by
    intro S hsteady place e he
    have he₁ := hl.rewind hsteady place.left he
    simp only [Source.join]
    rcases hs : left.rewind place.left e with ⟨l, e₁, r⟩
    rw [hs] at he₁
    cases r with
    | error f => exact he₁
    | ok u =>
      have he₂ := hr.rewind hsteady place.right he₁
      rcases hs₂ : right.rewind place.right e₁ with ⟨r, e₂, result⟩
      rw [hs₂] at he₂
      simp only [hs₂]
      cases result <;> exact he₂

end Join

/-- Computing an aggregate asks for pages only. -/
theorem aggregated_looks (a : Aggregation) (schema : Schema) (h : input.Looks)
    {S : Engine → Prop} (hsteady : Engine.Steady S) (place : AggregatePlace σ) {e : Engine}
    (he : S e) : S (input.aggregated a schema place e).2.1 := by
  have hk : Consumer.InStep (fun (groups same : Groups) e => same = groups ∧ S e)
      (gathering a schema) (gathering a schema) := by
    rintro groups _ row e ⟨rfl, he⟩ e' groups' signal hrow
    refine ⟨groups', hrow, rfl, ?_⟩
    unfold gathering at hrow
    split at hrow <;> cases hrow <;> exact he
  have hkeep : ∀ groups same : Groups, Engine.Steady fun e => same = groups ∧ S e :=
    fun _ _ _ _ _ hf h => ⟨h.1, hsteady hf h.2⟩
  obtain ⟨_, -, -, he'⟩ := h.run hkeep hk place.input ⟨@rfl _ a.empty, he⟩
  rcases hpass : input.run place.input e a.empty (gathering a schema)
    with ⟨inner, e', groups, verdict⟩
  rw [hpass] at he'
  rw [aggregated_eq hpass]
  cases verdict with
  | failed f => exact he'
  | stopped => cases hrows : groups.rows a.fn <;> simpa only [hrows] using he'
  | ended => cases hrows : groups.rows a.fn <;> simpa only [hrows] using he'

theorem looks_aggregate (a : Aggregation) (schema : Schema) (h : input.Looks) :
    (Source.aggregate a schema input).Looks where
  run := by
    intro β γ R k₁ k₂ _ hk place e acc b hr
    unfold Source.aggregate
    cases hp : place.results with
    | none => exact ⟨b, by simp only [hp], by simpa only [hp] using hr⟩
    | some rows =>
      rcases hf : k₁.feed rows acc e with ⟨left', e', a', signal⟩
      obtain ⟨b', hf₂, hr'⟩ := hk.feed rows hr hf
      simp only [hp, hf]
      exact ⟨b', by simp only [hf₂], hr'⟩
  start := by
    intro S hsteady place e he
    have he₁ := h.start hsteady place.input he
    simp only [Source.aggregate]
    rcases hs : input.start place.input e with ⟨inner, e₁, r⟩
    rw [hs] at he₁
    cases r with
    | error f => exact he₁
    | ok u => exact aggregated_looks a schema h hsteady _ he₁
  rewind := by
    intro S hsteady place e he
    have he₁ := h.rewind hsteady place.input he
    simp only [Source.aggregate]
    rcases hs : input.rewind place.input e with ⟨inner, e₁, r⟩
    rw [hs] at he₁
    cases r with
    | error f => exact he₁
    | ok u => exact aggregated_looks a schema h hsteady _ he₁

end Inputs

/-! ## 4. Plans -/

/-- **A plan that changes nothing only looks.** -/
theorem Plan.looks : ∀ {p : Plan}, p.ReadOnly → p.source.Looks
  | .rows _ list, _ => looks_rows list
  | .scan tx table _, _ => looks_scan tx table
  | .filter condition input, h => looks_filter condition (looks (p := input) h)
  | .join condition left right, h =>
    looks_join condition (looks (p := left) h.1) (looks (p := right) h.2)
  | .aggregate a input, h => looks_aggregate a input.schema (looks (p := input) h)

end RowStore
