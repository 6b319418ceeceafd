import RowStore.Proofs.Query.Typing

/-!
# Consumers that are tracked by others

An operator hands its rows to whoever consumes them and looks at nothing but the answers.  So if
two consumers answer alike and do the same to the engine, the operator comes to the same place with
both of them, whatever each of them collects.  This is said of every plan, also of those that change
tables while they run.

The consumers need not agree for ever.  One *tracks* the other (`Consumer.Tracks`) as long as
nothing the other has collected says that it is lost; nothing is said of what the first does after
that.  With it a run that only collects the rows says what a run that could have failed at one of
them does.

Main statement: `Plan.impartial`.
-/

namespace RowStore

/-! ## 1. Tracking -/

section Tracking

variable {σ β γ : Type} {R : β → γ → Prop} {Lost : γ → Prop} {k₁ : Consumer β} {k₂ : Consumer γ}

/-- **The first consumer tracks the second**: it answers alike and does the same to the engine, and
what the two have collected stays related, unless the second is lost, which it then stays. -/
structure Consumer.Tracks (R : β → γ → Prop) (Lost : γ → Prop) (k₁ : Consumer β)
    (k₂ : Consumer γ) : Prop where
  answer : ∀ {a : β} {b : γ} {row : Row} {e e' : Engine} {b' : γ} {signal : Signal}, R a b →
    k₂ b row e = (e', b', signal) → (∃ a', k₁ a row e = (e', a', signal) ∧ R a' b') ∨ Lost b'
  lost : ∀ {b : γ} {row : Row} {e e' : Engine} {b' : γ} {signal : Signal}, Lost b →
    k₂ b row e = (e', b', signal) → Lost b'

/-- The first pass has led where the second has, unless the second is lost. -/
def Pass.Tracks (R : β → γ → Prop) (Lost : γ → Prop) (p : Pass σ β) (q : Pass σ γ) : Prop :=
  (∃ a, p = ⟨q.place, q.engine, a, q.verdict⟩ ∧ R a q.collected) ∨ Lost q.collected

/-- **The operator is impartial**: with a consumer that tracks another it comes where it comes with
the other. -/
def Source.Impartial (s : Source σ) : Prop :=
  ∀ ⦃β γ : Type⦄ ⦃R : β → γ → Prop⦄ ⦃Lost : γ → Prop⦄ ⦃k₁ : Consumer β⦄ ⦃k₂ : Consumer γ⦄,
    Consumer.Tracks R Lost k₁ k₂ → ∀ (place : σ) (e : Engine) ⦃a : β⦄ ⦃b : γ⦄, R a b ∨ Lost b →
      Pass.Tracks R Lost (s.run place e a k₁) (s.run place e b k₂)

namespace Consumer.Tracks

/-- Once the second consumer is lost, nothing need be said of the first. -/
theorem lostOnly (h : Consumer.Tracks R Lost k₁ k₂) :
    Consumer.Tracks (fun _ _ => False) Lost k₁ k₂ where
  answer hr := hr.elim
  lost := h.lost

theorem step (h : Consumer.Tracks R Lost k₁ k₂) {a : β} {b : γ} (hab : R a b ∨ Lost b) {row : Row}
    {e e' : Engine} {b' : γ} {signal : Signal} (hk : k₂ b row e = (e', b', signal)) :
    (∃ a', k₁ a row e = (e', a', signal) ∧ R a' b') ∨ Lost b' :=
  hab.elim (fun hr => h.answer hr hk) fun hl => Or.inr (h.lost hl hk)

theorem feed : ∀ (rows : List Row) {R : β → γ → Prop}, Consumer.Tracks R Lost k₁ k₂ →
    ∀ {a : β} {b : γ} {e : Engine}, R a b ∨ Lost b →
    ∀ {left : List Row} {e' : Engine} {b' : γ} {signal : Signal},
    k₂.feed rows b e = (left, e', b', signal) →
    (∃ a', k₁.feed rows a e = (left, e', a', signal) ∧ R a' b') ∨ Lost b'
  | [], R, h, a, b, e, hab, left, e', b', signal, hf => by
    cases hf
    exact hab.imp_left fun hr => ⟨a, rfl, hr⟩
  | row :: rows, R, h, a, b, e, hab, left, e', b', signal, hf => by
    rcases hk : k₂ b row e with ⟨e₁, b₁, answer⟩
    rw [Consumer.feed, hk] at hf
    rcases h.step hab hk with ⟨a₁, hk₁, hr₁⟩ | hl
    · rw [Consumer.feed, hk₁]
      cases answer with
      | more => exact feed rows h (Or.inl hr₁) hf
      | stop =>
        cases hf
        exact Or.inl ⟨a₁, rfl, hr₁⟩
      | fail f =>
        cases hf
        exact Or.inl ⟨a₁, rfl, hr₁⟩
    · refine Or.inr ?_
      cases answer with
      | more =>
        rcases feed rows h.lostOnly (a := a) (Or.inr hl) hf with ⟨_, -, hr⟩ | hl'
        · exact hr.elim
        · exact hl'
      | stop =>
        cases hf
        exact hl
      | fail f =>
        cases hf
        exact hl

/-- Consumers that get some of the rows only track each other if those that get all do. -/
theorem some (h : Consumer.Tracks R Lost k₁ k₂) (keeps : Row → Bool) (change : Row → Row) :
    Consumer.Tracks R Lost
      (fun acc row e => if keeps row then k₁ acc (change row) e else (e, acc, .more))
      (fun acc row e => if keeps row then k₂ acc (change row) e else (e, acc, .more)) where
  answer {a b row e e' b' signal} hr hk := by
    by_cases hc : keeps row = true
    · simp only [hc, if_true] at hk ⊢
      exact h.answer hr hk
    · simp only [hc, Bool.false_eq_true, if_false] at hk ⊢
      cases hk
      exact Or.inl ⟨a, rfl, hr⟩
  lost {b row e e' b' signal} hl hk := by
    by_cases hc : keeps row = true
    · simp only [hc, if_true] at hk
      exact h.lost hl hk
    · simp only [hc, Bool.false_eq_true, if_false] at hk
      cases hk
      exact hl

end Consumer.Tracks

/-- A pass of a lost consumer has left it lost. -/
theorem Pass.Tracks.lost {p : Pass σ β} {q : Pass σ γ}
    (h : Pass.Tracks (fun _ _ => False) Lost p q) : Lost q.collected :=
  h.elim (fun hr => hr.elim fun _ hr => hr.2.elim) id

end Tracking

/-! ## 2. Leaves -/

section Leaves

variable {β γ : Type} {R : β → γ → Prop} {Lost : γ → Prop} {k₁ : Consumer β} {k₂ : Consumer γ}

theorem impartial_rows (rows : List Row) : (Source.ofRows rows).Impartial := by
  intro β γ R Lost k₁ k₂ hk place e a b hab
  cases place with
  | none => exact hab.imp_left fun hr => ⟨a, rfl, hr⟩
  | some left =>
    simp only [Source.ofRows]
    rcases hf : k₂.feed left b e with ⟨left', e', b', signal⟩
    rcases hk.feed left hab hf with ⟨a', hf₁, hr⟩ | hl
    · exact Or.inl ⟨a', by simp only [hf₁], hr⟩
    · exact Or.inr hl

theorem runPages_tracks (tx : Tx) (table : TableFile) : ∀ (n : Nat) {R : β → γ → Prop},
    Consumer.Tracks R Lost k₁ k₂ → ∀ (place : ScanPlace) (e : Engine) {a : β} {b : γ},
      R a b ∨ Lost b → Pass.Tracks R Lost (ScanPlace.runPages tx table k₁ n place e a)
        (ScanPlace.runPages tx table k₂ n place e b)
  | 0, R, hk, place, e, a, b, hab => hab.imp_left fun hr => ⟨a, rfl, hr⟩
  | n + 1, R, hk, place, e, a, b, hab => by
    simp only [ScanPlace.runPages]
    rcases e.fetch tx .read (table.pageId place.nextPage) with ⟨e₁, result⟩
    cases result with
    | error f => exact hab.imp_left fun hr => ⟨a, rfl, hr⟩
    | ok frame =>
      cases huse : frame.use with
      | error f =>
        simp only [huse]
        exact hab.imp_left fun hr => ⟨a, rfl, hr⟩
      | ok page =>
        simp only [huse]
        rcases hf : k₂.feed page.rows b e₁ with ⟨left, e', b', signal⟩
        rcases hk.feed page.rows hab hf with ⟨a', hf₁, hr⟩ | hl
        · rw [hf₁]
          cases signal with
          | more => exact runPages_tracks tx table n hk _ _ (Or.inl hr)
          | stop => exact Or.inl ⟨a', rfl, hr⟩
          | fail f => exact Or.inl ⟨a', rfl, hr⟩
        · refine Or.inr ?_
          cases signal with
          | more => exact (runPages_tracks tx table n hk.lostOnly _ _ (a := a) (Or.inr hl)).lost
          | stop => exact hl
          | fail f => exact hl

theorem run_tracks (tx : Tx) (table : TableFile) (hk : Consumer.Tracks R Lost k₁ k₂)
    (place : ScanPlace) (e : Engine) {a : β} {b : γ} (hab : R a b ∨ Lost b) :
    Pass.Tracks R Lost (ScanPlace.run tx table place e a k₁)
      (ScanPlace.run tx table place e b k₂) := by
  unfold ScanPlace.run
  cases hd : place.done with
  | true => exact hab.imp_left fun hr => ⟨a, rfl, hr⟩
  | false =>
    simp only [Bool.false_eq_true, if_false]
    rcases hf : k₂.feed place.pending b e with ⟨left, e', b', signal⟩
    rcases hk.feed place.pending hab hf with ⟨a', hf₁, hr⟩ | hl
    · rw [hf₁]
      cases signal with
      | more =>
        cases place.countPages table e'.disk with
        | error f => exact Or.inl ⟨a', rfl, hr⟩
        | ok count => exact runPages_tracks tx table _ hk _ _ (Or.inl hr)
      | stop => exact Or.inl ⟨a', rfl, hr⟩
      | fail f => exact Or.inl ⟨a', rfl, hr⟩
    · refine Or.inr ?_
      cases signal with
      | more =>
        cases place.countPages table e'.disk with
        | error f => exact hl
        | ok count => exact (runPages_tracks tx table _ hk.lostOnly _ _ (a := a) (Or.inr hl)).lost
      | stop => exact hl
      | fail f => exact hl

theorem impartial_scan (tx : Tx) (table : TableFile) : (Source.scan tx table).Impartial := by
  intro β γ R Lost k₁ k₂ hk place e a b hab
  cases place with
  | none => exact hab.imp_left fun hr => ⟨a, rfl, hr⟩
  | some place =>
    rcases run_tracks tx table hk place e hab with ⟨a', hrun, hr⟩ | hl
    · exact Or.inl ⟨a', by simp only [Source.scan, hrun], hr⟩
    · exact Or.inr hl

end Leaves

/-! ## 3. Operators with inputs -/

section Inputs

variable {σ ρ : Type} {input left : Source σ} {right : Source ρ}

theorem impartial_filter (condition : Condition) (h : input.Impartial) :
    (Source.filter condition input).Impartial := by
  intro β γ R Lost k₁ k₂ hk place e a b hab
  unfold Source.filter
  cases ho : place.opened with
  | false =>
    simp only [ho, Bool.false_eq_true, if_false]
    exact hab.imp_left fun hr => ⟨a, rfl, hr⟩
  | true =>
    simp only [ho, if_true]
    rcases h (hk.some condition.holds fun row => row) place.input e hab with ⟨a', hrun, hr⟩ | hl
    · exact Or.inl ⟨a', by simp only [hrun], hr⟩
    · exact Or.inr hl

section Join

variable {β γ : Type} {R : β → γ → Prop} {Lost : γ → Prop} {k₁ : Consumer β} {k₂ : Consumer γ}

/-- What is kept from one left row of a join to the next. -/
def JoinState.Tracks (R : β → γ → Prop) (s : JoinState ρ β) (t : JoinState ρ γ) : Prop :=
  ∃ a, s = ⟨a, t.right, t.current⟩ ∧ R a t.collected

theorem matchRow_tracks (condition : JoinCondition) (h : right.Impartial)
    (hk : Consumer.Tracks R Lost k₁ k₂) (outer : Row) (place : ρ) {a : β} {b : γ} {e : Engine}
    (hab : R a b ∨ Lost b) {e' : Engine} {t : JoinState ρ γ} {signal : Signal}
    (hm : right.matchRow condition k₂ outer place b e = (e', t, signal)) :
    (∃ s, right.matchRow condition k₁ outer place a e = (e', s, signal) ∧ JoinState.Tracks R s t)
      ∨ Lost t.collected := by
  have hrun := h (hk.some (condition.holds outer) outer.joined) place e hab
  unfold Source.matchRow at hm ⊢
  rcases hpass : right.run place e b (fun acc inner e =>
      if condition.holds outer inner then k₂ acc (outer.joined inner) e else (e, acc, .more))
    with ⟨place', e₁, b', verdict⟩
  rw [hpass] at hrun
  simp only [hpass] at hm
  -- what the second has collected is the same whichever way the matching ends
  have hcollected : t.collected = b' := by
    cases verdict with
    | stopped | failed f =>
      cases hm
      rfl
    | ended =>
      simp only at hm
      split at hm <;> cases hm <;> rfl
  rcases hrun with ⟨a', hrun, hr⟩ | hl
  · refine Or.inl ?_
    simp only [hrun]
    cases verdict with
    | stopped =>
      cases hm
      exact ⟨_, rfl, a', rfl, hr⟩
    | failed f =>
      cases hm
      exact ⟨_, rfl, a', rfl, hr⟩
    | ended =>
      rcases hrewind : right.rewind place' e₁ with ⟨again, e₂, r⟩
      simp only [hrewind] at hm ⊢
      cases r <;> cases hm <;> exact ⟨_, rfl, a', rfl, hr⟩
  · exact Or.inr (hcollected ▸ hl)

theorem matchRows_tracks (condition : JoinCondition) (hl : left.Impartial) (hr : right.Impartial)
    (hk : Consumer.Tracks R Lost k₁ k₂) (place : σ) {s : JoinState ρ β} {t : JoinState ρ γ}
    {e : Engine} (hst : JoinState.Tracks R s t ∨ Lost t.collected) :
    Pass.Tracks R Lost (left.matchRows condition right k₁ place s e)
      (left.matchRows condition right k₂ place t e) := by
  have hrows : Consumer.Tracks (JoinState.Tracks R) (fun t : JoinState ρ γ => Lost t.collected)
      (fun s outer e => right.matchRow condition k₁ outer s.right s.collected e)
      (fun t outer e => right.matchRow condition k₂ outer t.right t.collected e) := by
    refine ⟨?_, fun hlost hm => ?_⟩
    · rintro s t outer e e' t' signal ⟨a, rfl, hra⟩ hm
      exact matchRow_tracks condition hr hk outer t.right (Or.inl hra) hm
    · rcases matchRow_tracks condition hr hk.lostOnly _ _ (a := s.collected) (Or.inr hlost) hm with
        ⟨_, -, _, -, hf⟩ | hlost'
      · exact hf.elim
      · exact hlost'
  rcases hl hrows place e hst with ⟨_, hrun, a', rfl, hra⟩ | hlost
  · exact Or.inl ⟨a', by unfold Source.matchRows; rw [hrun], hra⟩
  · exact Or.inr hlost

theorem impartial_join (condition : JoinCondition) (hl : left.Impartial) (hr : right.Impartial) :
    (Source.join condition left right).Impartial := by
  intro β γ R Lost k₁ k₂ hk place e a b hab
  unfold Source.join
  cases ho : place.opened with
  | false =>
    simp only [ho, Bool.false_eq_true, if_false]
    exact hab.imp_left fun hra => ⟨a, rfl, hra⟩
  | true =>
    simp only [ho, if_true]
    cases hc : place.current with
    | none =>
      exact matchRows_tracks condition hl hr hk place.left
        (hab.imp_left fun hra => ⟨a, rfl, hra⟩)
    | some outer =>
      rcases hm : right.matchRow condition k₂ outer place.right b e with ⟨e', t, signal⟩
      have htracks := matchRow_tracks condition hr hk outer place.right hab hm
      simp only [hm]
      rcases htracks with ⟨s, hm₁, hst⟩ | hlost
      · simp only [hm₁]
        cases signal with
        | more => exact matchRows_tracks condition hl hr hk place.left (Or.inl hst)
        | stop | fail f =>
          obtain ⟨a', rfl, hra⟩ := hst
          exact Or.inl ⟨a', rfl, hra⟩
      · refine Or.inr ?_
        cases signal with
        | more =>
          exact (matchRows_tracks condition hl hr hk.lostOnly place.left
            (s := ⟨a, t.right, t.current⟩) (Or.inr hlost)).lost
        | stop | fail f => exact hlost

end Join

theorem impartial_aggregate (a : Aggregation) (schema : Schema) :
    (Source.aggregate a schema input).Impartial := by
  intro β γ R Lost k₁ k₂ hk place e acc b hab
  unfold Source.aggregate
  cases hp : place.results with
  | none =>
    simp only [hp]
    exact hab.imp_left fun hr => ⟨acc, rfl, hr⟩
  | some rows =>
    simp only [hp]
    rcases hf : k₂.feed rows b e with ⟨left', e', b', signal⟩
    rcases hk.feed rows hab hf with ⟨a', hf₁, hr⟩ | hl
    · exact Or.inl ⟨a', by simp only [hf₁], hr⟩
    · exact Or.inr hl

/-- A change runs its input with a consumer of its own, so it is impartial whatever its input. -/
theorem impartial_change (kind : OperatorKind)
    (apply : Row → Engine → Engine × Except Failure Unit) :
    (Source.change kind apply input).Impartial := by
  intro β γ R Lost k₁ k₂ hk place e a b hab
  cases ho : place.opened with
  | false =>
    simp only [Source.change, ho, Bool.false_eq_true, if_false]
    exact hab.imp_left fun hr => ⟨a, rfl, hr⟩
  | true =>
    cases hd : place.done with
    | true =>
      simp only [Source.change, ho, hd, if_true]
      exact hab.imp_left fun hr => ⟨a, rfl, hr⟩
    | false =>
      rcases hpass : input.run place.input e 0 (Consumer.changing apply)
        with ⟨inner, e₁, n, verdict⟩
      rw [change_run hpass ho hd, change_run hpass ho hd]
      cases verdict with
      | failed f => exact hab.imp_left fun hr => ⟨a, rfl, hr⟩
      | stopped | ended =>
        rcases hrow : k₂ b (Source.countRow n) e₁ with ⟨e', b', signal⟩
        rcases hk.step hab hrow with ⟨a', hk₁, hr⟩ | hl
        · exact Or.inl ⟨a', by simp only [hk₁], hr⟩
        · exact Or.inr hl

end Inputs

/-! ## 4. Plans -/

/-- **Every plan is impartial.** -/
theorem Plan.impartial : ∀ p : Plan, p.source.Impartial
  | .rows _ list => impartial_rows list
  | .scan tx table _ => impartial_scan tx table
  | .filter condition input => impartial_filter condition (impartial input)
  | .join condition left right => impartial_join condition (impartial left) (impartial right)
  | .aggregate a input => impartial_aggregate a input.schema
  | .insert .. => impartial_change _ _
  | .delete .. => impartial_change _ _

end RowStore
