import RowStore.Proofs.Query.Partitioning

/-!
# Aggregates and the order of rows

An aggregate gives one answer for the same rows in two orders, unless it adds up: a sum is checked
integer by integer, so it can leave the range of 64-bit integers on the way in one order and stay
inside in the other.  What depends on the order is that, and nothing else.

* **Sums**: every sublist of some integers adds up to something between the sum of those below zero
  and the sum of those above (`Value.total_within`).  If the sum of all is in the range, they can be
  put in an order in which all partial sums are (`AggregateFn.exists_next` finds the next one).
* **Groups**: a row moves in the order of its own group only, so one order suits all groups
  (`Aggregation.exists_order`), and the ones above zero can be put before the others in all of them
  (`Aggregation.exists_ahead`).

Main statement: `Plan.aggregate_reordered`, what two plans that hand out the same rows in two orders
make of them, and for which rows no order matters.
-/

namespace RowStore

/-! ## 1. Sums in another order -/

namespace Value

/-- The integers above zero among some values. -/
def gains (values : List Value) : List Value := values.filter fun v => 0 < total [v]

/-- The integers below zero among some values. -/
def losses (values : List Value) : List Value := values.filter fun v => total [v] < 0

theorem total_cons (v : Value) (values : List Value) :
    total (v :: values) = total [v] + total values := by
  cases v <;> simp only [total, Int.add_zero, Int.zero_add]

/-- **The sum does not depend on the order.** -/
theorem total_perm {left right : List Value} (h : left.Perm right) : total left = total right := by
  induction h with
  | nil => rfl
  | cons v _ ih => rw [total_cons, ih, ← total_cons]
  | swap v w rest =>
    rw [total_cons w (v :: rest), total_cons v rest, total_cons v (w :: rest), total_cons w rest,
      Int.add_left_comm]
  | trans _ _ ih ih' => exact ih.trans ih'

theorem total_nonneg {values : List Value} (h : ∀ v ∈ values, 0 ≤ total [v]) :
    0 ≤ total values := by
  induction values with
  | nil => exact Int.le_refl 0
  | cons v values ih =>
    obtain ⟨hv, hrest⟩ := List.forall_mem_cons.mp h
    rw [total_cons]
    exact Int.add_nonneg hv (ih hrest)

theorem total_nonpos {values : List Value} (h : ∀ v ∈ values, total [v] ≤ 0) :
    total values ≤ 0 := by
  induction values with
  | nil => exact Int.le_refl 0
  | cons v values ih =>
    obtain ⟨hv, hrest⟩ := List.forall_mem_cons.mp h
    rw [total_cons]
    exact Int.add_nonpos hv (ih hrest)

theorem total_gains_cons (v : Value) (values : List Value) :
    total (gains (v :: values)) = max 0 (total [v]) + total (gains values) := by
  unfold gains
  rw [List.filter_cons]
  by_cases h : 0 < total [v]
  · rw [if_pos (decide_eq_true h), total_cons, Int.max_eq_right (Int.le_of_lt h)]
  · rw [if_neg (by simpa using h), Int.max_eq_left (Int.not_lt.mp h), Int.zero_add]

theorem total_losses_cons (v : Value) (values : List Value) :
    total (losses (v :: values)) = min 0 (total [v]) + total (losses values) := by
  unfold losses
  rw [List.filter_cons]
  by_cases h : total [v] < 0
  · rw [if_pos (decide_eq_true h), total_cons, Int.min_eq_right (Int.le_of_lt h)]
  · rw [if_neg (by simpa using h), Int.min_eq_left (Int.not_lt.mp h), Int.zero_add]

/-- **Leaving values out** of a sum takes it at most down to the losses or up to the gains. -/
theorem total_within {part whole : List Value} (h : part.Sublist whole) :
    total (losses whole) ≤ total part ∧ total part ≤ total (gains whole) := by
  induction h with
  | slnil => exact ⟨Int.le_refl 0, Int.le_refl 0⟩
  | cons v _ ih =>
    rw [total_losses_cons, total_gains_cons]
    omega
  | @cons_cons part whole v _ ih =>
    rw [total_losses_cons, total_gains_cons, total_cons v part]
    omega

end Value

namespace AggregateFn

/-- The function adds up. -/
def Sums (fn : AggregateFn) : Prop := fn = sum ∨ fn = avg

instance (fn : AggregateFn) : Decidable fn.Sums := inferInstanceAs (Decidable (_ ∨ _))

variable {fn : AggregateFn} {type : ColumnType} {values values' : List Value}

/-- The amount of one integer has 64 bits. -/
theorem fits_of_int64 {v : Value} (h : v.fits .int64) : Int64Fits (Value.total [v]) := by
  obtain ⟨n, rfl⟩ := Value.fits_int64_iff.mp h
  rw [Value.total, Value.total, Int.add_zero]
  exact ⟨Int64.minValue_le_toInt n, Int64.toInt_le n⟩

/-- **There is an integer to go on with** as long as what was added up so far and the sum of all
are in the range: one below zero if the sum so far is not, one above otherwise, unless all of them
lead the same way. -/
theorem exists_next {acc : Int} (hv : ∀ v ∈ values, v.fits .int64) (hne : values ≠ [])
    (hacc : Int64Fits acc) (htotal : Int64Fits (acc + Value.total values)) :
    ∃ v ∈ values, Int64Fits (acc + Value.total [v]) := by
  by_contra hnone
  have hout : ∀ v ∈ values, ¬ Int64Fits (acc + Value.total [v]) := fun v hm hfit =>
    hnone ⟨v, hm, hfit⟩
  obtain ⟨first, rest, rfl⟩ := List.exists_cons_of_ne_nil hne
  obtain ⟨hfirst, hrest⟩ := List.forall_mem_cons.mp hout
  have hamount : ∀ v ∈ first :: rest, Int64Fits (Value.total [v]) := fun v hm =>
    fits_of_int64 (hv v hm)
  have hamountFirst := hamount first List.mem_cons_self
  have hlo : Int64.minValue.toInt = -9223372036854775808 := by decide
  have hhi : Int64.maxValue.toInt = 9223372036854775807 := by decide
  rw [Value.total_cons] at htotal
  simp only [Int64Fits, hlo, hhi] at *
  by_cases hsign : 0 ≤ acc
  · -- the sum of the rest only adds to what is too much with the first one
    have hmore : 0 ≤ Value.total rest := by
      refine Value.total_nonneg fun v hm => ?_
      have := hrest v hm
      have := hamount v (List.mem_cons_of_mem _ hm)
      omega
    omega
  · have hless : Value.total rest ≤ 0 := by
      refine Value.total_nonpos fun v hm => ?_
      have := hrest v hm
      have := hamount v (List.mem_cons_of_mem _ hm)
      omega
    omega

/-- **What a function of some values is** is one thing, in whatever order they come. -/
theorem Yields.eq_of_perm {v w : Int64} (hfn : fn ≠ count) (hperm : values.Perm values')
    (hv : fn.Yields values v) (hw : fn.Yields values' w) : v = w := by
  refine Int64.toInt_inj.mp ?_
  cases fn with
  | count => exact absurd rfl hfn
  | sum => exact hv.trans ((Value.total_perm hperm).trans hw.symm)
  | avg => rw [hv.2, hw.2, Value.total_perm hperm, hperm.length_eq]
  | min => exact Int.le_antisymm (hv.2 w (hperm.mem_iff.mpr hw.1)) (hw.2 v (hperm.mem_iff.mp hv.1))
  | max => exact Int.le_antisymm (hw.2 v (hperm.mem_iff.mp hv.1)) (hv.2 w (hperm.mem_iff.mpr hw.1))

/-- **A function of some values** gives the same in two orders if it is defined in both. -/
theorem compute_eq_of_perm (hfn : fn = count ∨ type = .int64) (hv : ∀ v ∈ values, v.fits type)
    (hperm : values.Perm values') (hd : fn.Defined values) (hd' : fn.Defined values') :
    fn.compute values = fn.compute values' := by
  by_cases hcount : fn = count
  · rw [compute, compute, if_pos hcount, if_pos hcount, hperm.length_eq]
  · obtain ⟨v?, hv?, hyields, hsome⟩ := compute_of_defined hfn hv hd
    obtain ⟨w?, hw?, hyields', hsome'⟩ := compute_of_defined hfn
      (fun v hm => hv v (hperm.mem_iff.mpr hm)) hd'
    have hboth : v?.isSome ↔ w?.isSome := by
      rw [hsome, hsome', ne_eq, ne_eq, ← List.length_eq_zero_iff, ← List.length_eq_zero_iff,
        hperm.length_eq]
    rw [hv?, hw?]
    cases v? with
    | none =>
      cases w? with
      | none => rfl
      | some w => exact absurd (hboth.mpr rfl) (by simp)
    | some v =>
      cases w? with
      | none => exact absurd (hboth.mp rfl) (by simp)
      | some w => rw [Yields.eq_of_perm hcount hperm (hyields v rfl) (hyields' w rfl)]

end AggregateFn

/-! ## 2. Groups in another order -/

namespace Aggregation

/-- **The exact sum of every group has 64 bits**, if the function adds up. -/
def TotalsFit (a : Aggregation) (rows : List Row) : Prop :=
  a.fn.Sums → ∀ key, AggregateFn.Int64Fits (Value.total (a.cells key rows))

/-- **The gains of every group add up to 64 bits, and so do the losses**, if the function adds
up. -/
def SidesFit (a : Aggregation) (rows : List Row) : Prop :=
  a.fn.Sums → ∀ key, AggregateFn.Int64Fits (Value.total (Value.gains (a.cells key rows)))
    ∧ AggregateFn.Int64Fits (Value.total (Value.losses (a.cells key rows)))

variable {a : Aggregation} {schema schema' : Schema} {column column' : Column}
  {rows rows' : List Row}

theorem cells_cons {row : Row} {v : Value} (hv : row.values[a.column]? = some v)
    (key : Option Value) (rows : List Row) : a.cells key (row :: rows)
      = if a.keyAt row = key then v :: a.cells key rows else a.cells key rows := by
  unfold cells
  rw [List.filter_cons]
  simp only [decide_eq_true_eq]
  split
  · rw [List.filterMap_cons, hv]
  · rfl

theorem cells_append (key : Option Value) (left right : List Row) :
    a.cells key (left ++ right) = a.cells key left ++ a.cells key right := by
  unfold cells
  rw [List.filter_append, List.filterMap_append]

/-- The cells of a group depend on the values of the rows only. -/
theorem cells_eq (key : Option Value) (rows : List Row) : a.cells key rows
    = (rows.map Row.values).filterMap fun values =>
        if a.keyAt ⟨values, none⟩ = key then values[a.column]? else none := by
  unfold cells
  induction rows with
  | nil => rfl
  | cons row rows ih =>
    rw [List.filter_cons, List.map_cons, List.filterMap_cons, ← ih]
    have hkey : a.keyAt ⟨row.values, none⟩ = a.keyAt row := rfl
    rw [hkey]
    by_cases hk : a.keyAt row = key
    · simp only [hk, decide_true, if_true, List.filterMap_cons]
    · simp only [hk, decide_false, Bool.false_eq_true, if_false]

/-- **Every group has the same cells** in two orders. -/
theorem cells_perm (h : (rows.map Row.values).Perm (rows'.map Row.values)) (key : Option Value) :
    (a.cells key rows).Perm (a.cells key rows') := by
  rw [cells_eq, cells_eq]
  exact h.filterMap _

/-- There are the same keys in two orders. -/
theorem exists_key_iff (h : (rows.map Row.values).Perm (rows'.map Row.values))
    (key : Option Value) :
    (∃ row ∈ rows, a.keyAt row = key) ↔ ∃ row ∈ rows', a.keyAt row = key := by
  have hkeys : (rows.map a.keyAt).Perm (rows'.map a.keyAt) := by
    have hmap := h.map fun values => a.keyAt ⟨values, none⟩
    rwa [List.map_map, List.map_map] at hmap
  rw [← List.mem_map, ← List.mem_map]
  exact hkeys.mem_iff

/-- **The exact sums are those of the other order.** -/
theorem totalsFit_iff (h : (rows.map Row.values).Perm (rows'.map Row.values)) :
    a.TotalsFit rows ↔ a.TotalsFit rows' := by
  unfold TotalsFit
  simp only [Value.total_perm (cells_perm h _)]

/-- Without a partial sum outside the range there is no sum outside the range. -/
theorem Defined.totalsFit (hd : a.Defined rows) : a.TotalsFit rows := by
  intro hsums key
  have hlast := hd.cells key hsums (a.cells key rows).length (Nat.le_refl _)
  rwa [List.take_length] at hlast

/-- A function that does not add up is defined in every order. -/
theorem defined_of_not_sums (h : ¬ a.fn.Sums) (rows : List Row) : a.Defined rows :=
  fun _ _ hsums => absurd hsums h

/-- **The result is the same in two orders** if no partial sum leaves the range in either. -/
theorem result_eq_of_perm (hs : a.Suits schema column) (hs' : a.Suits schema' column')
    (hfit : ∀ row ∈ rows, row.fits schema) (hfit' : ∀ row ∈ rows', row.fits schema')
    (hperm : (rows.map Row.values).Perm (rows'.map Row.values))
    (hd : a.Defined rows) (hd' : a.Defined rows') :
    a.result schema rows = a.result schema' rows' := by
  have hkeys : a.keysOf (a.pairs rows) = a.keysOf (a.pairs rows') := by
    refine ascending_keysOf.ext ascending_keysOf fun key => ?_
    rw [hs.mem_keysOf hfit, hs'.mem_keysOf hfit', exists_key_iff hperm]
  have hvalues : ∀ key, a.groupRow key (a.cells key rows) = a.groupRow key (a.cells key rows') := by
    intro key
    have hcompute := AggregateFn.compute_eq_of_perm hs.computes (hs.fits_cells hfit)
      (cells_perm hperm key) (hd.cells key) (hd'.cells key)
    rw [groupRow, groupRow, hcompute]
  rw [result_eq_mapM hs hfit, result_eq_mapM hs' hfit', hkeys]
  simp only [hvalues]

/-! ## 3. Which orders there are -/

/-- **There is an order in which all partial sums are in the range**, of all groups at once, if the
sums of all rows are.  By induction on the number of rows that have no place in it yet; `acc` is
what the rows before them add up to, group by group. -/
theorem exists_order (n : Nat) (rows : List Row) (acc : Option Value → Int)
    (hn : rows.length = n)
    (hcells : ∀ row ∈ rows, ∃ v, row.values[a.column]? = some v ∧ v.fits .int64)
    (hacc : ∀ key, AggregateFn.Int64Fits (acc key))
    (htotals : ∀ key, AggregateFn.Int64Fits (acc key + Value.total (a.cells key rows))) :
    ∃ order, rows.Perm order ∧ ∀ key, ∀ m ≤ (a.cells key order).length,
      AggregateFn.Int64Fits (acc key + Value.total ((a.cells key order).take m)) := by
  induction n generalizing rows acc with
  | zero =>
    obtain rfl := List.length_eq_zero_iff.mp hn
    refine ⟨[], List.Perm.refl _, fun key m _ => ?_⟩
    have hnil : (a.cells key []).take m = [] := List.take_nil
    rw [hnil, Value.total, Int.add_zero]
    exact hacc key
  | succ n ih =>
    -- the next row of the group of the first one
    obtain ⟨first, rest, rfl⟩ := List.exists_cons_of_length_eq_add_one hn
    obtain ⟨w, hw, -⟩ := hcells first List.mem_cons_self
    have hne : a.cells (a.keyAt first) (first :: rest) ≠ [] := by
      rw [cells_cons hw, if_pos rfl]
      exact List.cons_ne_nil _ _
    have hints : ∀ v ∈ a.cells (a.keyAt first) (first :: rest), v.fits .int64 := by
      intro v hm
      obtain ⟨row, hrow, hv⟩ := List.mem_filterMap.mp hm
      obtain ⟨v', hv', hfits⟩ := hcells row (List.mem_filter.mp hrow).1
      cases hv'.symm.trans hv
      exact hfits
    obtain ⟨v, hm, hnext⟩ := AggregateFn.exists_next hints hne (hacc _) (htotals _)
    obtain ⟨row, hrow, hv⟩ := List.mem_filterMap.mp hm
    obtain ⟨hrow, hkey⟩ := List.mem_filter.mp hrow
    have hkey : a.keyAt row = a.keyAt first := of_decide_eq_true hkey
    -- all others come behind it
    obtain ⟨before, behind, hsplit⟩ := List.append_of_mem hrow
    have hperm : (first :: rest).Perm (row :: (before ++ behind)) := by
      rw [hsplit]
      exact List.perm_middle
    have htotal : ∀ key, Value.total (a.cells key (first :: rest))
        = Value.total (if a.keyAt row = key then v :: a.cells key (before ++ behind)
            else a.cells key (before ++ behind)) := by
      intro key
      rw [← cells_cons hv]
      exact Value.total_perm (cells_perm (hperm.map Row.values) key)
    obtain ⟨order, horder, hsums⟩ := ih (before ++ behind)
      (fun key => if a.keyAt row = key then acc key + Value.total [v] else acc key)
      (by
        have hlength := hperm.length_eq
        rw [hn, List.length_cons] at hlength
        exact (Nat.succ.inj hlength).symm)
      (fun other hother => hcells other (hperm.mem_iff.mpr (List.mem_cons_of_mem _ hother)))
      (fun key => by
        split
        · rename_i hk
          rw [← hk, hkey]
          exact hnext
        · exact hacc key)
      (fun key => by
        have hfits := htotals key
        rw [htotal key] at hfits
        split
        · rename_i hk
          rwa [if_pos hk, Value.total_cons, ← Int.add_assoc] at hfits
        · rename_i hk
          rwa [if_neg hk] at hfits)
    refine ⟨row :: order, hperm.trans (horder.cons row), fun key m hle => ?_⟩
    have hgroup := hsums key
    rw [cells_cons hv] at hle ⊢
    by_cases hk : a.keyAt row = key
    · rw [if_pos hk] at hle ⊢
      rw [if_pos hk] at hgroup
      cases m with
      | zero =>
        rw [List.take_zero, Value.total, Int.add_zero]
        exact hacc key
      | succ m =>
        rw [List.take_succ_cons, Value.total_cons, ← Int.add_assoc]
        exact hgroup m (Nat.le_of_succ_le_succ hle)
    · rw [if_neg hk] at hle ⊢
      rw [if_neg hk] at hgroup
      exact hgroup m hle

/-- **Some order suits** exactly if the exact sums fit. -/
theorem exists_defined_iff (hs : a.Suits schema column) (hfit : ∀ row ∈ rows, row.fits schema) :
    (∃ order, rows.Perm order ∧ a.Defined order) ↔ a.TotalsFit rows := by
  constructor
  · rintro ⟨order, hperm, hd⟩
    exact (totalsFit_iff (hperm.map Row.values)).mpr hd.totalsFit
  · intro htotals
    by_cases hsums : a.fn.Sums
    · have hint : column.type = .int64 := by
        refine hs.computes.resolve_left fun hcount => ?_
        rcases hsums with he | he <;> rw [hcount] at he <;> cases he
      have hcells : ∀ row ∈ rows, ∃ v, row.values[a.column]? = some v ∧ v.fits .int64 := by
        intro row hrow
        obtain ⟨v, hv, hfits, -⟩ := hs.keyed (hfit row hrow)
        exact ⟨v, hv, hint ▸ hfits⟩
      obtain ⟨order, hperm, hpartial⟩ := exists_order rows.length rows (fun _ => 0) rfl hcells
        (fun _ => by decide) (fun key => by rw [Int.zero_add]; exact htotals hsums key)
      refine ⟨order, hperm, fun row _ _ n hn => ?_⟩
      have hfits := hpartial (a.keyAt row) n hn
      rwa [Int.zero_add] at hfits
    · exact ⟨rows, List.Perm.refl _, defined_of_not_sums hsums rows⟩

/-- The cells of a group that pass a test are those of the rows whose cells do. -/
theorem cells_filter (q : Value → Bool) (key : Option Value) (rows : List Row) :
    a.cells key (rows.filter fun row => (row.values[a.column]?).any q)
      = (a.cells key rows).filter q := by
  unfold cells
  rw [List.filter_filterMap, List.filter_filter]
  induction rows with
  | nil => rfl
  | cons row rows ih =>
    rw [List.filter_cons, List.filter_cons]
    by_cases hk : a.keyAt row = key
    · cases hv : row.values[a.column]? with
      | none => simpa [hk, hv] using ih
      | some v =>
        cases hq : q v <;>
          simpa [hk, hv, hq, List.filterMap_cons, Option.filter_some] using ih
    · simpa [hk] using ih

/-- **Some values first**: an order in which those that pass a test come before the others, in
every group. -/
theorem exists_ahead (a : Aggregation) (q : Value → Bool) (rows : List Row) :
    ∃ order, rows.Perm order ∧ ∀ key, (a.cells key rows).filter q <+: a.cells key order := by
  refine ⟨_, (List.filter_append_perm (fun row => (row.values[a.column]?).any q) rows).symm,
    fun key => ?_⟩
  rw [cells_append, cells_filter]
  exact List.prefix_append ..

/-- **Every order suits** exactly if the gains of each group fit, and its losses do. -/
theorem forall_defined_iff :
    (∀ order, rows.Perm order → a.Defined order) ↔ a.SidesFit rows := by
  constructor
  · intro hall hsums key
    -- what comes first in some order is one of its partial sums
    have hfirst : ∀ q : Value → Bool,
        AggregateFn.Int64Fits (Value.total ((a.cells key rows).filter q)) := by
      intro q
      obtain ⟨order, hperm, hahead⟩ := a.exists_ahead q rows
      have hfits := (hall order hperm).cells key hsums _ (hahead key).length_le
      rwa [← List.prefix_iff_eq_take.mp (hahead key)] at hfits
    exact ⟨hfirst _, hfirst _⟩
  · intro hsides order hperm row hrow hsums n hn
    obtain ⟨⟨-, hgains⟩, hlosses, -⟩ := hsides hsums (a.keyAt row)
    have hcells := cells_perm (a := a) (hperm.map Row.values) (a.keyAt row)
    have hsame : Value.total (Value.gains (a.cells (a.keyAt row) rows))
        = Value.total (Value.gains (a.cells (a.keyAt row) order)) :=
      Value.total_perm (hcells.filter _)
    have hsame' : Value.total (Value.losses (a.cells (a.keyAt row) rows))
        = Value.total (Value.losses (a.cells (a.keyAt row) order)) :=
      Value.total_perm (hcells.filter _)
    rw [hsame] at hgains
    rw [hsame'] at hlosses
    obtain ⟨hlow, hhigh⟩ := Value.total_within (List.take_sublist n (a.cells (a.keyAt row) order))
    exact ⟨Int.le_trans hlosses hlow, Int.le_trans hhigh hgains⟩

end Aggregation

/-! ## 4. Opening and draining -/

/-- **What comes of opening an operator and draining it**: all rows, or the failure. -/
def Source.outcome {σ : Type} (s : Source σ) (place : σ) (e : Engine) :
    Except Failure (List Row) :=
  match s.start place e with
  | (_, _, .error f) => .error f
  | (opened, e, .ok _) =>
    match s.drain opened e with
    | (_, _, _, .error f) => .error f
    | (_, _, rows, .ok _) => .ok rows

/-- What hands out rows can be opened and drained. -/
theorem Source.drained_of_outcome {σ : Type} {s : Source σ} {place : σ} {e : Engine}
    {rows : List Row} (h : s.outcome place e = .ok rows) : ∃ opened e₁ drained e₂,
      s.start place e = (opened, e₁, .ok ()) ∧ s.drain opened e₁ = (drained, e₂, rows, .ok ()) := by
  unfold Source.outcome at h
  split at h
  · cases h
  · rename_i opened e₁ _ hstart
    split at h
    · cases h
    · rename_i drained e₂ _ _ hdrain
      cases h
      exact ⟨opened, e₁, drained, e₂, hstart, hdrain⟩

/-- **The outcome of an aggregate** over an input that hands out rows of its schema is their
result. -/
theorem outcome_aggregate {σ : Type} {a : Aggregation} {schema : Schema} {column : Column}
    {input : Source σ} {rows : List Row} (hs : a.Suits schema column)
    (himpartial : input.Impartial) {place : AggregatePlace σ} {e : Engine}
    (hrows : input.outcome place.input e = .ok rows) (hfit : ∀ row ∈ rows, row.fits schema) :
    (Source.aggregate a schema input).outcome place e = a.result schema rows := by
  obtain ⟨opened, e₁, drained, e₂, hstart, hdrain⟩ := Source.drained_of_outcome hrows
  obtain ⟨hok, herror⟩ := start_aggregate hs himpartial hstart hdrain hfit
  unfold Source.outcome
  cases hresult : a.result schema rows with
  | error f => rw [herror f hresult]
  | ok list =>
    rw [hok list hresult]
    simp only [drain_aggregate]

/-- The rows of a list are handed out as they are. -/
theorem outcome_ofRows (rows : List Row) (place : Option (List Row)) (e : Engine) :
    (Source.ofRows rows).outcome place e = .ok rows := by
  have hfeed : Consumer.feed (fun rows row e => (e, row :: rows, Signal.more)) rows [] e
      = ([], e, rows.reverse ++ [], .more) := Consumer.feed_collect rows [] e
  simp only [Source.outcome, Source.ofRows, Source.drain, hfeed, Signal.verdict, List.append_nil,
    List.reverse_reverse]

/-- **The outcome for a list of rows**: that of the aggregate over a plan that hands them out. -/
def Aggregation.over (a : Aggregation) (schema : Schema) (rows : List Row) (e : Engine) :
    Except Failure (List Row) :=
  (Plan.aggregate a (.rows schema rows)).source.outcome ⟨none, none⟩ e

/-- **Two outcomes for the same rows in two orders.** -/
structure Aggregation.Reorders (a : Aggregation) (rows rows' : List Row)
    (outcome outcome' : Except Failure (List Row)) : Prop where
  /-- The results are the same if there are two. -/
  same : ∀ list list', outcome = .ok list → outcome' = .ok list' → list = list'
  /-- There is none only because a partial sum in that order leaves the range. -/
  fails : ∀ f, outcome = .error f ↔ f = .sumOverflow ∧ ¬ a.Defined rows
  fails' : ∀ f, outcome' = .error f ↔ f = .sumOverflow ∧ ¬ a.Defined rows'
  /-- A function that does not add up has both. -/
  unsummed : ¬ a.fn.Sums → ∃ list, outcome = .ok list ∧ outcome' = .ok list
  /-- There is neither if the exact sum of a group is out of the range. -/
  beyond : ¬ a.TotalsFit rows → outcome = .error .sumOverflow ∧ outcome' = .error .sumOverflow
  /-- There are both if no sum of some of the integers of a group can leave the range. -/
  within : a.SidesFit rows → ∃ list, outcome = .ok list ∧ outcome' = .ok list

section Outcomes

variable {a : Aggregation} {schema schema' : Schema} {column column' : Column}
  {rows rows' : List Row}

theorem Aggregation.Suits.result_error_iff (hs : a.Suits schema column)
    (hfit : ∀ row ∈ rows, row.fits schema) (f : Failure) :
    a.result schema rows = .error f ↔ f = .sumOverflow ∧ ¬ a.Defined rows := by
  by_cases hd : a.Defined rows
  · rw [(hs.partitions hfit hd).2]
    constructor
    · intro h
      cases h
    · rintro ⟨-, hnot⟩
      exact absurd hd hnot
  · rw [hs.result_of_not_defined hfit hd]
    constructor
    · intro h
      exact ⟨(Except.error.inj h).symm, hd⟩
    · rintro ⟨rfl, -⟩
      rfl

/-- **The results of the same rows in two orders.** -/
theorem Aggregation.reorders (hs : a.Suits schema column) (hs' : a.Suits schema' column')
    (hfit : ∀ row ∈ rows, row.fits schema) (hfit' : ∀ row ∈ rows', row.fits schema')
    (hperm : (rows.map Row.values).Perm (rows'.map Row.values)) :
    a.Reorders rows rows' (a.result schema rows) (a.result schema' rows') := by
  have hboth : a.Defined rows → a.Defined rows' →
      ∃ list, a.result schema rows = .ok list ∧ a.result schema' rows' = .ok list := by
    intro hd hd'
    rw [← result_eq_of_perm hs hs' hfit hfit' hperm hd hd']
    exact ⟨_, (hs.partitions hfit hd).2, (hs.partitions hfit hd).2⟩
  have hdefined : ∀ {schema : Schema} {column : Column} {rows : List Row} {list : List Row},
      a.Suits schema column → (∀ row ∈ rows, row.fits schema) →
      a.result schema rows = .ok list → a.Defined rows := by
    intro schema column rows list hs hfit h
    by_contra hd
    rw [hs.result_of_not_defined hfit hd] at h
    cases h
  refine ⟨?same, hs.result_error_iff hfit, hs'.result_error_iff hfit', ?unsummed, ?beyond, ?within⟩
  case same =>
    intro list list' h h'
    obtain ⟨both, hlist, hlist'⟩ := hboth (hdefined hs hfit h) (hdefined hs' hfit' h')
    rw [hlist] at h
    rw [hlist'] at h'
    exact (Except.ok.inj h).symm.trans (Except.ok.inj h')
  case unsummed =>
    intro hsums
    exact hboth (defined_of_not_sums hsums rows) (defined_of_not_sums hsums rows')
  case beyond =>
    intro htotals
    constructor
    · exact hs.result_of_not_defined hfit fun hd => htotals hd.totalsFit
    · exact hs'.result_of_not_defined hfit' fun hd =>
        htotals ((totalsFit_iff hperm).mpr hd.totalsFit)
  case within =>
    intro hsides
    have hall := forall_defined_iff.mpr hsides
    refine hboth (hall rows (List.Perm.refl _)) fun row hrow hsums => ?_
    -- `rows'` has the cells of `rows`, so its gains and losses are the same
    have hsides' : a.SidesFit rows' := by
      intro hsums key
      have hcells := cells_perm (a := a) hperm key
      obtain ⟨hgains, hlosses⟩ := hsides hsums key
      unfold Value.gains at hgains ⊢
      unfold Value.losses at hlosses ⊢
      rw [← Value.total_perm (hcells.filter _), ← Value.total_perm (hcells.filter _)]
      exact ⟨hgains, hlosses⟩
    exact forall_defined_iff.mpr hsides' rows' (List.Perm.refl _) row hrow hsums

end Outcomes

/-- **An aggregate over the same rows in two orders.**  Whatever plans hand them out, two results
are the same, and the only failure is a partial sum that leaves the range of 64-bit integers in its
own order.  So there are both results for a count, a least and a greatest one, and no result of a
sum or an average if the exact sum of some group is out of the range.  If all exact sums are in the
range, there is a result for some order of the rows.  The outcome is the same for all orders exactly
if it is a failure for that reason, or the integers above zero of each group add up to one in the
range, and those below zero too. -/
theorem Plan.aggregate_reordered {a : Aggregation} {left right p q : Plan}
    (hleft : Plan.aggregated a left = .ok p) (hright : Plan.aggregated a right = .ok q)
    {place : AggregatePlace left.Place} {place' : AggregatePlace right.Place} {e e' : Engine}
    {rows rows' : List Row}
    (hrows : left.source.outcome place.input e = .ok rows)
    (hrows' : right.source.outcome place'.input e' = .ok rows')
    (hfit : ∀ row ∈ rows, row.fits left.schema) (hfit' : ∀ row ∈ rows', row.fits right.schema)
    (hperm : (rows.map Row.values).Perm (rows'.map Row.values)) :
    (p = .aggregate a left ∧ q = .aggregate a right)
    ∧ a.Reorders rows rows' ((Plan.aggregate a left).source.outcome place e)
        ((Plan.aggregate a right).source.outcome place' e')
    ∧ ((∃ order list, rows.Perm order ∧ a.over left.schema order e = .ok list) ↔ a.TotalsFit rows)
    ∧ ((∀ order, rows.Perm order → a.over left.schema order e = a.over left.schema rows e)
        ↔ ¬ a.TotalsFit rows ∨ a.SidesFit rows) := by
  obtain ⟨⟨column, hs⟩, rfl⟩ := Plan.eq_of_aggregated hleft
  obtain ⟨⟨column', hs'⟩, rfl⟩ := Plan.eq_of_aggregated hright
  have hone : (Plan.aggregate a left).source.outcome place e = a.result left.schema rows :=
    outcome_aggregate hs left.impartial hrows hfit
  have hother : (Plan.aggregate a right).source.outcome place' e' = a.result right.schema rows' :=
    outcome_aggregate hs' right.impartial hrows' hfit'
  have hover : ∀ order, rows.Perm order → a.over left.schema order e = a.result left.schema order :=
    fun order h => outcome_aggregate hs (impartial_rows order) (outcome_ofRows order none e)
      fun row hm => hfit row (h.mem_iff.mpr hm)
  rw [hone, hother]
  refine ⟨⟨rfl, rfl⟩, Aggregation.reorders hs hs' hfit hfit' hperm, ?some, ?all⟩
  case some =>
    rw [← Aggregation.exists_defined_iff hs hfit]
    constructor
    · rintro ⟨order, list, horder, hlist⟩
      refine ⟨order, horder, ?_⟩
      by_contra hd
      rw [hover order horder, hs.result_of_not_defined
        (fun row hm => hfit row (horder.mem_iff.mpr hm)) hd] at hlist
      cases hlist
    · rintro ⟨order, horder, hd⟩
      refine ⟨order, (a.results order).map Aggregation.resultRow, horder, ?_⟩
      rw [hover order horder]
      exact (hs.partitions (fun row hm => hfit row (horder.mem_iff.mpr hm)) hd).2
  case all =>
    constructor
    · intro hsame
      by_cases htotals : a.TotalsFit rows
      · -- a result for one order is one for all of them
        refine Or.inr (Aggregation.forall_defined_iff.mp fun order horder => ?_)
        obtain ⟨good, hgood, hd⟩ := (Aggregation.exists_defined_iff hs hfit).mpr htotals
        have hfits : ∀ {order : List Row}, rows.Perm order → ∀ row ∈ order, row.fits left.schema :=
          fun h row hm => hfit row (h.mem_iff.mpr hm)
        by_contra hnot
        have heq := (hsame good hgood).trans (hsame order horder).symm
        rw [hover good hgood, hover order horder, (hs.partitions (hfits hgood) hd).2,
          hs.result_of_not_defined (hfits horder) hnot] at heq
        cases heq
      · exact Or.inl htotals
    · intro hcases order horder
      rw [hover order horder, hover rows (List.Perm.refl _)]
      have horders := Aggregation.reorders hs hs hfit
        (fun row hm => hfit row (horder.mem_iff.mpr hm)) (horder.map Row.values)
      rcases hcases with htotals | hsides
      · obtain ⟨hone, hother⟩ := horders.beyond htotals
        rw [hone, hother]
      · obtain ⟨list, hone, hother⟩ := horders.within hsides
        rw [hone, hother]

open Sample in
/-- The sums of scores by names, of the scores from first to last and from last to first. -/
theorem Plan.aggregate_reordered_sums :
    Plan.aggregated ⟨.sum, 1, some 0⟩ scorePlan = .ok (.aggregate ⟨.sum, 1, some 0⟩ scorePlan)
    ∧ (scores.map Row.values).Perm (scores.reverse.map Row.values)
    ∧ ∃ list, Aggregation.over ⟨.sum, 1, some 0⟩ scorePlan.schema scores idle = .ok list
      ∧ Aggregation.over ⟨.sum, 1, some 0⟩ scorePlan.schema scores.reverse idle = .ok list := by
  have hfits : ∀ row ∈ scores, row.fits scorePlan.schema := by decide
  have hperm : (scores.map Row.values).Perm (scores.reverse.map Row.values) :=
    (List.reverse_perm scores).symm.map Row.values
  have hsides : Aggregation.SidesFit ⟨.sum, 1, some 0⟩ scores := by
    intro _ key
    by_cases hb : key = some (.text "b")
    · subst hb
      decide
    by_cases ha : key = some (.text "a")
    · subst ha
      decide
    · have hnone : Aggregation.cells ⟨.sum, 1, some 0⟩ key scores = [] := by
        simp [Aggregation.cells, Aggregation.keyAt, scores, Ne.symm hb, Ne.symm ha]
      rw [hnone]
      decide
  obtain ⟨-, horders, -, -⟩ := Plan.aggregate_reordered
    (show Plan.aggregated ⟨.sum, 1, some 0⟩ scorePlan = .ok (.aggregate ⟨.sum, 1, some 0⟩ scorePlan)
      from rfl)
    (show Plan.aggregated ⟨.sum, 1, some 0⟩ (.rows scorePlan.schema scores.reverse)
      = .ok (.aggregate ⟨.sum, 1, some 0⟩ (.rows scorePlan.schema scores.reverse)) from rfl)
    (show scorePlan.source.outcome (AggregatePlace.mk none none).input idle = .ok scores
      from outcome_ofRows scores none idle)
    (show (Plan.rows scorePlan.schema scores.reverse).source.outcome
        (AggregatePlace.mk none none).input idle = .ok scores.reverse
      from outcome_ofRows scores.reverse none idle)
    hfits (by decide) hperm
  exact ⟨rfl, hperm, horders.within hsides⟩

namespace Sample

/-- Integers whose sum has 64 bits, and the first two of which have a sum that has not. -/
def swings : List Row := [⟨[.int 9223372036854775807], none⟩, ⟨[.int 1], none⟩, ⟨[.int (-1)], none⟩]

/-- The same integers, the ones below zero before the last one. -/
def swingsBack : List Row :=
  [⟨[.int 9223372036854775807], none⟩, ⟨[.int (-1)], none⟩, ⟨[.int 1], none⟩]

/-- Their schema. -/
def oneInteger : Schema := ⟨[⟨"n", .int64⟩]⟩

end Sample

open Sample in
/-- **A sum can fail in one order and not in the other**, though the exact sum has 64 bits. -/
theorem Plan.aggregate_order_matters :
    swings.Perm swingsBack ∧ (∀ row ∈ swings, row.fits oneInteger)
    ∧ AggregateFn.Int64Fits (Value.total (Aggregation.cells ⟨.sum, 0, none⟩ none swings))
    ∧ Aggregation.over ⟨.sum, 0, none⟩ oneInteger swings idle = .error .sumOverflow
    ∧ Aggregation.over ⟨.sum, 0, none⟩ oneInteger swingsBack idle
      = .ok [⟨[.int 9223372036854775807], none⟩] :=
  ⟨(List.Perm.swap _ _ _).cons _, by decide, by decide, rfl, rfl⟩

end RowStore
