import RowStore.Proofs.Query.Grouping
import RowStore.Proofs.Query.Tracking
import RowStore.Proofs.Query.Welltyped

/-!
# An aggregate partitions its input

An aggregate takes the rows of its input apart by their keys and says one thing about each part.
Here the parts are the rows themselves, filtered by key (`Aggregation.cells`), and what is said of
them is what the function is about, exact integers instead of 64-bit ones (`AggregateFn.Yields`).

* **The functions** are what they say as long as no partial sum from the left leaves the range of
  64-bit integers (`AggregateFn.Defined`), and sums and averages fail otherwise.
* **The results partition the rows** (`Aggregation.Partitions`): one for each key, in ascending
  order, of exactly the rows with that key.
* **A map lists its entries in any order** (`Groups.Listing`).  Sorting them leaves nothing of it.

Main statement: `Plan.aggregate_partitions`, for every plan that an aggregate accepts as its input.
-/

namespace RowStore

/-! ## 1. Functions of values -/

/-- The sum of the integers among some values. -/
def Value.total : List Value → Int
  | [] => 0
  | .int v :: rest => v.toInt + total rest
  | .bool _ :: rest => total rest
  | .text _ :: rest => total rest

namespace AggregateFn

/-- An integer that has 64 bits. -/
def Int64Fits (n : Int) : Prop := Int64.minValue.toInt ≤ n ∧ n ≤ Int64.maxValue.toInt

/-- **No partial sum leaves the range**, from the left. -/
def SumsFit (values : List Value) : Prop :=
  ∀ n ≤ values.length, Int64Fits (Value.total (values.take n))

instance (n : Int) : Decidable (Int64Fits n) := inferInstanceAs (Decidable (_ ∧ _))

instance (values : List Value) : Decidable (SumsFit values) :=
  inferInstanceAs (Decidable (∀ n, n ≤ _ → _))

/-- **What the function of some values is**: their number, as far as it has 64 bits, their exact
sum, that divided by their number toward zero, the least or the greatest of them. -/
def Yields : AggregateFn → List Value → Int64 → Prop
  | count, values, v => (values.length : Int) ≤ Int64.maxValue.toInt → v.toInt = values.length
  | sum, values, v => v.toInt = Value.total values
  | avg, values, v => values ≠ [] ∧ v.toInt = (Value.total values).tdiv values.length
  | min, values, v => .int v ∈ values ∧ ∀ w, .int w ∈ values → v.toInt ≤ w.toInt
  | max, values, v => .int v ∈ values ∧ ∀ w, .int w ∈ values → w.toInt ≤ v.toInt

/-- A function that is defined for no values, too. -/
def Total (fn : AggregateFn) : Prop := fn = count ∨ fn = sum

theorem ints_map (vs : List Int64) : ints (vs.map Value.int) = .ok vs := by
  induction vs with
  | nil => rfl
  | cons v vs ih =>
    unfold ints at ih ⊢
    rw [List.map_cons, List.mapM_cons, ih]
    rfl

/-- The values of a column of integers. -/
theorem exists_ints : ∀ {values : List Value}, (∀ v ∈ values, v.fits .int64) →
    ∃ vs : List Int64, values = vs.map Value.int
  | [], _ => ⟨[], rfl⟩
  | v :: values, h => by
    obtain ⟨n, rfl⟩ := Value.fits_int64_iff.mp (h v List.mem_cons_self)
    obtain ⟨vs, rfl⟩ := exists_ints fun w hw => h w (List.mem_cons_of_mem _ hw)
    exact ⟨n :: vs, rfl⟩

theorem toInt_ofInt_of_fits {n : Int} (h : Int64Fits n) : (Int64.ofInt n).toInt = n := by
  obtain ⟨hmin, hmax⟩ := h
  have hlo : Int64.minValue.toInt = -9223372036854775808 := by decide
  have hhi : Int64.maxValue.toInt = 9223372036854775807 := by decide
  exact Int64.toInt_ofInt_of_le (by omega) (by omega)

theorem add?_eq (a b : Int64) : add? a b =
    if Int64Fits (a.toInt + b.toInt) then .ok (Int64.ofInt (a.toInt + b.toInt))
    else .error .sumOverflow := rfl

/-- **The sum from the left** is the exact one if no partial sum leaves the range. -/
theorem sumFrom_of_fits : ∀ (vs : List Int64) (acc : Int64),
    (∀ n ≤ vs.length, Int64Fits (acc.toInt + Value.total ((vs.map Value.int).take n))) →
      ∃ s, sumFrom acc vs = .ok s ∧ s.toInt = acc.toInt + Value.total (vs.map Value.int)
  | [], acc, _ => ⟨acc, rfl, (Int.add_zero _).symm⟩
  | v :: vs, acc, h => by
    have hfirst : Int64Fits (acc.toInt + v.toInt) := by
      simpa [Value.total] using h 1 (by simp)
    have hsum := toInt_ofInt_of_fits hfirst
    obtain ⟨s, hs, htotal⟩ := sumFrom_of_fits vs (Int64.ofInt (acc.toInt + v.toInt)) fun n hn => by
      have hnext := h (n + 1) (Nat.succ_le_succ hn)
      rw [List.map_cons, List.take_succ_cons, Value.total, ← Int.add_assoc] at hnext
      rwa [hsum]
    refine ⟨s, ?_, ?_⟩
    · rw [sumFrom, add?_eq, if_pos hfirst]
      exact hs
    · rw [htotal, hsum, List.map_cons, Value.total, Int.add_assoc]

/-- A sum from the left that is not refused has no partial sum outside the range. -/
theorem fits_of_sumFrom : ∀ {vs : List Int64} {acc s : Int64}, Int64Fits acc.toInt →
    sumFrom acc vs = .ok s →
      ∀ n ≤ vs.length, Int64Fits (acc.toInt + Value.total ((vs.map Value.int).take n))
  | [], acc, s, hacc, _, n, hn => by
    obtain rfl := Nat.le_zero.mp hn
    rwa [List.take_zero, Value.total, Int.add_zero]
  | v :: vs, acc, s, hacc, h, 0, _ => by rwa [List.take_zero, Value.total, Int.add_zero]
  | v :: vs, acc, s, hacc, h, n + 1, hn => by
    rw [sumFrom, add?_eq] at h
    by_cases hfirst : Int64Fits (acc.toInt + v.toInt)
    · rw [if_pos hfirst] at h
      have hsum := toInt_ofInt_of_fits hfirst
      have hrest := fits_of_sumFrom (hsum.symm ▸ hfirst) h n (Nat.le_of_succ_le_succ hn)
      rw [hsum] at hrest
      rwa [List.map_cons, List.take_succ_cons, Value.total, ← Int.add_assoc]
    · rw [if_neg hfirst] at h
      cases h

/-- What is kept of a list, going from left to right, if less is better. -/
theorem foldl_least (f : Int64 → Int) : ∀ (vs : List Int64) (v : Int64),
    let kept := vs.foldl (fun a b => if f b < f a then b else a) v
    kept ∈ v :: vs ∧ ∀ w ∈ v :: vs, f kept ≤ f w
  | [], v => by simp
  | w :: vs, v => by
    obtain ⟨hmem, hleast⟩ := foldl_least f vs (if f w < f v then w else v)
    rw [List.forall_mem_cons] at hleast
    obtain ⟨hfirst, hrest⟩ := hleast
    rw [List.foldl_cons]
    by_cases hlt : f w < f v
    · rw [if_pos hlt] at hmem hfirst hrest ⊢
      exact ⟨List.mem_cons_of_mem _ hmem,
        List.forall_mem_cons.mpr ⟨by omega, List.forall_mem_cons.mpr ⟨hfirst, hrest⟩⟩⟩
    · rw [if_neg hlt] at hmem hfirst hrest ⊢
      refine ⟨?_, List.forall_mem_cons.mpr ⟨hfirst, List.forall_mem_cons.mpr ⟨by omega, hrest⟩⟩⟩
      rcases List.mem_cons.mp hmem with he | hm
      · exact List.mem_cons.mpr (Or.inl he)
      · exact List.mem_cons_of_mem _ (List.mem_cons_of_mem _ hm)

theorem mem_least? {vs : List Int64} {v : Int64} (h : least? vs = some v) :
    v ∈ vs ∧ ∀ w ∈ vs, v.toInt ≤ w.toInt := by
  cases vs with
  | nil => cases h
  | cons first rest =>
    cases h
    exact foldl_least Int64.toInt rest first

theorem mem_greatest? {vs : List Int64} {v : Int64} (h : greatest? vs = some v) :
    v ∈ vs ∧ ∀ w ∈ vs, w.toInt ≤ v.toInt := by
  cases vs with
  | nil => cases h
  | cons first rest =>
    cases h
    have hkept := foldl_least (fun v => -v.toInt) rest first
    simp only [Int.neg_lt_neg_iff, Int.neg_le_neg_iff] at hkept
    exact hkept

/-- The average of integers whose sum has 64 bits has 64 bits. -/
theorem fits_tdiv {n : Int} (h : Int64Fits n) (m : Nat) : Int64Fits (n.tdiv (m + 1)) := by
  have habs := Int.natAbs_tdiv_le_natAbs n (m + 1)
  obtain ⟨hmin, hmax⟩ := h
  have hm : (0 : Int) ≤ m + 1 := by omega
  rcases Int.le_total 0 n with hn | hn
  · have hq := Int.tdiv_nonneg hn hm
    exact ⟨Int.le_trans (by decide) hq, by omega⟩
  · have hq := Int.tdiv_nonneg (Int.neg_nonneg_of_nonpos hn) hm
    rw [Int.neg_tdiv] at hq
    exact ⟨by omega, Int.le_trans (Int.neg_nonneg.mp hq) (by decide)⟩

/-- The sum of integers whose partial sums have 64 bits. -/
theorem SumsFit.sumFrom {vs : List Int64} (h : SumsFit (vs.map Value.int)) :
    ∃ s, AggregateFn.sumFrom 0 vs = .ok s ∧ s.toInt = Value.total (vs.map Value.int) := by
  obtain ⟨s, hs, htotal⟩ := sumFrom_of_fits vs 0 fun n hn => by
    rw [show (0 : Int64).toInt = 0 from rfl, Int.zero_add]
    exact h n (by rwa [List.length_map])
  exact ⟨s, hs, by rwa [show (0 : Int64).toInt = 0 from rfl, Int.zero_add] at htotal⟩

/-- The sum of other integers is refused. -/
theorem sumFrom_of_not_fits {vs : List Int64} (h : ¬ SumsFit (vs.map Value.int)) :
    AggregateFn.sumFrom 0 vs = .error .sumOverflow := by
  cases hs : AggregateFn.sumFrom 0 vs with
  | error f => rw [sumFrom_fails hs]
  | ok s =>
    refine (h fun n hn => ?_).elim
    have hfit := fits_of_sumFrom (by decide) hs n (by rwa [List.length_map] at hn)
    rwa [show (0 : Int64).toInt = 0 from rfl, Int.zero_add] at hfit

/-- The sums of some values fit, if the function takes sums. -/
def Defined (fn : AggregateFn) (values : List Value) : Prop := fn = sum ∨ fn = avg → SumsFit values

instance (fn : AggregateFn) (values : List Value) : Decidable (fn.Defined values) :=
  inferInstanceAs (Decidable (_ → _))

section Compute

variable {fn : AggregateFn} {type : ColumnType} {values : List Value}

/-- A list of values and a list of integers have the same integers. -/
theorem forall_int_mem {vs : List Int64} {P : Int64 → Prop} (h : ∀ w ∈ vs, P w) :
    ∀ w, Value.int w ∈ vs.map Value.int → P w := by
  intro w hm
  obtain ⟨w', hw, he⟩ := List.mem_map.mp hm
  exact Value.int.inj he ▸ h w' hw

/-- **The function of a group's values** is what it says if the sums fit, and is undefined only for
no values. -/
theorem compute_of_defined (hfn : fn = .count ∨ type = .int64) (hv : ∀ v ∈ values, v.fits type)
    (hfit : fn.Defined values) :
    ∃ v?, fn.compute values = .ok v? ∧ (∀ v, v? = some v → fn.Yields values v)
      ∧ (v?.isSome ↔ values ≠ [] ∨ fn.Total) := by
  unfold compute Total
  by_cases hcount : fn = count
  · subst hcount
    refine ⟨some (Int64.ofNat values.length), rfl, ?_, by simp⟩
    rintro _ ⟨⟩ hlength
    exact toInt_ofInt_of_fits ⟨Int.le_trans (by decide) (Int.natCast_nonneg _), hlength⟩
  · rw [if_neg hcount]
    obtain rfl := hfn.resolve_left hcount
    obtain ⟨vs, rfl⟩ := exists_ints hv
    rw [ints_map]
    cases fn with
    | count => exact absurd rfl hcount
    | sum =>
      obtain ⟨s, hs, htotal⟩ := (hfit (Or.inl rfl)).sumFrom
      refine ⟨some s, by simp only [ofInts, hs], ?_, by simp⟩
      rintro _ ⟨⟩
      exact htotal
    | avg =>
      cases vs with
      | nil => exact ⟨none, rfl, nofun, by simp⟩
      | cons v vs =>
        obtain ⟨s, hs, htotal⟩ := (hfit (Or.inr rfl)).sumFrom
        refine ⟨some (Int64.ofInt (s.toInt.tdiv (vs.length + 1))), by simp only [ofInts, hs], ?_,
          by simp⟩
        rintro _ ⟨⟩
        refine ⟨by simp, ?_⟩
        rw [toInt_ofInt_of_fits (fits_tdiv ⟨Int64.minValue_le_toInt s, Int64.toInt_le s⟩ _), htotal]
        simp
    | min =>
      refine ⟨least? vs, rfl, fun v h => ?_, by cases vs <;> simp [least?]⟩
      obtain ⟨hm, hleast⟩ := mem_least? h
      exact ⟨List.mem_map_of_mem hm, forall_int_mem hleast⟩
    | max =>
      refine ⟨greatest? vs, rfl, fun v h => ?_, by cases vs <;> simp [greatest?]⟩
      obtain ⟨hm, hgreatest⟩ := mem_greatest? h
      exact ⟨List.mem_map_of_mem hm, forall_int_mem hgreatest⟩

/-- **The function of a group's values** fails if the sums do not fit. -/
theorem compute_of_not_defined (hfn : fn = .count ∨ type = .int64) (hv : ∀ v ∈ values, v.fits type)
    (hfit : ¬ fn.Defined values) : fn.compute values = .error .sumOverflow := by
  unfold Defined at hfit
  obtain ⟨hsums, hfit⟩ := Classical.not_imp.mp hfit
  have hcount : fn ≠ count := by rcases hsums with rfl | rfl <;> decide
  obtain rfl := hfn.resolve_left hcount
  obtain ⟨vs, rfl⟩ := exists_ints hv
  rw [compute, if_neg hcount, ints_map]
  have hfail := sumFrom_of_not_fits hfit
  rcases hsums with rfl | rfl
  · simp only [ofInts, hfail]
  · cases vs with
    | nil => exact absurd hfail nofun
    | cons v vs => simp only [ofInts, hfail]

end Compute

end AggregateFn

/-! ## 2. Rows by their keys -/

namespace Aggregation

/-- **The cells of a group**: the aggregated values of the rows with a key, in their order. -/
def cells (a : Aggregation) (key : Option Value) (rows : List Row) : List Value :=
  (rows.filter fun row => a.keyAt row = key).filterMap fun row => row.values[a.column]?

/-- The sums of every group's cells fit, if the function takes sums. -/
def Defined (a : Aggregation) (rows : List Row) : Prop :=
  ∀ row ∈ rows, a.fn.Defined (a.cells (a.keyAt row) rows)

instance (a : Aggregation) (rows : List Row) : Decidable (a.Defined rows) :=
  inferInstanceAs (Decidable (∀ row ∈ rows, _))

/-- The keys there are a result for: those of the rows, and that of the one group of all rows also
without rows if the function is defined for no values. -/
def Occurs (a : Aggregation) (rows : List Row) (key : Option Value) : Prop :=
  (∃ row ∈ rows, a.keyAt row = key) ∨ (a.group = none ∧ key = none ∧ a.fn.Total)

/-- The row of a result: the key, if there is one, and the value. -/
def resultRow (entry : Option Value × Int64) : Row := ⟨entry.1.toList ++ [.int entry.2], none⟩

/-- **The results partition the rows**: there is one for each key that occurs, in ascending order,
and its value is the function of exactly the cells of the rows with that key. -/
structure Partitions (a : Aggregation) (rows : List Row) (results : List (Option Value × Int64)) :
    Prop where
  ascending : Groups.Ascending (results.map Prod.fst)
  occurs : ∀ key, key ∈ results.map Prod.fst ↔ a.Occurs rows key
  yields : ∀ entry ∈ results, a.fn.Yields (a.cells entry.1 rows) entry.2
  counts : a.fn = .count → (rows.length : Int) ≤ Int64.maxValue.toInt →
    Value.total (results.map fun entry => Value.int entry.2) = rows.length

/-- The keys and the values of some rows. -/
def pairs (a : Aggregation) (rows : List Row) : List (Option Value × Value) :=
  rows.filterMap fun row => (row.values[a.column]?).map fun v => (a.keyAt row, v)

section Rows

variable {a : Aggregation} {schema : Schema} {column : Column} {rows : List Row}

theorem Suits.keyed (hs : a.Suits schema column) {row : Row} (h : row.fits schema) :
    ∃ v, row.values[a.column]? = some v ∧ v.fits column.type
      ∧ a.keyed schema row = .ok (a.keyAt row, v) := by
  obtain ⟨v, hv, hfits⟩ := Row.value_of_fits h hs.column_eq
  refine ⟨v, hv, hfits, ?_⟩
  simp only [Aggregation.keyed, valueAt, hv, (hs.keyOf h).1, Except.map]

/-- **Every row of the schema has a key and a value.** -/
theorem Suits.mapM_keyed (hs : a.Suits schema column) (h : ∀ row ∈ rows, row.fits schema) :
    rows.mapM (a.keyed schema) = .ok (a.pairs rows)
      ∧ (a.pairs rows).map Prod.fst = rows.map a.keyAt := by
  induction rows with
  | nil => exact ⟨rfl, rfl⟩
  | cons row rows ih =>
    obtain ⟨hrow, hrest⟩ := List.forall_mem_cons.mp h
    obtain ⟨v, hv, -, hkeyed⟩ := hs.keyed hrow
    obtain ⟨hpairs, hkeys⟩ := ih hrest
    have hcons : a.pairs (row :: rows) = (a.keyAt row, v) :: a.pairs rows := by
      simp only [pairs, List.filterMap_cons, hv, Option.map_some]
    rw [List.mapM_cons, hkeyed, hpairs, hcons]
    exact ⟨rfl, congrArg (List.cons (a.keyAt row)) hkeys⟩

theorem valuesOf_pairs (key : Option Value) (rows : List Row) :
    valuesOf key (a.pairs rows) = a.cells key rows := by
  induction rows with
  | nil => rfl
  | cons row rows ih =>
    unfold pairs cells at ih ⊢
    rw [List.filterMap_cons, List.filter_cons]
    by_cases hk : a.keyAt row = key
    · simp only [hk, decide_true, if_true, List.filterMap_cons]
      cases row.values[a.column]? with
      | none => exact ih
      | some v => rw [Option.map_some, Groups.valuesOf_cons, if_pos rfl, ih]
    · simp only [hk, decide_false, Bool.false_eq_true, if_false]
      cases row.values[a.column]? with
      | none => exact ih
      | some v => rw [Option.map_some, Groups.valuesOf_cons, if_neg hk, ih]

theorem Suits.fits_cells (hs : a.Suits schema column) (h : ∀ row ∈ rows, row.fits schema)
    {key : Option Value} : ∀ v ∈ a.cells key rows, v.fits column.type := by
  intro v hm
  obtain ⟨row, hrow, hv⟩ := List.mem_filterMap.mp hm
  obtain ⟨w, hw, hfits, -⟩ := hs.keyed (h row (List.mem_filter.mp hrow).1)
  cases hw.symm.trans hv
  exact hfits

/-- A group has cells if it has rows. -/
theorem Suits.cells_ne_nil (hs : a.Suits schema column) (h : ∀ row ∈ rows, row.fits schema)
    {key : Option Value} : a.cells key rows ≠ [] ↔ ∃ row ∈ rows, a.keyAt row = key := by
  constructor
  · intro hne
    obtain ⟨v, hm⟩ := List.exists_mem_of_ne_nil _ hne
    obtain ⟨row, hrow, -⟩ := List.mem_filterMap.mp hm
    obtain ⟨hrow, hkey⟩ := List.mem_filter.mp hrow
    exact ⟨row, hrow, of_decide_eq_true hkey⟩
  · rintro ⟨row, hrow, rfl⟩
    obtain ⟨v, hv, -⟩ := hs.keyed (h row hrow)
    exact List.ne_nil_of_mem (List.mem_filterMap.mpr
      ⟨row, List.mem_filter.mpr ⟨hrow, decide_eq_true rfl⟩, hv⟩)

/-- The keys of the groups, also of those without a result. -/
theorem Suits.mem_keysOf (hs : a.Suits schema column) (h : ∀ row ∈ rows, row.fits schema)
    {key : Option Value} : key ∈ a.keysOf (a.pairs rows)
      ↔ (∃ row ∈ rows, a.keyAt row = key) ∨ (a.group = none ∧ key = none) := by
  obtain ⟨hpairs, hkeys⟩ := hs.mapM_keyed h
  rw [mem_keysOf_iff hpairs, hkeys, List.mem_map]
  refine or_congr Iff.rfl ?_
  unfold empty
  cases a.group <;> simp [Assoc.keys]

/-- A group has as many cells as rows. -/
theorem Suits.length_cells (hs : a.Suits schema column) (h : ∀ row ∈ rows, row.fits schema)
    (key : Option Value) :
    (a.cells key rows).length = (rows.filter fun row => a.keyAt row = key).length := by
  refine List.filterMap_length_eq_length.mpr fun row hm => ?_
  obtain ⟨v, hv, -⟩ := hs.keyed (h row (List.mem_filter.mp hm).1)
  rw [hv]
  rfl

/-- **The numbers of rows with each key add up** to the number of rows, if no key is left out and
none comes twice. -/
theorem total_counts : ∀ (results : List (Option Value × Int64)) (rows : List Row),
    (results.map Prod.fst).Nodup → (∀ row ∈ rows, a.keyAt row ∈ results.map Prod.fst) →
    (∀ entry ∈ results,
      entry.2.toInt = (rows.filter fun row => a.keyAt row = entry.1).length) →
    Value.total (results.map fun entry => Value.int entry.2) = rows.length
  | [], rows, _, hkeys, _ => by
    cases rows with
    | nil => rfl
    | cons row rows => exact absurd (hkeys row List.mem_cons_self) List.not_mem_nil
  | (key, v) :: results, rows, hnodup, hkeys, hcounts => by
    obtain ⟨hkey, hnodup⟩ := List.nodup_cons.mp hnodup
    obtain ⟨hcount, hcounts⟩ := List.forall_mem_cons.mp hcounts
    -- the other rows are counted by the other results
    have hrest := total_counts results (rows.filter fun row => !decide (a.keyAt row = key)) hnodup
      (fun row hm => by
        obtain ⟨hrow, hne⟩ := List.mem_filter.mp hm
        exact (List.mem_cons.mp (hkeys row hrow)).resolve_left (by simpa using hne))
      (fun entry hm => by
        have hne : entry.1 ≠ key := fun he => hkey (List.mem_map.mpr ⟨entry, hm, he⟩)
        rw [hcounts entry hm, List.filter_filter]
        congr 2
        refine List.filter_congr fun row _ => ?_
        by_cases he : a.keyAt row = entry.1
        · simp [he, hne]
        · simp [he])
    have hsplit := List.length_eq_length_filter_add (l := rows) fun row => decide (a.keyAt row = key)
    rw [List.map_cons, Value.total, hrest, hcount, ← Int.natCast_add, ← hsplit]

end Rows

/-! ## 3. The results -/

/-- The value of a group, if its function can be computed and is defined. -/
def valueOf? (a : Aggregation) (rows : List Row) (key : Option Value) : Option Int64 :=
  (a.fn.compute (a.cells key rows)).toOption.join

/-- The results for some rows. -/
def results (a : Aggregation) (rows : List Row) : List (Option Value × Int64) :=
  (a.keysOf (a.pairs rows)).filterMap fun key => (a.valueOf? rows key).map fun v => (key, v)

section Results

variable {a : Aggregation} {schema : Schema} {column : Column} {rows : List Row}

theorem map_fst_results : (a.results rows).map Prod.fst
    = (a.keysOf (a.pairs rows)).filter fun key => (a.valueOf? rows key).isSome := by
  unfold results
  induction a.keysOf (a.pairs rows) with
  | nil => rfl
  | cons key keys ih =>
    rw [List.filterMap_cons, List.filter_cons]
    cases a.valueOf? rows key with
    | none => exact ih
    | some v => exact congrArg (List.cons key) ih

theorem mem_results_iff {key : Option Value} {v : Int64} : (key, v) ∈ a.results rows
    ↔ key ∈ a.keysOf (a.pairs rows) ∧ a.valueOf? rows key = some v := by
  unfold results
  rw [List.mem_filterMap]
  constructor
  · rintro ⟨k, hk, hv⟩
    obtain ⟨w, hw, he⟩ := Option.map_eq_some_iff.mp hv
    cases he
    exact ⟨hk, hw⟩
  · rintro ⟨hk, hv⟩
    exact ⟨key, hk, by rw [hv]; rfl⟩

/-- The rows of the results, group by group. -/
theorem mapM_groupRow : ∀ {keys : List (Option Value)}, (∀ key ∈ keys,
    a.fn.compute (a.cells key rows) = .ok (a.valueOf? rows key)) →
    (keys.mapM fun key => a.groupRow key (a.cells key rows)).map List.flatten
      = .ok ((keys.filterMap fun key => (a.valueOf? rows key).map fun v => (key, v)).map
          resultRow)
  | [], _ => rfl
  | key :: keys, h => by
    obtain ⟨hkey, hkeys⟩ := List.forall_mem_cons.mp h
    have ih := mapM_groupRow hkeys
    rw [List.mapM_cons, List.filterMap_cons, groupRow, hkey]
    generalize (keys.mapM fun key => a.groupRow key (a.cells key rows)) = more at ih
    cases more with
    | error f => cases ih
    | ok more =>
      have ih := Except.ok.inj ih
      cases a.valueOf? rows key with
      | none => exact congrArg Except.ok ih
      | some v => exact congrArg (fun rows => Except.ok (resultRow (key, v) :: rows)) ih

/-- One group whose function fails lets the whole result fail, if there is one failure only. -/
theorem mapM_groupRow_fails {f : Failure} : ∀ {keys : List (Option Value)},
    (∀ key ∈ keys, ∀ g, a.fn.compute (a.cells key rows) = .error g → g = f) →
    (∃ key ∈ keys, a.fn.compute (a.cells key rows) = .error f) →
    (keys.mapM fun key => a.groupRow key (a.cells key rows)).map List.flatten = .error f
  | [], _, h => by simp at h
  | key :: keys, honly, hsome => by
    obtain ⟨hkey, honly⟩ := List.forall_mem_cons.mp honly
    rw [List.mapM_cons, groupRow]
    cases hv : a.fn.compute (a.cells key rows) with
    | error g => exact congrArg Except.error (hkey g hv)
    | ok v? =>
      obtain ⟨k, hk, hfail⟩ := hsome
      have hk : k ∈ keys := (List.mem_cons.mp hk).resolve_left fun he => by
        rw [he, hv] at hfail
        cases hfail
      have ih := mapM_groupRow_fails honly ⟨k, hk, hfail⟩
      generalize (keys.mapM fun key => a.groupRow key (a.cells key rows)) = more at ih
      cases more with
      | error g => exact ih
      | ok more => cases ih

theorem result_eq_mapM (hs : a.Suits schema column) (h : ∀ row ∈ rows, row.fits schema) :
    a.result schema rows = ((a.keysOf (a.pairs rows)).mapM fun key =>
      a.groupRow key (a.cells key rows)).map List.flatten := by
  simp only [result, (hs.mapM_keyed h).1, valuesOf_pairs]

/-- The sums of every group fit, also of one without rows. -/
theorem Defined.cells (hd : a.Defined rows) (key : Option Value) :
    a.fn.Defined (a.cells key rows) := by
  by_cases hm : ∃ row ∈ rows, a.keyAt row = key
  · obtain ⟨row, hrow, rfl⟩ := hm
    exact hd row hrow
  · have hnone : a.cells key rows = [] := by
      rw [Aggregation.cells, List.filter_eq_nil_iff.mpr fun row hrow hk =>
        hm ⟨row, hrow, of_decide_eq_true hk⟩]
      rfl
    rw [hnone]
    intro _ n hn
    obtain rfl := Nat.le_zero.mp hn
    decide

/-- **The results partition the rows**, if the sums of every group fit. -/
theorem Suits.partitions (hs : a.Suits schema column) (h : ∀ row ∈ rows, row.fits schema)
    (hd : a.Defined rows) : a.Partitions rows (a.results rows)
      ∧ a.result schema rows = .ok ((a.results rows).map resultRow) := by
  have hcompute : ∀ key, a.fn.compute (a.cells key rows) = .ok (a.valueOf? rows key)
      ∧ (∀ v, a.valueOf? rows key = some v → a.fn.Yields (a.cells key rows) v)
      ∧ ((a.valueOf? rows key).isSome ↔ a.cells key rows ≠ [] ∨ a.fn.Total) := by
    intro key
    obtain ⟨v?, hv, hyields, hsome⟩ :=
      AggregateFn.compute_of_defined hs.computes (hs.fits_cells h) (hd.cells key)
    rw [valueOf?, hv]
    exact ⟨rfl, hyields, hsome⟩
  have hoccurs : ∀ key, key ∈ (a.results rows).map Prod.fst ↔ a.Occurs rows key := by
    intro key
    rw [map_fst_results, List.mem_filter, hs.mem_keysOf h, (hcompute key).2.2, hs.cells_ne_nil h]
    rw [← or_and_left, and_assoc]
    exact Iff.rfl
  have hyields : ∀ entry ∈ a.results rows, a.fn.Yields (a.cells entry.1 rows) entry.2 :=
    fun entry hm => (hcompute entry.1).2.1 entry.2 (mem_results_iff.mp hm).2
  have hascending : Groups.Ascending ((a.results rows).map Prod.fst) := by
    rw [map_fst_results]
    exact List.Pairwise.filter _ ascending_keysOf
  refine ⟨⟨hascending, hoccurs, hyields, fun hcount hlength => ?_⟩, ?_⟩
  · refine total_counts (a := a) _ _ hascending.nodup
      (fun row hrow => (hoccurs _).mpr (Or.inl ⟨row, hrow, rfl⟩)) fun entry hm => ?_
    have hy := hyields entry hm
    rw [hcount, AggregateFn.Yields, hs.length_cells h] at hy
    exact hy (Int.le_trans (Int.ofNat_le.mpr (List.length_filter_le ..)) hlength)
  · rw [result_eq_mapM hs h]
    exact mapM_groupRow fun key _ => (hcompute key).1

/-- **There is no result** if the sums of some group do not fit. -/
theorem Suits.result_of_not_defined (hs : a.Suits schema column)
    (h : ∀ row ∈ rows, row.fits schema) (hd : ¬ a.Defined rows) :
    a.result schema rows = .error .sumOverflow := by
  rw [result_eq_mapM hs h]
  have hfails : ∃ row ∈ rows, ¬ a.fn.Defined (a.cells (a.keyAt row) rows) := by
    simpa [Defined] using hd
  obtain ⟨row, hrow, hnot⟩ := hfails
  refine mapM_groupRow_fails (fun key _ g hg => ?_) ⟨a.keyAt row, ?_, ?_⟩
  · exact AggregateFn.compute_fails hs.computes (hs.fits_cells h) hg
  · exact (hs.mem_keysOf h).mpr (Or.inl ⟨row, hrow, rfl⟩)
  · exact AggregateFn.compute_of_not_defined hs.computes (hs.fits_cells h) hnot

end Results

end Aggregation

/-! ## 4. Maps in any order -/

/-- **The result read off a map of groups** whose entries are listed in some order: they are sorted
by their keys, and each gives a row, if its function is defined. -/
def Aggregation.tabulate (a : Aggregation) (entries : List (Option Value × List Value)) :
    Except Failure (List Row) :=
  ((entries.mergeSort fun x y => (Groups.keyOrder x.1 y.1).isLE).mapM fun entry =>
    a.groupRow entry.1 entry.2).map List.flatten

namespace Groups

/-- **A listing of a map of groups** while pairs are put into it one after the other: a value joins
the values of its key at their end, or opens a group, and the entries may be in any order at any
time. -/
inductive Listing : List (Option Value × Value) → List (Option Value × List Value) → Prop
  | empty : Listing [] []
  | joins {pairs : List (Option Value × Value)} {entries : List (Option Value × List Value)}
      {key : Option Value} {values : List Value} (v : Value) :
      Listing pairs ((key, values) :: entries) →
        Listing (pairs ++ [(key, v)]) ((key, values ++ [v]) :: entries)
  | opens {pairs : List (Option Value × Value)} {entries : List (Option Value × List Value)}
      {key : Option Value} (v : Value) : Listing pairs entries → key ∉ Assoc.keys entries →
        Listing (pairs ++ [(key, v)]) ((key, [v]) :: entries)
  | moved {pairs : List (Option Value × Value)} {entries entries' :
      List (Option Value × List Value)} : Listing pairs entries → entries.Perm entries' →
        Listing pairs entries'

variable {pairs : List (Option Value × Value)} {entries : List (Option Value × List Value)}

theorem valuesOf_concat (k key : Option Value) (v : Value) :
    valuesOf k (pairs ++ [(key, v)])
      = if key = k then valuesOf k pairs ++ [v] else valuesOf k pairs := by
  unfold valuesOf
  rw [List.filter_append, List.map_append]
  by_cases h : key = k <;> simp [h]

/-- A key without pairs has no values. -/
theorem valuesOf_eq_nil {key : Option Value} (h : key ∉ pairs.map Prod.fst) :
    valuesOf key pairs = [] := by
  rw [valuesOf, List.filter_eq_nil_iff.mpr fun pair hm he =>
    h (List.mem_map.mpr ⟨pair, hm, of_decide_eq_true he⟩)]
  rfl

/-- **Every listing has the same entries**: each key that there is once, with its values in the
order they came. -/
theorem Listing.same_entries (h : Listing pairs entries) :
    (Assoc.keys entries).Nodup ∧ (∀ key, key ∈ Assoc.keys entries ↔ key ∈ pairs.map Prod.fst)
      ∧ ∀ entry ∈ entries, entry.2 = valuesOf entry.1 pairs := by
  induction h with
  | empty => exact ⟨List.nodup_nil, fun _ => Iff.rfl, nofun⟩
  | @joins pairs entries key values v h ih =>
    obtain ⟨hnodup, hkeys, hvalues⟩ := ih
    obtain ⟨hfirst, hrest⟩ := List.forall_mem_cons.mp hvalues
    have hkey : key ∈ pairs.map Prod.fst := (hkeys key).mp List.mem_cons_self
    refine ⟨hnodup, fun k => ?_, List.forall_mem_cons.mpr ⟨?_, fun entry hm => ?_⟩⟩
    · rw [List.map_append, List.mem_append, ← hkeys k]
      refine ⟨Or.inl, fun hk => hk.elim id fun he => ?_⟩
      exact List.mem_singleton.mp he ▸ List.mem_cons_self
    · rw [valuesOf_concat, if_pos rfl, ← hfirst]
    · have hne : key ≠ entry.1 := fun he =>
        (List.nodup_cons.mp hnodup).1 (List.mem_map.mpr ⟨entry, hm, he.symm⟩)
      rw [valuesOf_concat, if_neg hne, hrest entry hm]
  | @opens pairs entries key v h hnew ih =>
    obtain ⟨hnodup, hkeys, hvalues⟩ := ih
    refine ⟨List.nodup_cons.mpr ⟨hnew, hnodup⟩, fun k => ?_,
      List.forall_mem_cons.mpr ⟨?_, fun entry hm => ?_⟩⟩
    · rw [List.map_append, List.mem_append, ← hkeys k, or_comm]
      exact List.mem_cons.trans (or_congr List.mem_singleton.symm Iff.rfl)
    · rw [valuesOf_concat, if_pos rfl, valuesOf_eq_nil fun hm => hnew ((hkeys key).mpr hm)]
      rfl
    · have hne : key ≠ entry.1 := fun he => hnew (List.mem_map.mpr ⟨entry, hm, he.symm⟩)
      rw [valuesOf_concat, if_neg hne, hvalues entry hm]
  | moved h hperm ih =>
    obtain ⟨hnodup, hkeys, hvalues⟩ := ih
    have hkeysPerm := hperm.map Prod.fst
    exact ⟨hkeysPerm.nodup_iff.mp hnodup, fun k => hkeysPerm.mem_iff.symm.trans (hkeys k),
      fun entry hm => hvalues entry (hperm.mem_iff.mpr hm)⟩

/-- **Sorting a listing by its keys** leaves nothing of its order. -/
theorem Listing.sorted {a : Aggregation} (h : Listing pairs entries) (hg : a.group ≠ none) :
    (entries.mergeSort fun x y => (keyOrder x.1 y.1).isLE)
      = (a.keysOf pairs).map fun key => (key, valuesOf key pairs) := by
  obtain ⟨hnodup, hkeys, hvalues⟩ := h.same_entries
  have hperm := List.mergeSort_perm entries fun x y => (keyOrder x.1 y.1).isLE
  have hsame : (entries.mergeSort fun x y => (keyOrder x.1 y.1).isLE).map Prod.fst
      = a.keysOf pairs := by
    refine (ascending_mergeSort Prod.fst entries hnodup).ext Aggregation.ascending_keysOf fun key => ?_
    rw [(hperm.map Prod.fst).mem_iff]
    refine (hkeys key).trans ?_
    unfold Aggregation.keysOf
    cases ha : a.group with
    | none => exact absurd ha hg
    | some i => exact ((List.mergeSort_perm _ _).mem_iff.trans List.mem_dedup).symm
  rw [← hsame, List.map_map]
  refine (List.map_id _).symm.trans (List.map_congr_left fun entry hm => ?_)
  exact Prod.ext rfl (hvalues entry (hperm.mem_iff.mp hm))

end Groups

/-- **The order of a map's entries does not matter** to the result. -/
theorem Aggregation.Suits.tabulate {a : Aggregation} {schema : Schema} {column : Column}
    {rows : List Row} (hs : a.Suits schema column) (h : ∀ row ∈ rows, row.fits schema)
    (hg : a.group ≠ none) {entries : List (Option Value × List Value)}
    (hl : Groups.Listing (a.pairs rows) entries) : a.tabulate entries = a.result schema rows := by
  rw [Aggregation.tabulate, hl.sorted hg, List.mapM_map, Aggregation.result_eq_mapM hs h]
  simp only [Function.comp_def, Aggregation.valuesOf_pairs]

/-! ## 5. Opening an aggregate -/

section Opening

variable {σ : Type} {a : Aggregation} {schema : Schema} {column : Column} {input : Source σ}
  {rows : List Row}

/-- **Gathering tracks collecting** until a row comes that does not match the schema. -/
theorem gathering_tracks (hs : a.Suits schema column) :
    Consumer.Tracks
      (fun groups (rows : List Row) => rows.reverse.foldlM (a.addRow schema) a.empty = .ok groups)
      (fun rows => ∃ row ∈ rows, ¬ row.fits schema) (gathering a schema) Consumer.collect where
  answer {groups rows row e e' rows' signal} hr hk := by
    cases hk
    by_cases hrow : row.fits schema
    · obtain ⟨v, -, -, hkeyed⟩ := hs.keyed hrow
      have hadd : a.addRow schema groups row = .ok (groups.add (a.keyAt row) v) := by
        rw [Aggregation.addRow_eq, hkeyed]
        rfl
      refine Or.inl ⟨groups.add (a.keyAt row) v, by rw [gathering, hadd], ?_⟩
      rw [List.reverse_cons, List.foldlM_append, hr]
      exact congrArg (· >>= pure) hadd
    · exact Or.inr ⟨row, List.mem_cons_self, hrow⟩
  lost {rows row e e' rows' signal} hl hk := by
    cases hk
    obtain ⟨bad, hm, hbad⟩ := hl
    exact ⟨bad, List.mem_cons_of_mem _ hm, hbad⟩

/-- **Opening an aggregate** whose input hands out rows of its schema gives their result. -/
theorem start_aggregate (hs : a.Suits schema column) (himpartial : input.Impartial)
    {place : AggregatePlace σ} {opened drained : σ} {e e₁ e₂ : Engine}
    (hstart : input.start place.input e = (opened, e₁, .ok ()))
    (hdrain : input.drain opened e₁ = (drained, e₂, rows, .ok ()))
    (hfit : ∀ row ∈ rows, row.fits schema) :
    (∀ list, a.result schema rows = .ok list →
      (Source.aggregate a schema input).start place e = (⟨drained, some list⟩, e₂, .ok ()))
    ∧ ∀ f, a.result schema rows = .error f →
      (Source.aggregate a schema input).start place e
        = (⟨drained, place.results⟩, e₂, .error f) := by
  have hempty : ([] : List Row).reverse.foldlM (a.addRow schema) a.empty = .ok a.empty := rfl
  have htracks := himpartial (gathering_tracks hs) opened e₁ (Or.inl hempty)
  unfold Source.drain at hdrain
  rcases hcollect : input.run opened e₁ [] Consumer.collect with ⟨inner, e', found, verdict⟩
  rw [hcollect] at htracks
  have hpass : input.run opened e₁ [] (fun rows row e => (e, row :: rows, .more))
      = ⟨inner, e', found, verdict⟩ := hcollect
  simp only [hpass] at hdrain
  -- the input has not failed, and the collected rows are those that were handed out
  have hends : (∀ f, verdict ≠ .failed f) ∧ inner = drained ∧ e' = e₂ ∧ found.reverse = rows := by
    cases verdict <;> cases hdrain <;> exact ⟨fun f hf => (by cases hf), rfl, rfl, rfl⟩
  obtain ⟨hended, rfl, rfl, rfl⟩ := hends
  rcases htracks with ⟨groups, hrun, hgroups⟩ | ⟨row, hm, hrow⟩
  · have hrows : groups.rows a.fn = a.result schema found.reverse := by
      rw [← Aggregation.result_eq, hgroups]
      rfl
    simp only [Source.aggregate, hstart]
    refine ⟨fun list hlist => ?_, fun f hf => ?_⟩
    · rw [aggregated_eq hrun, hrows, hlist]
      cases verdict with
      | failed f => exact absurd rfl (hended f)
      | stopped | ended => rfl
    · rw [aggregated_eq hrun, hrows, hf]
      cases verdict with
      | failed f => exact absurd rfl (hended f)
      | stopped | ended => rfl
  · exact absurd (hfit row (List.mem_reverse.mpr hm)) hrow

/-- **The results of an aggregate are handed out** as they were computed. -/
theorem drain_aggregate (place : σ) (list : List Row) (e : Engine) :
    (Source.aggregate a schema input).drain ⟨place, some list⟩ e
      = (⟨place, some []⟩, e, list, .ok ()) := by
  have hfeed : Consumer.feed (fun rows row e => (e, row :: rows, Signal.more)) list [] e
      = ([], e, list.reverse ++ [], .more) := Consumer.feed_collect list [] e
  simp only [Source.drain, Source.aggregate, hfeed, Signal.verdict, List.append_nil,
    List.reverse_reverse]

end Opening

/-- **An aggregate partitions its input.**  Whatever plan the input is, if it hands out rows of its
schema, opening the aggregate computes results that partition these rows, in the order in which they
are then handed out, as long as no partial sum of a group leaves the range of 64-bit integers; if one
does, opening a sum or an average fails.  A map of the groups gives the same outcome, in whatever
order it lists them. -/
theorem Plan.aggregate_partitions {a : Aggregation} {input p : Plan}
    (haccepted : Plan.aggregated a input = .ok p) {place : AggregatePlace input.Place}
    {opened drained : input.Place} {e e₁ e₂ : Engine} {rows : List Row}
    (hstart : input.source.start place.input e = (opened, e₁, .ok ()))
    (hdrain : input.source.drain opened e₁ = (drained, e₂, rows, .ok ()))
    (hfit : ∀ row ∈ rows, row.fits input.schema) :
    p = .aggregate a input
    ∧ (a.Defined rows → ∃ results, a.Partitions rows results
        ∧ (Plan.aggregate a input).source.start place e
          = (⟨drained, some (results.map Aggregation.resultRow)⟩, e₂, .ok ())
        ∧ (Plan.aggregate a input).source.drain
            ⟨drained, some (results.map Aggregation.resultRow)⟩ e₂
          = (⟨drained, some []⟩, e₂, results.map Aggregation.resultRow, .ok ()))
    ∧ (¬ a.Defined rows → (Plan.aggregate a input).source.start place e
          = (⟨drained, place.results⟩, e₂, .error .sumOverflow)
        ∧ Failure.sumOverflow.kind = .storage)
    ∧ ∀ entries, a.group ≠ none → Groups.Listing (a.pairs rows) entries →
        (∀ list, a.tabulate entries = .ok list ↔ (Plan.aggregate a input).source.start place e
          = (⟨drained, some list⟩, e₂, .ok ()))
        ∧ ∀ f, a.tabulate entries = .error f ↔ (Plan.aggregate a input).source.start place e
          = (⟨drained, place.results⟩, e₂, .error f) := by
  obtain ⟨⟨column, hs⟩, rfl⟩ := Plan.eq_of_aggregated haccepted
  obtain ⟨hok, herror⟩ := start_aggregate hs input.impartial hstart hdrain hfit
  refine ⟨rfl, fun hd => ?_, fun hd => ?_, fun entries hg hl => ?_⟩
  · obtain ⟨hpartitions, hresult⟩ := hs.partitions hfit hd
    exact ⟨a.results rows, hpartitions, hok _ hresult, drain_aggregate ..⟩
  · exact ⟨herror _ (hs.result_of_not_defined hfit hd), rfl⟩
  · rw [hs.tabulate hfit hg hl]
    cases hresult : a.result input.schema rows with
    | ok computed =>
      have hopens : (Plan.aggregate a input).source.start place e
          = (⟨drained, some computed⟩, e₂, .ok ()) := hok computed hresult
      rw [hopens]
      refine ⟨fun list => ⟨?_, fun h => ?_⟩, fun f => ⟨nofun, fun h => ?_⟩⟩
      · rintro ⟨⟩
        rfl
      · cases h
        rfl
      · cases (Prod.mk.inj (Prod.mk.inj h).2).2
    | error g =>
      have hopens : (Plan.aggregate a input).source.start place e
          = (⟨drained, place.results⟩, e₂, .error g) := herror g hresult
      rw [hopens]
      refine ⟨fun list => ⟨nofun, fun h => ?_⟩, fun f => ⟨?_, fun h => ?_⟩⟩
      · cases (Prod.mk.inj (Prod.mk.inj h).2).2
      · rintro ⟨⟩
        rfl
      · cases h
        rfl

namespace Sample

/-- Names with scores. -/
def scores : List Row :=
  [⟨[.text "b", .int 3], none⟩, ⟨[.text "a", .int (-1)], none⟩, ⟨[.text "b", .int 4], none⟩]

/-- A plan that hands them out. -/
def scorePlan : Plan := .rows ⟨[⟨"name", .bytes 4⟩, ⟨"score", .int64⟩]⟩ scores

/-- An engine without tables. -/
def idle : Engine := { config := { pageSize := 40, pages := 2 } }

end Sample

open Sample in
/-- The sums of scores by names. -/
theorem Plan.aggregate_partitions_sums :
    Plan.aggregated ⟨.sum, 1, some 0⟩ scorePlan = .ok (.aggregate ⟨.sum, 1, some 0⟩ scorePlan)
    ∧ scorePlan.source.start none idle = (some scores, idle, .ok ())
    ∧ scorePlan.source.drain (some scores) idle = (some [], idle, scores, .ok ())
    ∧ (∀ row ∈ scores, row.fits scorePlan.schema)
    ∧ ∃ results, Aggregation.Partitions ⟨.sum, 1, some 0⟩ scores results
      ∧ (Plan.aggregate ⟨.sum, 1, some 0⟩ scorePlan).source.start ⟨none, none⟩ idle
        = (⟨some [], some (results.map Aggregation.resultRow)⟩, idle, .ok ()) := by
  have hfits : ∀ row ∈ scores, row.fits scorePlan.schema := by decide
  refine ⟨rfl, rfl, rfl, hfits, ?_⟩
  obtain ⟨-, hopens, -⟩ := Plan.aggregate_partitions
    (show Plan.aggregated ⟨.sum, 1, some 0⟩ scorePlan = .ok (.aggregate ⟨.sum, 1, some 0⟩ scorePlan)
      from rfl)
    (show scorePlan.source.start (AggregatePlace.mk none none).input idle
      = (some scores, idle, .ok ()) from rfl)
    (show scorePlan.source.drain (some scores) idle = (some [], idle, scores, .ok ()) from rfl) hfits
  obtain ⟨results, hpartitions, hstart, -⟩ := hopens (by decide)
  exact ⟨results, hpartitions, hstart⟩

end RowStore
