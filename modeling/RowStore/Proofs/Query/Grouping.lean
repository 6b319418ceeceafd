import Mathlib.Data.List.Dedup
import Mathlib.Data.List.Sort
import RowStore.Assoc
import RowStore.Query.Groups

/-!
# What an aggregate computes

The groups of an aggregate are kept by an insertion into a sorted list, one row at a time, with the
latest value of each group first.  Here it is said without the insertion: every row has a key and a
value (`Aggregation.keyed`), the keys are the different ones in ascending order
(`Aggregation.keysOf`), and the result is the function of each key's values in the order they came
(`Aggregation.result`).

* **The order of values is a total order** (`Value.order`), and so is the order of keys.
* **The insertion keeps the keys ascending** and puts a value into the group of its key and nowhere
  else (`Groups.Ascending.add`, `Groups.find?_add`).

Main statement: `Aggregation.result_eq`, what is computed of the groups after the last row is the
result, and what fails on the way fails with the same failure.
-/

namespace RowStore

/-! ## 1. The order of values -/

namespace Value

instance : Std.OrientedCmp order where
  eq_swap {a b} := by
    cases a <;> cases b
    case text.text s t => exact @Std.OrientedCmp.eq_swap String compare _ s t
    all_goals simp only [order, rank]; exact Std.OrientedCmp.eq_swap

instance : Std.TransCmp order where
  isLE_trans {a b c} := by
    cases a <;> cases b <;> cases c
    case text.text.text s t u => exact @Std.TransCmp.isLE_trans String compare _ s t u
    all_goals simp only [order, rank, Nat.isLE_compare, Int.isLE_compare]; omega

instance : Std.LawfulEqCmp order where
  compare_self {a} := by
    cases a with
    | bool b => simp [order]
    | int v => simp [order]
    | text s => exact @Std.ReflCmp.compare_self String compare _ s
  eq_of_compare {a b} h := by
    cases a <;> cases b
    case text.text s t =>
      exact congrArg text (@Std.LawfulEqCmp.eq_of_compare String compare _ s t h)
    case int.int v w => simpa [order, Int64.toInt_inj] using h
    case bool.bool x y => cases x <;> cases y <;> first | rfl | cases h
    all_goals cases h

end Value

namespace Groups

instance : Std.OrientedCmp keyOrder where
  eq_swap {a b} := by
    cases a <;> cases b
    case some.some v w => exact @Std.OrientedCmp.eq_swap Value Value.order _ v w
    all_goals rfl

instance : Std.TransCmp keyOrder where
  isLE_trans {a b c} := by
    cases a <;> cases b <;> cases c
    case some.some.some u v w => exact @Std.TransCmp.isLE_trans Value Value.order _ u v w
    all_goals simp [keyOrder]

instance : Std.LawfulEqCmp keyOrder where
  compare_self {a} := by
    cases a with
    | none => rfl
    | some v => exact @Std.ReflCmp.compare_self Value Value.order _ v
  eq_of_compare {a b} h := by
    cases a <;> cases b
    case none.none => rfl
    case some.some v w =>
      exact congrArg some (@Std.LawfulEqCmp.eq_of_compare Value Value.order _ v w h)
    all_goals cases h

variable {key k : Option Value} {v : Value} {groups : Groups}

theorem keyOrder_self (key : Option Value) : keyOrder key key = .eq := Std.ReflCmp.compare_self

theorem keyOrder_eq_iff {a b : Option Value} : keyOrder a b = .eq ↔ a = b :=
  ⟨Std.LawfulEqCmp.eq_of_compare, fun h => h ▸ keyOrder_self a⟩

theorem keyOrder_gt_iff {a b : Option Value} : keyOrder a b = .gt ↔ keyOrder b a = .lt :=
  Std.OrientedCmp.gt_iff_lt

theorem keyOrder_lt_trans {a b c : Option Value} (h : keyOrder a b = .lt)
    (h' : keyOrder b c = .lt) : keyOrder a c = .lt :=
  Std.TransCmp.lt_trans h h'

/-! ## 2. The insertion -/

/-- **The keys ascend**, so none of them comes twice. -/
def Ascending (keys : List (Option Value)) : Prop :=
  keys.Pairwise fun a b => keyOrder a b = .lt

/-- Ascending keys are all different. -/
theorem Ascending.nodup {keys : List (Option Value)} (h : Ascending keys) : keys.Nodup :=
  h.imp fun {a b} hlt he => by
    rw [keyOrder_eq_iff.mpr he] at hlt
    cases hlt

/-- Ascending keys are given by which ones they are. -/
theorem Ascending.ext {keys keys' : List (Option Value)} (h : Ascending keys)
    (h' : Ascending keys') (hmem : ∀ key, key ∈ keys ↔ key ∈ keys') : keys = keys' := by
  have hperm := (List.perm_ext_iff_of_nodup h.nodup h'.nodup).mpr hmem
  refine List.Perm.eq_of_pairwise (fun a b _ _ hab hba => ?_) h h' hperm
  rw [← keyOrder_gt_iff, hab] at hba
  cases hba

/-- **Sorting by keys** that are all different makes them ascend. -/
theorem ascending_mergeSort {α : Type} (key : α → Option Value) (xs : List α)
    (h : (xs.map key).Nodup) :
    Ascending ((xs.mergeSort fun x y => (keyOrder (key x) (key y)).isLE).map key) := by
  have hsorted := @List.pairwise_mergeSort α (fun x y => (keyOrder (key x) (key y)).isLE)
    (fun x y z => @Std.TransCmp.isLE_trans (Option Value) keyOrder _ (key x) (key y) (key z))
    (fun x y => by
      rw [@Std.OrientedCmp.eq_swap (Option Value) keyOrder _ (key y) (key x)]
      cases keyOrder (key x) (key y) <;> rfl) xs
  have hnodup := ((List.mergeSort_perm xs fun x y => (keyOrder (key x) (key y)).isLE).map
    key).nodup_iff.mpr h
  rw [List.Nodup, List.pairwise_map] at hnodup
  refine List.pairwise_map.mpr ((hsorted.and hnodup).imp fun {x y} hxy => ?_)
  have hne : keyOrder (key x) (key y) ≠ .eq := fun he => hxy.2 (keyOrder_eq_iff.mp he)
  cases ho : keyOrder (key x) (key y) with
  | lt => rfl
  | eq => exact absurd ho hne
  | gt =>
    have hle := hxy.1
    rw [ho] at hle
    cases hle

theorem mem_keys_add (key : Option Value) (v : Value) (k : Option Value) :
    ∀ groups : Groups, k ∈ Assoc.keys (add key v groups) ↔ k = key ∨ k ∈ Assoc.keys groups
  | [] => by simp [add, Assoc.keys]
  | (first, vs) :: rest => by
    have ih := mem_keys_add key v k rest
    unfold Assoc.keys at ih ⊢
    unfold add
    split
    · simp
    · rename_i heq
      obtain rfl := keyOrder_eq_iff.mp heq
      simp
    · simp only [List.map_cons, List.mem_cons, ih]
      exact or_left_comm

/-- **The insertion keeps the keys ascending.** -/
theorem Ascending.add (key : Option Value) (v : Value) : ∀ {groups : Groups},
    Ascending (Assoc.keys groups) → Ascending (Assoc.keys (Groups.add key v groups))
  | [], _ => List.pairwise_singleton ..
  | (first, vs) :: rest, h => by
    obtain ⟨hfirst, hrest⟩ := List.pairwise_cons.mp h
    unfold Groups.add
    split
    · rename_i hlt
      refine List.pairwise_cons.mpr ⟨fun k hk => ?_, h⟩
      rcases List.mem_cons.mp hk with rfl | hk
      · exact hlt
      · exact keyOrder_lt_trans hlt (hfirst k hk)
    · exact List.pairwise_cons.mpr ⟨hfirst, hrest⟩
    · rename_i hgt
      refine List.pairwise_cons.mpr ⟨fun k hk => ?_, Ascending.add key v hrest⟩
      rcases (mem_keys_add key v k rest).mp hk with rfl | hk
      · exact keyOrder_gt_iff.mp hgt
      · exact hfirst k hk

/-- **A value joins the group of its key**, which is a new one if there was none, and no other
group changes. -/
theorem find?_add (key : Option Value) (v : Value) (k : Option Value) : ∀ {groups : Groups},
    Ascending (Assoc.keys groups) → Assoc.find? k (add key v groups)
      = if k = key then some (v :: (Assoc.find? key groups).getD []) else Assoc.find? k groups
  | [], _ => by
    simp only [add, Assoc.find?_cons, Assoc.find?_nil, @eq_comm _ key k, Option.getD_none]
  | (first, vs) :: rest, h => by
    obtain ⟨hfirst, hrest⟩ := List.pairwise_cons.mp h
    unfold add
    split
    · -- the key comes before all others
      rename_i hlt
      have hnone : Assoc.find? key ((first, vs) :: rest) = none := by
        rw [Assoc.find?_eq_none_iff]
        intro hk
        have hself : keyOrder key key = .lt := by
          rcases List.mem_cons.mp hk with he | hk
          · exact he ▸ hlt
          · exact keyOrder_lt_trans hlt (hfirst key hk)
        rw [keyOrder_self] at hself
        cases hself
      rw [hnone, Assoc.find?_cons]
      simp only [@eq_comm _ key k, Option.getD_none]
    · rename_i heq
      obtain rfl := keyOrder_eq_iff.mp heq
      simp only [Assoc.find?_cons, if_true, Option.getD_some, @eq_comm _ k key]
      split <;> rfl
    · rename_i hgt
      have hne : first ≠ key := by
        rintro rfl
        rw [keyOrder_self] at hgt
        cases hgt
      rw [Assoc.find?_cons, find?_add key v k hrest]
      simp only [Assoc.find?_cons, if_neg hne]
      split
      · rename_i hk
        rw [if_neg (fun he => hne (hk.trans he))]
      · rfl

end Groups

/-! ## 3. The result -/

/-- The values of one key, in their order. -/
def valuesOf (key : Option Value) (pairs : List (Option Value × Value)) : List Value :=
  (pairs.filter fun pair => pair.1 = key).map Prod.snd

namespace Groups

/-- Put all values into the groups of their keys, one after the other. -/
def addAll (groups : Groups) (pairs : List (Option Value × Value)) : Groups :=
  pairs.foldl (fun groups pair => groups.add pair.1 pair.2) groups

variable {groups : Groups}

theorem Ascending.addAll (h : Ascending (Assoc.keys groups))
    (pairs : List (Option Value × Value)) : Ascending (Assoc.keys (groups.addAll pairs)) := by
  induction pairs generalizing groups with
  | nil => exact h
  | cons pair pairs ih => exact ih (h.add pair.1 pair.2)

theorem mem_keys_addAll (pairs : List (Option Value × Value)) (k : Option Value) :
    k ∈ Assoc.keys (groups.addAll pairs) ↔ k ∈ pairs.map Prod.fst ∨ k ∈ Assoc.keys groups := by
  induction pairs generalizing groups with
  | nil => simp [addAll]
  | cons pair pairs ih =>
    refine (@ih (groups.add pair.1 pair.2)).trans ?_
    rw [mem_keys_add, List.map_cons, List.mem_cons, or_assoc, or_left_comm]

theorem valuesOf_cons (key : Option Value) (pair : Option Value × Value)
    (pairs : List (Option Value × Value)) : valuesOf key (pair :: pairs)
      = if pair.1 = key then pair.2 :: valuesOf key pairs else valuesOf key pairs := by
  unfold valuesOf
  rw [List.filter_cons]
  simp only [decide_eq_true_eq]
  split <;> rfl

/-- **Every group has the values of its key**, the latest first. -/
theorem find?_addAll (h : Ascending (Assoc.keys groups)) (pairs : List (Option Value × Value))
    {k : Option Value} (hk : k ∈ Assoc.keys (groups.addAll pairs)) :
    Assoc.find? k (groups.addAll pairs)
      = some ((valuesOf k pairs).reverse ++ (Assoc.find? k groups).getD []) := by
  induction pairs generalizing groups with
  | nil =>
    obtain ⟨vs, hvs⟩ := Option.isSome_iff_exists.mp ((Assoc.find?_isSome_iff k groups).mpr hk)
    simp [addAll, valuesOf, hvs]
  | cons pair pairs ih =>
    refine (ih (h.add pair.1 pair.2) hk).trans ?_
    rw [find?_add _ _ _ h, valuesOf_cons]
    by_cases hp : pair.1 = k
    · subst hp
      simp
    · simp [hp, Ne.symm hp]

end Groups

namespace Aggregation

/-- The key and the value of a row. -/
def keyed (a : Aggregation) (input : Schema) (row : Row) : Except Failure (Option Value × Value) :=
  match valueAt row a.column with
  | .error f => .error f
  | .ok v => (a.keyOf input row).map fun key => (key, v)

/-- **The keys of the result**: the different ones there are in ascending order, or the one group
of all rows, also if there are none. -/
def keysOf (a : Aggregation) (pairs : List (Option Value × Value)) : List (Option Value) :=
  match a.group with
  | none => [none]
  | some _ => (pairs.map Prod.fst).dedup.mergeSort fun a b => (Groups.keyOrder a b).isLE

/-- The row of a group: its key, if there is one, and the function of its values; none if the
function is undefined. -/
def groupRow (a : Aggregation) (key : Option Value) (values : List Value) :
    Except Failure (List Row) :=
  (a.fn.compute values).map fun v => (v.map fun v => ⟨key.toList ++ [.int v], none⟩).toList

/-- **What the aggregate of some rows is**: for each key in ascending order the function of the
values of its rows. -/
def result (a : Aggregation) (input : Schema) (rows : List Row) : Except Failure (List Row) :=
  match rows.mapM (a.keyed input) with
  | .error f => .error f
  | .ok pairs =>
    ((a.keysOf pairs).mapM fun key => a.groupRow key (valuesOf key pairs)).map List.flatten

variable {a : Aggregation} {input : Schema} {pairs : List (Option Value × Value)}

/-- All rows of an aggregate without groups have the same key. -/
theorem keyOf_of_no_group (h : a.group = none) (row : Row) : a.keyOf input row = .ok none := by
  unfold keyOf
  rw [h]
  rfl

theorem addRow_eq (groups : Groups) (row : Row) :
    a.addRow input groups row = (a.keyed input row).map fun pair => groups.add pair.1 pair.2 := by
  unfold addRow keyed
  cases valueAt row a.column with
  | error f => rfl
  | ok v =>
    cases a.keyOf input row with
    | error f => rfl
    | ok key => rfl

/-- Adding row after row is putting all values into their groups, if no row fails. -/
theorem foldlM_addRow (rows : List Row) (groups : Groups) :
    rows.foldlM (a.addRow input) groups = (rows.mapM (a.keyed input)).map groups.addAll := by
  induction rows generalizing groups with
  | nil => rfl
  | cons row rows ih =>
    rw [List.foldlM_cons, List.mapM_cons, addRow_eq]
    cases a.keyed input row with
    | error f => rfl
    | ok pair =>
      refine (ih (groups.add pair.1 pair.2)).trans ?_
      show Except.map _ _ = Except.map _ (Except.bind _ _)
      cases rows.mapM (a.keyed input) with
      | error f => rfl
      | ok pairs => rfl

/-- What comes out of a list comes from one of its members. -/
theorem exists_of_mapM {α β : Type} {f : α → Except Failure β} {xs : List α} {ys : List β}
    (h : xs.mapM f = .ok ys) {y : β} (hy : y ∈ ys) : ∃ x ∈ xs, f x = .ok y := by
  induction xs generalizing ys with
  | nil =>
    cases h
    cases hy
  | cons x xs ih =>
    rw [List.mapM_cons] at h
    cases hx : f x with
    | error g =>
      rw [hx] at h
      cases h
    | ok first =>
      cases hrest : xs.mapM f with
      | error g =>
        rw [hx, hrest] at h
        cases h
      | ok rest =>
        rw [hx, hrest] at h
        cases h
        rcases List.mem_cons.mp hy with rfl | hy
        · exact ⟨x, List.mem_cons_self, hx⟩
        · obtain ⟨x', hm, hf⟩ := ih hrest hy
          exact ⟨x', List.mem_cons_of_mem _ hm, hf⟩

/-- The rows of an aggregate without groups have no key. -/
theorem key_eq_none (h : a.group = none) {rows : List Row}
    (hr : rows.mapM (a.keyed input) = .ok pairs) {key : Option Value}
    (hm : key ∈ pairs.map Prod.fst) : key = none := by
  obtain ⟨pair, hp, rfl⟩ := List.mem_map.mp hm
  obtain ⟨row, -, hrow⟩ := exists_of_mapM hr hp
  unfold keyed at hrow
  rw [keyOf_of_no_group h] at hrow
  split at hrow
  · cases hrow
  · cases hrow
    rfl

theorem ascending_empty : Groups.Ascending (Assoc.keys a.empty) := by
  unfold empty
  split
  · exact List.pairwise_singleton ..
  · exact List.Pairwise.nil

theorem ascending_keysOf : Groups.Ascending (a.keysOf pairs) := by
  unfold keysOf
  split
  · exact List.pairwise_singleton ..
  · have hsorted := Groups.ascending_mergeSort id (pairs.map Prod.fst).dedup
      (by simpa using List.nodup_dedup _)
    rwa [List.map_id] at hsorted

/-- The keys of the result are those of the groups. -/
theorem mem_keysOf_iff {rows : List Row} (hr : rows.mapM (a.keyed input) = .ok pairs)
    (key : Option Value) :
    key ∈ a.keysOf pairs ↔ key ∈ pairs.map Prod.fst ∨ key ∈ Assoc.keys a.empty := by
  unfold keysOf empty
  cases hg : a.group with
  | none =>
    simp only [List.mem_singleton, Assoc.keys, List.map_cons, List.map_nil]
    exact ⟨Or.inr, fun h => h.elim (key_eq_none hg hr) id⟩
  | some i =>
    rw [(List.mergeSort_perm _ _).mem_iff, List.mem_dedup]
    simp [Assoc.keys]

/-- The value at a key of a map that is given by a function. -/
theorem find?_map_self {β : Type} (f : Option Value → β) {key : Option Value}
    {keys : List (Option Value)} (h : key ∈ keys) :
    Assoc.find? key (keys.map fun key => (key, f key)) = some (f key) := by
  induction keys with
  | nil => cases h
  | cons first rest ih =>
    rw [List.map_cons, Assoc.find?_cons]
    split
    · rename_i he
      rw [he]
    · rename_i hne
      exact ih ((List.mem_cons.mp h).resolve_left (Ne.symm hne))

theorem find?_empty (key : Option Value) : (Assoc.find? key a.empty).getD [] = [] := by
  unfold empty
  split
  · rw [Assoc.find?_cons]
    split <;> rfl
  · rfl

/-- **The groups after the last row** are the keys of the result with their values, the latest
first. -/
theorem addAll_empty {rows : List Row} (hr : rows.mapM (a.keyed input) = .ok pairs) :
    Groups.addAll a.empty pairs
      = (a.keysOf pairs).map fun key => (key, (valuesOf key pairs).reverse) := by
  have hascending := (@ascending_empty a).addAll pairs
  have hkeys : Assoc.keys (Groups.addAll a.empty pairs) = a.keysOf pairs := by
    refine hascending.ext ascending_keysOf fun key => ?_
    rw [Groups.mem_keys_addAll, mem_keysOf_iff hr]
  have hmap : Assoc.keys ((a.keysOf pairs).map fun key => (key, (valuesOf key pairs).reverse))
      = a.keysOf pairs := by
    rw [Assoc.keys, List.map_map]
    exact List.map_id _
  have hnodup : (a.keysOf pairs).Nodup := ascending_keysOf.nodup
  refine Assoc.ext (hkeys.trans hmap.symm) (hkeys ▸ hnodup) fun key => ?_
  by_cases hk : key ∈ a.keysOf pairs
  · rw [Groups.find?_addAll ascending_empty pairs (hkeys ▸ hk), find?_empty, List.append_nil]
    exact (find?_map_self (fun key => (valuesOf key pairs).reverse) hk).symm
  · have hleft := hk
    have hright := hk
    rw [← hkeys, ← Assoc.find?_eq_none_iff] at hleft
    rw [← hmap, ← Assoc.find?_eq_none_iff] at hright
    rw [hleft, hright]

/-- What is computed of groups, group by group. -/
theorem rows_map (keys : List (Option Value)) (values : Option Value → List Value) :
    Groups.rows a.fn (keys.map fun key => (key, (values key).reverse))
      = (keys.mapM fun key => a.groupRow key (values key)).map List.flatten := by
  induction keys with
  | nil => rfl
  | cons key keys ih =>
    rw [List.map_cons, Groups.rows, List.reverse_reverse, List.mapM_cons, ih]
    generalize (keys.mapM fun key => a.groupRow key (values key)) = more
    rw [groupRow]
    cases a.fn.compute (values key) with
    | error f => rfl
    | ok v => cases more <;> rfl

/-- **What is computed of the groups after the last row is the result.** -/
theorem result_eq (a : Aggregation) (input : Schema) (rows : List Row) :
    (rows.foldlM (a.addRow input) a.empty).bind (Groups.rows a.fn) = a.result input rows := by
  rw [foldlM_addRow]
  unfold result
  cases hr : rows.mapM (a.keyed input) with
  | error f => rfl
  | ok pairs =>
    show Groups.rows a.fn (Groups.addAll a.empty pairs) = _
    rw [addAll_empty hr, rows_map]

end Aggregation

end RowStore
