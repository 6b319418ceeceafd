/-!
# Finite maps as lists of pairs

A map from keys to values is kept as the list of its pairs in the order in which the keys came in.
Setting a key that is there keeps its place, so the list also tells which key is the oldest.

The lemmas say what each operation does to the value at a key and to the list of keys; nothing else
about these lists matters.
-/

namespace RowStore.Assoc

variable {κ α : Type} [DecidableEq κ]

/-! ## 1. Operations -/

/-- The value at a key. -/
def find? (key : κ) : List (κ × α) → Option α
  | [] => none
  | (k, v) :: rest => if k = key then some v else find? key rest

/-- Put a value at a key: in the key's place if it is there, at the end if not. -/
def set (key : κ) (value : α) : List (κ × α) → List (κ × α)
  | [] => [(key, value)]
  | (k, v) :: rest => if k = key then (key, value) :: rest else (k, v) :: set key value rest

/-- Take a key out. -/
def erase (key : κ) : List (κ × α) → List (κ × α)
  | [] => []
  | (k, v) :: rest => if k = key then erase key rest else (k, v) :: erase key rest

/-- The keys, oldest first. -/
def keys (pairs : List (κ × α)) : List κ := pairs.map Prod.fst

/-! ## 2. Values -/

@[simp] theorem find?_nil (key : κ) : find? key ([] : List (κ × α)) = none := rfl

theorem find?_cons (key k : κ) (v : α) (rest : List (κ × α)) :
    find? key ((k, v) :: rest) = if k = key then some v else find? key rest := rfl

@[simp] theorem find?_set_self (key : κ) (value : α) :
    ∀ pairs : List (κ × α), find? key (set key value pairs) = some value
  | [] => by simp [set, find?]
  | (k, v) :: rest => by
    unfold set
    split
    · simp [find?]
    · rename_i h
      simp [find?, h, find?_set_self key value rest]

theorem find?_set_of_ne {key other : κ} (value : α) (h : other ≠ key) :
    ∀ pairs : List (κ × α), find? other (set key value pairs) = find? other pairs
  | [] => by simp [set, find?, h.symm]
  | (k, v) :: rest => by
    unfold set
    split
    · rename_i hk
      subst hk
      simp [find?, h.symm]
    · simp [find?, find?_set_of_ne value h rest]

@[simp] theorem find?_erase_self (key : κ) :
    ∀ pairs : List (κ × α), find? key (erase key pairs) = none
  | [] => rfl
  | (k, v) :: rest => by
    unfold erase
    split
    · exact find?_erase_self key rest
    · rename_i hk
      simp [find?, hk, find?_erase_self key rest]

theorem find?_erase_of_ne {key other : κ} (h : other ≠ key) :
    ∀ pairs : List (κ × α), find? other (erase key pairs) = find? other pairs
  | [] => rfl
  | (k, v) :: rest => by
    unfold erase
    split
    · rename_i hk
      subst hk
      simp [find?, h.symm, find?_erase_of_ne h rest]
    · simp [find?, find?_erase_of_ne h rest]

/-- What is found after an erasure was there before. -/
theorem find?_of_erase {key other : κ} {value : α} {pairs : List (κ × α)}
    (h : find? other (erase key pairs) = some value) : find? other pairs = some value := by
  by_cases ho : other = key
  · rw [ho, find?_erase_self] at h
    cases h
  · rwa [find?_erase_of_ne ho] at h

theorem mem_of_find? {key : κ} {value : α} :
    ∀ {pairs : List (κ × α)}, find? key pairs = some value → (key, value) ∈ pairs
  | [], h => by simp at h
  | (k, v) :: rest, h => by
    rw [find?_cons] at h
    split at h
    · rename_i hk
      subst hk
      cases h
      exact List.mem_cons_self
    · exact List.mem_cons_of_mem _ (mem_of_find? h)

/-- Values that are changed in their places, each by itself. -/
theorem find?_map (key : κ) (f : α → α) : ∀ pairs : List (κ × α),
    find? key (pairs.map fun p => (p.1, f p.2)) = (find? key pairs).map f
  | [] => rfl
  | (k, v) :: rest => by
    have ih := find?_map key f rest
    rw [List.map_cons, find?_cons, find?_cons, ih]
    split <;> rfl

/-! ## 3. Keys -/

theorem find?_eq_none_iff (key : κ) :
    ∀ pairs : List (κ × α), find? key pairs = none ↔ key ∉ keys pairs
  | [] => by simp [keys]
  | (k, v) :: rest => by
    have ih := find?_eq_none_iff key rest
    unfold keys at ih ⊢
    rw [find?_cons]
    split
    · rename_i hk
      simp [hk]
    · rename_i hk
      simp [ih, Ne.symm hk]

theorem find?_isSome_iff (key : κ) (pairs : List (κ × α)) :
    (find? key pairs).isSome ↔ key ∈ keys pairs := by
  have h := find?_eq_none_iff key pairs
  cases hf : find? key pairs with
  | none => simp_all
  | some v => simp_all

/-- A key that is there keeps its place. -/
theorem keys_set_of_mem {key : κ} (value : α) :
    ∀ {pairs : List (κ × α)}, key ∈ keys pairs → keys (set key value pairs) = keys pairs
  | [], h => by simp [keys] at h
  | (k, v) :: rest, h => by
    unfold set
    split
    · rename_i hk
      simp [keys, hk]
    · rename_i hk
      have hr : key ∈ keys rest := by
        simp only [keys, List.map_cons, List.mem_cons] at h
        rcases h with rfl | h
        · exact absurd rfl hk
        · exact h
      have ih := keys_set_of_mem value hr
      unfold keys at ih ⊢
      simp [ih]

/-- A new key goes to the end. -/
theorem keys_set_of_not_mem {key : κ} (value : α) :
    ∀ {pairs : List (κ × α)}, key ∉ keys pairs → keys (set key value pairs) = keys pairs ++ [key]
  | [], _ => rfl
  | (k, v) :: rest, h => by
    simp only [keys, List.map_cons, List.mem_cons, not_or] at h
    have ih := keys_set_of_not_mem value h.2
    unfold set
    rw [if_neg (Ne.symm h.1)]
    unfold keys at ih ⊢
    simp [ih]

/-- An erasure leaves every pair with another key. -/
theorem erase_eq_filter (key : κ) :
    ∀ pairs : List (κ × α), erase key pairs = pairs.filter fun pair => pair.1 ≠ key
  | [] => rfl
  | (k, v) :: rest => by
    unfold erase
    split <;> simp_all [erase_eq_filter key rest]

theorem keys_erase (key : κ) :
    ∀ pairs : List (κ × α), keys (erase key pairs) = (keys pairs).filter fun k => k ≠ key
  | [] => rfl
  | (k, v) :: rest => by
    have ih := keys_erase key rest
    unfold erase
    unfold keys at ih ⊢
    split <;> simp_all

/-- What was put at a key goes with it. -/
theorem erase_set_self (key : κ) (value : α) :
    ∀ pairs : List (κ × α), erase key (set key value pairs) = erase key pairs
  | [] => by simp [set, erase]
  | (k, v) :: rest => by
    by_cases hk : k = key
    · simp [set, erase, hk]
    · simp [set, erase, hk, erase_set_self key value rest]

/-- A key that is not there leaves nothing to erase. -/
theorem erase_of_find?_eq_none {key : κ} {pairs : List (κ × α)} (h : find? key pairs = none) :
    erase key pairs = pairs := by
  rw [erase_eq_filter, List.filter_eq_self]
  intro pair hm
  have hkey : key ∉ keys pairs := (find?_eq_none_iff key pairs).mp h
  exact decide_eq_true fun he => hkey (he ▸ List.mem_map_of_mem hm)

theorem nodup_keys_set (key : κ) (value : α) {pairs : List (κ × α)} (h : (keys pairs).Nodup) :
    (keys (set key value pairs)).Nodup := by
  by_cases hk : key ∈ keys pairs
  · rwa [keys_set_of_mem value hk]
  · rw [keys_set_of_not_mem value hk, List.nodup_append]
    refine ⟨h, by simp, fun a ha b hb => ?_⟩
    rw [List.mem_singleton] at hb
    rintro rfl
    exact hk (hb ▸ ha)

theorem nodup_keys_erase (key : κ) {pairs : List (κ × α)} (h : (keys pairs).Nodup) :
    (keys (erase key pairs)).Nodup := by
  rw [keys_erase]
  exact h.filter _

theorem find?_of_mem {key : κ} {value : α} : ∀ {pairs : List (κ × α)},
    (keys pairs).Nodup → (key, value) ∈ pairs → find? key pairs = some value
  | [], _, h => by simp at h
  | (k, v) :: rest, hn, h => by
    simp only [keys, List.map_cons, List.nodup_cons] at hn
    rcases List.mem_cons.mp h with he | hr
    · cases he
      simp [find?]
    · have hk : k ≠ key := fun hk => hn.1 (List.mem_map.mpr ⟨(key, value), hr, hk.symm⟩)
      rw [find?_cons, if_neg hk]
      exact find?_of_mem hn.2 hr

/-- Values that are looked for among those that pass a test. -/
theorem find?_filter (test : α → Bool) (key : κ) : ∀ {pairs : List (κ × α)}, (keys pairs).Nodup →
    find? key (pairs.filter fun pair => test pair.2) = (find? key pairs).filter test
  | [], _ => rfl
  | (k, v) :: rest, h => by
    obtain ⟨hnot, hrest⟩ := List.nodup_cons.mp h
    have ih := find?_filter test key hrest
    rw [List.filter_cons, find?_cons]
    by_cases hk : k = key
    · -- the key is not among the rest, so what the test leaves of the rest does not matter
      have hnone : find? key rest = none := (find?_eq_none_iff key rest).mpr (hk ▸ hnot)
      rw [hnone] at ih
      cases ht : test v <;> simp [ht, hk, find?_cons, ih, Option.filter]
    · split <;> simp [hk, find?_cons, ih]

/-- **Nothing else matters**: two lists with the same keys, none of them twice, and the same values
are equal. -/
theorem ext : ∀ {first second : List (κ × α)}, keys first = keys second → (keys first).Nodup →
    (∀ key, find? key first = find? key second) → first = second
  | [], [], _, _, _ => rfl
  | [], _ :: _, h, _, _ => by cases h
  | _ :: _, [], h, _, _ => by cases h
  | (k, v) :: rest, (k', v') :: rest', hk, hn, hf => by
    obtain ⟨hkey, hkeys⟩ := List.cons.inj hk
    obtain rfl : k = k' := hkey
    obtain ⟨hnot, hrest⟩ := List.nodup_cons.mp hn
    have hv := hf k
    simp only [find?_cons, if_true, Option.some.injEq] at hv
    have htail : rest = rest' := by
      refine ext hkeys hrest fun key => ?_
      by_cases he : k = key
      · rw [← he, (find?_eq_none_iff k rest).mpr hnot]
        exact ((find?_eq_none_iff k rest').mpr fun hm => hnot (hkeys.symm ▸ hm)).symm
      · have hkey := hf key
        rwa [find?_cons, find?_cons, if_neg he, if_neg he] at hkey
    rw [hv, htail]

end RowStore.Assoc
