import RowStore.Proofs.Views

/-!
# Where rows go, one after the other

An insert takes the first free place of its table.  On the pages behind the last one every place is
free, so that the places which several inserts take one after the other are the first free ones of
the table as it was before all of them (`Engine.FirstUnused`), whatever pages are made for them.

`Engine.Grown` says what such a row of inserts has made of a table: its content is the old one with
one entry more for each row, at these places.
-/

namespace RowStore

namespace Engine

variable {e e₁ e₂ e' : Engine} {table : TableFile} {rid : RecordId} {rids : List RecordId}
  {row : Row} {puts : List (Row × RecordId)}

/-! ## 1. Unused places -/

/-- A place of the table where nothing is seen, on a page that it has or behind them. -/
structure Unused (e : Engine) (table : TableFile) (rid : RecordId) : Prop where
  own : rid.page.table = table.id
  slot_lt : rid.slot < PageLayout.slotCount table.schema table.pageSize
  free : e.content rid = none

/-- **The first fit is the first unused place.** -/
theorem FirstFit.first (h : FirstFit e e' table rid) (hnone : e.content rid = none)
    (hroomy : table.Roomy) : e.Unused table rid
      ∧ ∀ r, e.Unused table r → r = rid ∨ rid.Before r := by
  by_cases hvacant : ∃ r, e.Vacant table r
  · obtain ⟨hv, hfirst, -⟩ := h.reused hvacant
    refine ⟨⟨hv.own, hv.slot_lt, hnone⟩, fun r hr => ?_⟩
    rcases Nat.lt_or_ge r.page.index.toNat (table.pageCount e.disk) with hlt | hge
    · exact hfirst r ⟨hr.own, hlt, hr.slot_lt, hr.free⟩
    · exact Or.inr (Or.inl (UInt32.lt_iff_toNat_lt.mpr (Nat.lt_of_lt_of_le hv.index_lt hge)))
  · obtain ⟨hown, hindex, hslot, -⟩ := h.appended hvacant
    refine ⟨⟨hown, hslot ▸ hroomy, hnone⟩, fun r hr => ?_⟩
    have hge : table.pageCount e.disk ≤ r.page.index.toNat := Nat.le_of_not_lt fun hlt =>
      hvacant ⟨r, hr.own, hlt, hr.slot_lt, hr.free⟩
    rcases RecordId.eq_or_before (hr.own.trans hown.symm) with heq | hbefore | hbehind
    · exact Or.inl heq
    · -- no place is before the first slot of the page behind the last one
      rcases hbefore with hlt | ⟨-, hlt⟩
      · have := UInt32.lt_iff_toNat_lt.mp hlt
        omega
      · omega
    · exact Or.inr hbehind

/-- **The first unused places** of a table, in order. -/
structure FirstUnused (e : Engine) (table : TableFile) (rids : List RecordId) : Prop where
  ascending : rids.Pairwise RecordId.Before
  unused : ∀ rid ∈ rids, e.Unused table rid
  first : ∀ rid ∈ rids, ∀ r, e.Unused table r → r.Before rid → r ∈ rids

theorem firstUnused_nil : FirstUnused e table [] :=
  ⟨List.Pairwise.nil, fun _ h => absurd h List.not_mem_nil, fun _ h => absurd h List.not_mem_nil⟩

/-! ## 2. Several inserts -/

/-- **What several inserts make of a table**: the content is the old one, and one entry more for
each row, at the first unused places in order. -/
structure Grown (e : Engine) (table : TableFile) (puts : List (Row × RecordId)) (e' : Engine) :
    Prop where
  places : e.FirstUnused table (puts.map Prod.snd)
  added : ∀ put ∈ puts,
    e'.content put.2 = some (Row.cutValues put.1.values table.schema.columns)
  kept : ∀ rid, rid.page.table = table.id → rid ∉ puts.map Prod.snd →
    e'.content rid = e.content rid

theorem grown_nil (h : ∀ rid, rid.page.table = table.id → e'.content rid = e.content rid) :
    Grown e table [] e' :=
  ⟨firstUnused_nil, fun _ hm => absurd hm List.not_mem_nil, fun rid hown _ => h rid hown⟩

theorem Grown.congr (h : Grown e table puts e₁)
    (hc : ∀ rid, rid.page.table = table.id → e₂.content rid = e₁.content rid) :
    Grown e table puts e₂ where
  places := h.places
  added put hm :=
    (hc put.2 (h.places.unused _ (List.mem_map_of_mem hm)).own).trans (h.added put hm)
  kept rid hown hn := (hc rid hown).trans (h.kept rid hown hn)

theorem Grown.content_ne_none (h : Grown e table puts e₁) (hm : rid ∈ puts.map Prod.snd) :
    e₁.content rid ≠ none := by
  obtain ⟨put, hput, rfl⟩ := List.mem_map.mp hm
  rw [h.added put hput]
  exact Option.some_ne_none _

/-- What is still unused after some inserts is what was unused and was not taken. -/
theorem Grown.unused_iff (h : Grown e table puts e₁) (rid : RecordId) :
    e₁.Unused table rid ↔ e.Unused table rid ∧ rid ∉ puts.map Prod.snd := by
  constructor
  · intro hu
    have hn : rid ∉ puts.map Prod.snd := fun hm => h.content_ne_none hm hu.free
    exact ⟨⟨hu.own, hu.slot_lt, (h.kept rid hu.own hn).symm.trans hu.free⟩, hn⟩
  · rintro ⟨hu, hn⟩
    exact ⟨hu.own, hu.slot_lt, (h.kept rid hu.own hn).trans hu.free⟩

/-- **One insert more takes the next place.** -/
theorem Grown.insert (h : Grown e table puts e₁) (hfit : FirstFit e₁ e₂ table rid)
    (hnone : e₁.content rid = none) (hroomy : table.Roomy)
    (hcontent : ∀ r, r.page.table = table.id → e₂.content r = if r = rid
      then some (Row.cutValues row.values table.schema.columns) else e₁.content r) :
    Grown e table (puts ++ [(row, rid)]) e₂ := by
  obtain ⟨hunused, hfirst⟩ := hfit.first hnone hroomy
  obtain ⟨hnew, hnot⟩ := (h.unused_iff rid).mp hunused
  have hbehind : ∀ r ∈ puts.map Prod.snd, r.Before rid := by
    intro r hm
    rcases RecordId.eq_or_before ((h.places.unused r hm).own.trans hnew.own.symm)
      with rfl | hbefore | hbefore
    · exact absurd hm hnot
    · exact hbefore
    · exact absurd (h.places.first r hm rid hnew hbefore) hnot
  have hsnd : (puts ++ [(row, rid)]).map Prod.snd = puts.map Prod.snd ++ [rid] :=
    List.map_append
  constructor
  case places =>
    rw [hsnd]
    constructor
    · refine List.pairwise_append.mpr ⟨h.places.ascending, List.pairwise_singleton _ _, ?_⟩
      intro r hr s hs
      exact List.mem_singleton.mp hs ▸ hbehind r hr
    · intro r hm
      rcases List.mem_append.mp hm with hm | hm
      · exact h.places.unused r hm
      · exact List.mem_singleton.mp hm ▸ hnew
    · intro s hs r hr hbefore
      rw [List.mem_append]
      rcases List.mem_append.mp hs with hs | hs
      · exact Or.inl (h.places.first s hs r hr hbefore)
      · -- a place that was not taken is not before the new one
        refine Or.inl (Classical.byContradiction fun hn => ?_)
        rw [List.mem_singleton.mp hs] at hbefore
        rcases hfirst r ((h.unused_iff r).mpr ⟨hr, hn⟩) with rfl | hafter
        · exact not_before hbefore hbefore
        · exact not_before hbefore hafter
  case added =>
    intro put hm
    rcases List.mem_append.mp hm with hm | hm
    · have hold : put.2 ∈ puts.map Prod.snd := List.mem_map_of_mem hm
      have hne : put.2 ≠ rid := fun he => hnot (he ▸ hold)
      rw [hcontent _ (h.places.unused _ hold).own, if_neg hne, h.added put hm]
    · rw [List.mem_singleton.mp hm, hcontent _ hnew.own, if_pos rfl]
  case kept =>
    intro r hown hn
    rw [hsnd, List.mem_append, not_or, List.mem_singleton] at hn
    rw [hcontent r hown, if_neg hn.2]
    exact h.kept r hown hn.1

end Engine

end RowStore
