import RowStore.Proofs.Cut

/-!
# Rows as bytes and back

A row that matches its schema takes exactly the room of a row, wherever it is written.  It reads
back, whatever follows it, as what its columns keep of it (`Row.ReadsBack`): of every text the
longest run of whole leading characters that its column has room for, so no character appears that
was not there, and every other value itself.  Nothing is lost exactly if every text has room in its
column (`Row.Within`).

The reader asks nothing of the bytes but that there are enough of them: any bytes with the room of a
row are read as a row of the schema.  Main statement: `row_codec`.
-/

namespace RowStore

/-! ## 1. Values -/

namespace Value

variable {v kept : Value} {type : ColumnType}

/-- A text has room in a column of texts; any other value has room wherever it is. -/
def Within (v : Value) (type : ColumnType) : Prop :=
  ∀ (s : String) (width : UInt8), v = text s → type = .bytes width →
    (Utf8.encode s.toList).length ≤ width.toNat

/-- **A column keeps all of a value exactly if there is room for it.** -/
theorem KeptAs.eq_iff (h : v.KeptAs type kept) : kept = v ↔ v.Within type := by
  unfold KeptAs at h
  split at h
  · rename_i s width
    obtain ⟨run, rfl, hlead, hlen, hlongest⟩ := h
    constructor
    · rintro he _ _ ⟨⟩ ⟨⟩
      have hrun : run = s.toList := by
        rw [← Value.text.inj he, String.toList_ofList]
      rwa [← hrun]
    · intro hroom
      -- the whole text is such a run, so it is no longer than the one that was kept
      have hall := hlongest s.toList (List.prefix_refl _) (hroom s width rfl rfl)
      rw [hlead.eq_of_length_le hall.length_le, String.ofList_toList]
  · rename_i hother
    exact iff_of_true h fun s width hv ht => absurd ht (hother s width hv)

/-- No character of a kept text is new. -/
theorem KeptAs.subset {s t : String} (h : (text s).KeptAs type (text t)) :
    t.toList ⊆ s.toList := by
  unfold KeptAs at h
  split at h
  · rename_i hs
    obtain ⟨run, ht, hlead, -, -⟩ := h
    cases hs
    rw [Value.text.inj ht, String.toList_ofList]
    exact hlead.subset
  · rw [Value.text.inj h]
    exact List.Subset.refl _

end Value

/-! ## 2. Rows -/

namespace Row

variable {row kept : Row} {schema : Schema}

/-- **Every text has room in its column.** -/
def Within (row : Row) (schema : Schema) : Prop :=
  ∀ (i : Nat) (v : Value) (c : Column), row.values[i]? = some v → schema.columns[i]? = some c →
    v.Within c.type

/-- **What a row reads back as.** -/
structure ReadsBack (row : Row) (schema : Schema) (kept : Row) : Prop where
  /-- Every value as its column keeps it, at no place. -/
  keptAs : row.unplaced.KeptAs schema kept
  /-- A row of the schema. -/
  fits : kept.fits schema
  /-- Nothing is lost exactly if all texts have room. -/
  values_eq_iff : kept.values = row.values ↔ row.Within schema
  /-- No text has a character that was not there. -/
  chars : ∀ (i : Nat) (s t : String), row.values[i]? = some (.text s) →
    kept.values[i]? = some (.text t) → t.toList ⊆ s.toList

/-- A row that matches has a column for every value. -/
theorem exists_column (h : row.fits schema) {i : Nat} {v : Value} (hv : row.values[i]? = some v) :
    ∃ c, schema.columns[i]? = some c := by
  have hlen := (fitsColumns_iff.mp (fits_iff.mp h)).1
  obtain ⟨hlt, -⟩ := List.getElem?_eq_some_iff.mp hv
  exact ⟨_, List.getElem?_eq_getElem (hlen ▸ hlt)⟩

theorem KeptAs.values_eq_iff (hkept : row.KeptAs schema kept) (h : row.fits schema) :
    kept.values = row.values ↔ row.Within schema := by
  constructor
  · intro heq i v c hv hc
    obtain ⟨w, hw, hkeep⟩ := hkept.value i v c hv hc
    rw [heq, hv] at hw
    exact hkeep.eq_iff.mp (Option.some.inj hw).symm
  · intro hroom
    refine List.ext_getElem? fun i => ?_
    cases hv : row.values[i]? with
    | none =>
      rw [List.getElem?_eq_none_iff] at hv ⊢
      rwa [hkept.length_eq]
    | some v =>
      obtain ⟨c, hc⟩ := exists_column h hv
      obtain ⟨w, hw, hkeep⟩ := hkept.value i v c hv hc
      rw [hw, hkeep.eq_iff.mpr (hroom i v c hv hc)]

theorem KeptAs.chars (hkept : row.KeptAs schema kept) (h : row.fits schema) {i : Nat}
    {s t : String} (hs : row.values[i]? = some (.text s)) (ht : kept.values[i]? = some (.text t)) :
    t.toList ⊆ s.toList := by
  obtain ⟨c, hc⟩ := exists_column h hs
  obtain ⟨w, hw, hkeep⟩ := hkept.value i _ c hs hc
  rw [ht] at hw
  obtain rfl := Option.some.inj hw
  exact hkeep.subset

theorem readsBack_asStored (h : row.fits schema) :
    row.ReadsBack schema (row.unplaced.asStored schema) := by
  have hfits : row.unplaced.fits schema := h
  have hkept := keptAs_asStored hfits
  exact ⟨hkept, fits_asStored hfits, hkept.values_eq_iff hfits,
    fun _ _ _ hs ht => hkept.chars hfits hs ht⟩

/-- What is known of a row that was read. -/
theorem of_decode {r r' : Reader} (hd : decode r schema = (r', .ok row)) :
    schema.rowSize ≤ r.rest.length
      ∧ r' = ⟨r.pos + schema.rowSize, r.rest.drop schema.rowSize⟩ ∧ row.fits schema := by
  rcases Nat.lt_or_ge r.rest.length schema.rowSize with hlt | hle
  · obtain ⟨r'', f, hf⟩ := decode_of_lt hlt
    rw [hd] at hf
    cases hf
  · obtain ⟨row', hrow, hfits, -⟩ := decode_of_le hle
    rw [hd] at hrow
    cases hrow
    exact ⟨hle, rfl, hfits⟩

/-- **The format of rows.**  For every schema:

* a row that matches it is written, behind whatever was written before, as exactly the room of a
  row;
* from there it is read, wherever it stands and whatever follows, as what its columns keep of it,
  and the reader stands behind it then;
* a row is read exactly if there are enough bytes, whatever they are; the reader has passed the room
  of a row then, and the row matches the schema. -/
theorem row_codec (schema : Schema) :
    (∀ row : Row, row.fits schema →
      (row.encode schema).length = schema.rowSize
        ∧ (∀ w : Writer, (w.write (row.encode schema)).bytes = w.bytes ++ row.encode schema)
        ∧ ∃ kept, row.ReadsBack schema kept ∧ ∀ (pos : Nat) (rest : List UInt8),
          decode ⟨pos, row.encode schema ++ rest⟩ schema
            = (⟨pos + schema.rowSize, rest⟩, .ok kept))
      ∧ ∀ r : Reader,
        ((∃ r' row, decode r schema = (r', .ok row)) ↔ schema.rowSize ≤ r.rest.length)
          ∧ ∀ r' row, decode r schema = (r', .ok row) →
            r' = ⟨r.pos + schema.rowSize, r.rest.drop schema.rowSize⟩ ∧ row.fits schema := by
  refine ⟨fun row h => ⟨length_encode h, fun _ => rfl, _, readsBack_asStored h,
    decode_encode h⟩, fun r => ⟨⟨?_, ?_⟩, fun _ _ hd => (of_decode hd).2⟩⟩
  · rintro ⟨r', row, hd⟩
    exact (of_decode hd).1
  · intro hle
    obtain ⟨row, hd, -⟩ := decode_of_le hle
    exact ⟨_, row, hd⟩

/-- A column of two bytes has no room for the second character of `aé`; a row behind it is read
from its own place. -/
theorem row_codec_cut :
    let schema : Schema := ⟨[⟨"s", .bytes 2⟩, ⟨"n", .int64⟩]⟩
    let row : Row := ⟨[.text "aé", .int (-2)], none⟩
    row.encode schema = [1, 0x61, 0, 0xFF, 0xFF, 0xFF, 0xFF, 0xFF, 0xFF, 0xFF, 0xFE]
      ∧ decode ⟨5, row.encode schema ++ [0xC3, 0xA9]⟩ schema
        = (⟨16, [0xC3, 0xA9]⟩, .ok ⟨[.text "a", .int (-2)], none⟩)
      ∧ ¬row.Within schema := by
  intro schema row
  obtain ⟨-, -, kept, hkept, hread⟩ := (row_codec schema).1 row (by decide +kernel)
  have hrow : decode ⟨5, row.encode schema ++ [0xC3, 0xA9]⟩ schema
      = (⟨16, [0xC3, 0xA9]⟩, .ok ⟨[.text "a", .int (-2)], none⟩) := rfl
  refine ⟨by decide +kernel, hrow, fun hwithin => ?_⟩
  have hvalues := hkept.values_eq_iff.mpr hwithin
  rw [hread 5 [0xC3, 0xA9], Prod.mk.injEq, Except.ok.injEq] at hrow
  rw [hrow.2] at hvalues
  exact absurd hvalues (by decide +kernel)

end Row

end RowStore
