import RowStore.Codec.Lemmas

/-!
# What a column keeps of a value

A column has a fixed room, and a text that is longer loses characters at its end when it is
stored.  This module says what "cut" means without the function that cuts (`Value.KeptAs`,
`Row.KeptAs`) and proves that `Value.cut` and `Row.asStored` are such cuts.

Two facts carry everything that is written twice: a cut value is written as the same bytes
(`Value.encode_cut`), and cutting again changes nothing (`Value.cut_cut`).
-/

namespace RowStore

/-! ## 1. Values -/

namespace Value

/-- **What a column keeps of a value.**  Of a text it is the longest run of leading characters
whose bytes fit into the column's width; any other value is kept as it is. -/
def KeptAs : Value → ColumnType → Value → Prop
  | text s, .bytes width, kept =>
    ∃ run : List Char, kept = text (String.ofList run) ∧ run <+: s.toList
      ∧ (Utf8.encode run).length ≤ width.toNat
      ∧ ∀ longer, longer <+: s.toList → (Utf8.encode longer).length ≤ width.toNat →
          longer <+: run
  | v, _, kept => kept = v

theorem keptAs_cut : ∀ (v : Value) (type : ColumnType), v.KeptAs type (v.cut type)
  | bool _, _ => rfl
  | int _, _ => rfl
  | text _, .bool => rfl
  | text _, .int64 => rfl
  | text s, .bytes width =>
    ⟨Utf8.fit width.toNat s.toList, rfl, Utf8.fit_isPrefix _ _, Utf8.length_encode_fit_le _ _,
      fun _ hp hl => Utf8.isPrefix_fit_of_le hp hl⟩

@[simp] theorem fits_cut (v : Value) (type : ColumnType) :
    (v.cut type).fits type = v.fits type := by
  cases v <;> cases type <;> rfl

/-- Cutting again changes nothing. -/
@[simp] theorem cut_cut : ∀ (v : Value) (type : ColumnType),
    (v.cut type).cut type = v.cut type
  | bool _, _ => rfl
  | int _, _ => rfl
  | text _, .bool => rfl
  | text _, .int64 => rfl
  | text s, .bytes width => by simp [cut, Utf8.fit_fit]

/-- **A cut value is written as the same bytes.** -/
@[simp] theorem encode_cut : ∀ (v : Value) (type : ColumnType),
    (v.cut type).encode type = v.encode type
  | bool _, _ => rfl
  | int _, _ => rfl
  | text _, .bool => rfl
  | text _, .int64 => rfl
  | text s, .bytes width => by simp [cut, encode, Utf8.fit_fit]

end Value

/-! ## 2. Rows -/

namespace Row

theorem fitsColumns_cutValues : ∀ {vs : List Value} {cs : List Column},
    FitsColumns vs cs → FitsColumns (cutValues vs cs) cs
  | [], [], _ => trivial
  | v :: _, c :: _, ⟨hv, hvs⟩ => by
    rw [← Value.fits_cut v c.type] at hv
    exact ⟨hv, fitsColumns_cutValues hvs⟩

@[simp] theorem cutValues_cutValues : ∀ (vs : List Value) (cs : List Column),
    cutValues (cutValues vs cs) cs = cutValues vs cs
  | [], _ => rfl
  | _ :: _, [] => rfl
  | v :: vs, c :: cs => by
    have ih := cutValues_cutValues vs cs
    simp only [cutValues, List.zip_cons_cons, List.map_cons, Value.cut_cut, List.cons.injEq,
      true_and] at ih ⊢
    exact ih

theorem encodeValues_cutValues : ∀ (vs : List Value) (cs : List Column),
    encodeValues (cutValues vs cs) cs = encodeValues vs cs
  | [], _ => rfl
  | _ :: _, [] => rfl
  | v :: vs, c :: cs => by
    have ih := encodeValues_cutValues vs cs
    have hc : cutValues (v :: vs) (c :: cs) = v.cut c.type :: cutValues vs cs := rfl
    rw [hc, encodeValues_cons, encodeValues_cons, Value.encode_cut, ih]

theorem getElem?_cutValues {vs : List Value} {cs : List Column} {i : Nat} {v : Value}
    {c : Column} (hv : vs[i]? = some v) (hc : cs[i]? = some c) :
    (cutValues vs cs)[i]? = some (v.cut c.type) := by
  have hz : (vs.zip cs)[i]? = some (v, c) := List.getElem?_zip_eq_some.mpr ⟨hv, hc⟩
  rw [cutValues, List.getElem?_map, hz]
  rfl

/-- The row as it reads after it was stored: every value cut to its column. -/
def asStored (schema : Schema) (row : Row) : Row :=
  { row with values := cutValues row.values schema.columns }

@[simp] theorem asStored_values (schema : Schema) (row : Row) :
    (row.asStored schema).values = cutValues row.values schema.columns := rfl

@[simp] theorem asStored_asStored (schema : Schema) (row : Row) :
    (row.asStored schema).asStored schema = row.asStored schema := by
  simp [asStored]

theorem fits_asStored {row : Row} {schema : Schema} (h : row.fits schema) :
    (row.asStored schema).fits schema :=
  fits_iff.mpr (fitsColumns_cutValues (fits_iff.mp h))

/-- **A stored row is written as the same bytes.** -/
@[simp] theorem encode_asStored (row : Row) (schema : Schema) :
    (row.asStored schema).encode schema = row.encode schema :=
  encodeValues_cutValues row.values schema.columns

/-- **What a table keeps of a row**: the same place, and of every value what its column keeps. -/
structure KeptAs (row : Row) (schema : Schema) (kept : Row) : Prop where
  rid_eq : kept.rid = row.rid
  length_eq : kept.values.length = row.values.length
  value : ∀ (i : Nat) (v : Value) (c : Column), row.values[i]? = some v →
    schema.columns[i]? = some c → ∃ w, kept.values[i]? = some w ∧ v.KeptAs c.type w

theorem keptAs_asStored {row : Row} {schema : Schema} (h : row.fits schema) :
    row.KeptAs schema (row.asStored schema) where
  rid_eq := rfl
  length_eq := by
    have hl := (fitsColumns_iff.mp (fits_iff.mp h)).1
    simp [cutValues, hl]
  value i v c hv hc := ⟨v.cut c.type, getElem?_cutValues hv hc, v.keptAs_cut c.type⟩

end Row

end RowStore
