import RowStore.Bytes.Lemmas
import RowStore.Codec
import RowStore.Text.Utf8.Lemmas

/-!
# Laws of the row format

Every value takes exactly the room of its column (`Value.length_encode`), whatever follows it in
the bytes it reads back as its cut (`Value.decode_encode`), and any bytes that are long enough are
read as some value of the column's type (`Value.decode_of_le`).  The same holds of rows.
-/

namespace RowStore

/-! ## 1. Readers -/

namespace Reader

theorem read_of_le {r : Reader} {n : Nat} (h : n ≤ r.rest.length) :
    r.read n = (⟨r.pos + n, r.rest.drop n⟩, .ok (r.rest.take n)) := by
  have ht : (r.rest.take n).length = n := by rw [List.length_take, Nat.min_eq_left h]
  simp only [read, ht, if_true]

theorem read_of_lt {r : Reader} {n : Nat} (h : r.rest.length < n) :
    r.read n = (r, .error (.readPastEnd r.pos (r.pos + n) (r.pos + r.rest.length))) := by
  have ht : (r.rest.take n).length ≠ n := by rw [List.length_take]; omega
  simp only [read, if_neg ht]

theorem read_append {pos n : Nat} {bytes : List UInt8} (rest : List UInt8)
    (h : bytes.length = n) :
    (⟨pos, bytes ++ rest⟩ : Reader).read n = (⟨pos + n, rest⟩, .ok bytes) := by
  subst h
  rw [read_of_le (by simp), List.drop_left, List.take_left]

theorem skip_of_le {r : Reader} {n : Nat} (h : n ≤ r.rest.length) :
    r.skip n = (⟨r.pos + n, r.rest.drop n⟩, .ok ()) := by
  rw [skip, read_of_le h]

theorem skip_append {pos n : Nat} {bytes : List UInt8} (rest : List UInt8)
    (h : bytes.length = n) :
    (⟨pos, bytes ++ rest⟩ : Reader).skip n = (⟨pos + n, rest⟩, .ok ()) := by
  rw [skip, read_append rest h]

end Reader

/-! ## 2. Values -/

namespace Value

theorem fits_bool_iff {v : Value} : v.fits .bool ↔ ∃ b, v = .bool b := by
  cases v <;> simp [fits]

theorem fits_int64_iff {v : Value} : v.fits .int64 ↔ ∃ n, v = .int n := by
  cases v <;> simp [fits]

theorem fits_bytes_iff {v : Value} {width : UInt8} : v.fits (.bytes width) ↔ ∃ s, v = .text s := by
  cases v <;> simp [fits]

/-- The bytes of a text are as many as the length byte can say. -/
theorem length_body_le (width : UInt8) (s : String) :
    (Utf8.encode (Utf8.fit width.toNat s.toList)).length ≤ width.toNat :=
  Utf8.length_encode_fit_le _ _

/-- **A value takes exactly the room of its column.** -/
@[simp] theorem length_encode (v : Value) (type : ColumnType) :
    (v.encode type).length = type.size := by
  cases v <;> cases type <;> simp [encode, ColumnType.size]
  rename_i s width
  have h := length_body_le width s
  omega

theorem toNat_singleton (b : UInt8) : Bytes.toNat [b] = b.toNat := by simp [Bytes.toNat]

/-- **A value reads back as its cut**, whatever follows it. -/
theorem decode_encode {v : Value} {type : ColumnType} (h : v.fits type) (pos : Nat)
    (rest : List UInt8) :
    decode ⟨pos, v.encode type ++ rest⟩ type = (⟨pos + type.size, rest⟩, .ok (v.cut type)) := by
  cases type with
  | bool =>
    obtain ⟨b, rfl⟩ := fits_bool_iff.mp h
    rw [encode, decode, Reader.read_append rest (by rfl)]
    cases b <;> rfl
  | int64 =>
    obtain ⟨n, rfl⟩ := fits_int64_iff.mp h
    rw [encode, decode, Reader.read_append rest (by simp)]
    simp [cut, ColumnType.size]
  | bytes width =>
    obtain ⟨s, rfl⟩ := fits_bytes_iff.mp h
    have hb := length_body_le width s
    have hw := width.toNat_lt
    simp only [encode, decode]
    generalize hbody : Utf8.encode (Utf8.fit width.toNat s.toList) = body at hb
    have hlen : (UInt8.ofNat body.length).toNat = body.length :=
      Utf8.toNat_ofNat (by omega)
    rw [show UInt8.ofNat body.length :: body ++ Bytes.zeros (width.toNat - body.length) ++ rest
      = [UInt8.ofNat body.length] ++ (body ++ Bytes.zeros (width.toNat - body.length) ++ rest) by
        simp]
    rw [Reader.read_append _ (by rfl)]
    simp only
    rw [Reader.read_append rest (by simp; omega)]
    simp only [toNat_singleton, hlen, Nat.min_eq_left hb, List.take_left]
    simp [← hbody, cut, ColumnType.size, Nat.add_assoc]

/-- **Bytes that are long enough are read as some value of the type**, and exactly the room of the
type is read. -/
theorem decode_of_le {r : Reader} {type : ColumnType} (h : type.size ≤ r.rest.length) :
    ∃ v, decode r type = (⟨r.pos + type.size, r.rest.drop type.size⟩, .ok v) ∧ v.fits type := by
  cases type with
  | bool =>
    simp only [decode, ColumnType.size] at h ⊢
    rw [Reader.read_of_le h]
    exact ⟨_, rfl, rfl⟩
  | int64 =>
    simp only [decode, ColumnType.size] at h ⊢
    rw [Reader.read_of_le h]
    exact ⟨_, rfl, rfl⟩
  | bytes width =>
    simp only [decode, ColumnType.size] at h ⊢
    rw [Reader.read_of_le (by omega)]
    simp only
    rw [Reader.read_of_le (by simp; omega)]
    simp only [List.drop_drop, Nat.add_assoc]
    exact ⟨_, rfl, rfl⟩

/-- Bytes that are too short are not read as a value. -/
theorem decode_of_lt {r : Reader} {type : ColumnType} (h : r.rest.length < type.size) :
    ∃ r' f, decode r type = (r', .error f) := by
  cases type with
  | bool =>
    simp only [decode, ColumnType.size] at h ⊢
    rw [Reader.read_of_lt h]
    exact ⟨_, _, rfl⟩
  | int64 =>
    simp only [decode, ColumnType.size] at h ⊢
    rw [Reader.read_of_lt h]
    exact ⟨_, _, rfl⟩
  | bytes width =>
    simp only [decode, ColumnType.size] at h ⊢
    by_cases h1 : r.rest.length < 1
    · rw [Reader.read_of_lt h1]
      exact ⟨_, _, rfl⟩
    · rw [Reader.read_of_le (by omega)]
      simp only
      rw [Reader.read_of_lt (by simp; omega)]
      exact ⟨_, _, rfl⟩

end Value

/-! ## 3. Rows -/

namespace Row

/-- What a row that matches a schema is, column by column. -/
def FitsColumns : List Value → List Column → Prop
  | [], [] => True
  | v :: vs, c :: cs => v.fits c.type ∧ FitsColumns vs cs
  | _, _ => False

theorem fitsColumns_iff : ∀ {vs : List Value} {cs : List Column},
    FitsColumns vs cs ↔
      vs.length = cs.length ∧ (vs.zip cs).all (fun (v, c) => v.fits c.type) = true
  | [], [] => by simp [FitsColumns]
  | [], _ :: _ => by simp [FitsColumns]
  | _ :: _, [] => by simp [FitsColumns]
  | v :: vs, c :: cs => by
    simp only [FitsColumns, @fitsColumns_iff vs cs, List.length_cons, List.zip_cons_cons,
      List.all_cons, Bool.and_eq_true, Nat.add_right_cancel_iff]
    exact ⟨fun ⟨a, b, c⟩ => ⟨b, a, c⟩, fun ⟨a, b, c⟩ => ⟨b, a, c⟩⟩

theorem fits_iff {row : Row} {schema : Schema} :
    row.fits schema ↔ FitsColumns row.values schema.columns := by
  rw [fitsColumns_iff]
  simp [fits, Schema.width]

/-- The values of one row, encoded column by column. -/
def encodeValues (vs : List Value) (cs : List Column) : List UInt8 :=
  (vs.zip cs).flatMap fun (v, c) => v.encode c.type

theorem encodeValues_cons (v : Value) (vs : List Value) (c : Column) (cs : List Column) :
    encodeValues (v :: vs) (c :: cs) = v.encode c.type ++ encodeValues vs cs := rfl

theorem length_encodeValues : ∀ {vs : List Value} {cs : List Column},
    vs.length = cs.length → (encodeValues vs cs).length = Column.totalSize cs
  | [], [], _ => rfl
  | v :: vs, c :: cs, h => by
    rw [encodeValues_cons, Column.totalSize, List.length_append, Value.length_encode,
      length_encodeValues (by simpa using h)]

theorem decodeValues_encodeValues : ∀ {vs : List Value} {cs : List Column},
    FitsColumns vs cs → ∀ (pos : Nat) (rest : List UInt8),
      decodeValues ⟨pos, encodeValues vs cs ++ rest⟩ cs
        = (⟨pos + Column.totalSize cs, rest⟩, .ok (cutValues vs cs))
  | [], [], _, pos, rest => by simp [decodeValues, encodeValues, Column.totalSize, cutValues]
  | v :: vs, c :: cs, h, pos, rest => by
    rw [encodeValues_cons, List.append_assoc, decodeValues, Value.decode_encode h.1]
    simp only
    rw [decodeValues_encodeValues h.2, Column.totalSize, Nat.add_assoc]
    rfl

theorem decodeValues_of_le : ∀ {cs : List Column} {r : Reader},
    Column.totalSize cs ≤ r.rest.length →
      ∃ vs, decodeValues r cs
        = (⟨r.pos + Column.totalSize cs, r.rest.drop (Column.totalSize cs)⟩, .ok vs)
        ∧ FitsColumns vs cs
  | [], r, _ => ⟨[], by simp [decodeValues, Column.totalSize], trivial⟩
  | c :: cs, r, h => by
    rw [Column.totalSize] at h
    obtain ⟨v, hv, hf⟩ := @Value.decode_of_le r c.type (by omega)
    obtain ⟨vs, hvs, hfs⟩ := @decodeValues_of_le cs
      ⟨r.pos + c.type.size, r.rest.drop c.type.size⟩ (by simp; omega)
    refine ⟨v :: vs, ?_, hf, hfs⟩
    rw [decodeValues, hv]
    simp only [hvs, Column.totalSize, List.drop_drop, Nat.add_assoc]

theorem decodeValues_of_lt : ∀ {cs : List Column} {r : Reader},
    r.rest.length < Column.totalSize cs → ∃ r' f, decodeValues r cs = (r', .error f)
  | [], r, h => by simp [Column.totalSize] at h
  | c :: cs, r, h => by
    rw [Column.totalSize] at h
    by_cases hc : c.type.size ≤ r.rest.length
    · obtain ⟨v, hv, _⟩ := Value.decode_of_le hc
      obtain ⟨r', f, hf⟩ := @decodeValues_of_lt cs
        ⟨r.pos + c.type.size, r.rest.drop c.type.size⟩ (by simp; omega)
      exact ⟨r', f, by rw [decodeValues, hv]; simp only [hf]⟩
    · obtain ⟨r', f, hf⟩ := Value.decode_of_lt (Nat.lt_of_not_le hc)
      exact ⟨r', f, by rw [decodeValues, hf]⟩

/-- **A row that matches its schema takes exactly the room of a row.** -/
theorem length_encode {row : Row} {schema : Schema} (h : row.fits schema) :
    (row.encode schema).length = schema.rowSize :=
  length_encodeValues (fitsColumns_iff.mp (fits_iff.mp h)).1

/-- **A row that matches its schema reads back as its cut**, whatever follows it. -/
theorem decode_encode {row : Row} {schema : Schema} (h : row.fits schema) (pos : Nat)
    (rest : List UInt8) :
    decode ⟨pos, row.encode schema ++ rest⟩ schema
      = (⟨pos + schema.rowSize, rest⟩, .ok ⟨cutValues row.values schema.columns, none⟩) := by
  have hd := decodeValues_encodeValues (fits_iff.mp h) pos rest
  unfold decode
  rw [show row.encode schema = encodeValues row.values schema.columns from rfl, hd]
  rfl

/-- **Bytes that are long enough are read as some row of the schema**, and exactly the room of a
row is read. -/
theorem decode_of_le {r : Reader} {schema : Schema} (h : schema.rowSize ≤ r.rest.length) :
    ∃ row, decode r schema = (⟨r.pos + schema.rowSize, r.rest.drop schema.rowSize⟩, .ok row)
      ∧ row.fits schema ∧ row.rid = none := by
  obtain ⟨vs, hvs, hf⟩ := @decodeValues_of_le schema.columns r h
  refine ⟨⟨vs, none⟩, ?_, fits_iff.mpr hf, rfl⟩
  unfold decode
  rw [hvs]
  rfl

/-- Bytes that are too short are not read as a row. -/
theorem decode_of_lt {r : Reader} {schema : Schema} (h : r.rest.length < schema.rowSize) :
    ∃ r' f, decode r schema = (r', .error f) := by
  obtain ⟨r', f, hf⟩ := @decodeValues_of_lt schema.columns r h
  exact ⟨r', f, by unfold decode; rw [hf]⟩

end Row

end RowStore
