import RowStore.Text.Utf8

/-!
# Laws of UTF-8

What `fit` keeps is a leading run of characters (`fit_isPrefix`) whose bytes fit
(`length_encode_fit_le`), and no longer run fits (`isPrefix_fit_of_le`).  Undamaged bytes are read
as the text they were written from (`decode_encode`).
-/

namespace RowStore.Utf8

/-! ## 1. Cutting -/

@[simp] theorem encode_nil : encode [] = [] := rfl

theorem encode_cons (c : Char) (cs : List Char) :
    encode (c :: cs) = String.utf8EncodeChar c ++ encode cs := rfl

theorem length_encode_cons (c : Char) (cs : List Char) :
    (encode (c :: cs)).length = c.utf8Size + (encode cs).length := by
  rw [encode_cons, List.length_append, String.length_utf8EncodeChar]

/-- What is kept are leading characters. -/
theorem fit_isPrefix : ∀ (room : Nat) (cs : List Char), fit room cs <+: cs
  | _, [] => by simp [fit]
  | room, c :: cs => by
    unfold fit
    split
    · exact List.cons_prefix_cons.mpr ⟨rfl, fit_isPrefix _ cs⟩
    · exact List.nil_prefix

/-- What is kept fits. -/
theorem length_encode_fit_le : ∀ (room : Nat) (cs : List Char),
    (encode (fit room cs)).length ≤ room
  | _, [] => by simp [fit]
  | room, c :: cs => by
    unfold fit
    split
    · have ih := length_encode_fit_le (room - c.utf8Size) cs
      rw [length_encode_cons]
      omega
    · simp

/-- **No longer run of leading characters fits.** -/
theorem isPrefix_fit_of_le : ∀ {room : Nat} {run cs : List Char},
    run <+: cs → (encode run).length ≤ room → run <+: fit room cs
  | _, [], _, _, _ => List.nil_prefix
  | _, c :: run, [], h, _ => by simp at h
  | room, c :: run, d :: cs, h, hr => by
    obtain ⟨rfl, ht⟩ := List.cons_prefix_cons.mp h
    rw [length_encode_cons] at hr
    unfold fit
    rw [if_pos (by omega)]
    exact List.cons_prefix_cons.mpr ⟨rfl, isPrefix_fit_of_le ht (by omega)⟩

/-- A text that fits is kept whole. -/
theorem fit_of_le {room : Nat} {cs : List Char} (h : (encode cs).length ≤ room) :
    fit room cs = cs :=
  (fit_isPrefix room cs).eq_of_length_le (isPrefix_fit_of_le (List.prefix_refl cs) h).length_le

/-- Cutting again to the same room keeps everything. -/
theorem fit_fit (room : Nat) (cs : List Char) : fit room (fit room cs) = fit room cs :=
  fit_of_le (length_encode_fit_le room cs)

/-! ## 2. First and later bytes -/

theorem toNat_ofNat {n : Nat} (hn : n < 256) : (UInt8.ofNat n).toNat = n := by
  rw [UInt8.toNat_ofNat']
  exact Nat.mod_eq_of_lt hn

theorem ofNat_lt {n : Nat} (b : UInt8) (hn : n < 256) (h : n < b.toNat) : UInt8.ofNat n < b := by
  rw [UInt8.lt_iff_toNat_lt, toNat_ofNat hn]
  exact h

theorem not_ofNat_lt {n : Nat} (b : UInt8) (hn : n < 256) (h : b.toNat ≤ n) :
    ¬ UInt8.ofNat n < b := by
  rw [UInt8.lt_iff_toNat_lt, toNat_ofNat hn]
  exact Nat.not_lt.mpr h

theorem ofNat_eq_iff {n : Nat} (b : UInt8) (hn : n < 256) : UInt8.ofNat n = b ↔ n = b.toNat := by
  rw [← UInt8.toNat_inj, toNat_ofNat hn]

theorem first_ascii {n : Nat} (h : n < 0x80) : first (UInt8.ofNat n) = ([Char.ofNat n], none) := by
  have hn : n < 256 := by omega
  rw [first, if_pos (ofNat_lt 0x80 hn h), toNat_ofNat hn]

theorem first_two {n : Nat} (h : 0xC2 ≤ n) (h' : n < 0xE0) :
    first (UInt8.ofNat n) = ([], some ⟨1, 0x80, 0xBF, n - 0xC0⟩) := by
  have hn : n < 256 := by omega
  have h1 : 0x80 ≤ n := by omega
  rw [first, if_neg (not_ofNat_lt 0x80 hn h1), if_neg (not_ofNat_lt 0xC2 hn h),
    if_pos (ofNat_lt 0xE0 hn h'), toNat_ofNat hn]

theorem first_three {n : Nat} (h : 0xE0 ≤ n) (h' : n < 0xF0) :
    first (UInt8.ofNat n) = ([], some ⟨2, if n = 0xE0 then 0xA0 else 0x80,
      if n = 0xED then 0x9F else 0xBF, n - 0xE0⟩) := by
  have hn : n < 256 := by omega
  have h1 : 0x80 ≤ n := by omega
  have h2 : 0xC2 ≤ n := by omega
  have e0 : UInt8.ofNat n = 0xE0 ↔ n = 0xE0 := ofNat_eq_iff 0xE0 hn
  have ed : UInt8.ofNat n = 0xED ↔ n = 0xED := ofNat_eq_iff 0xED hn
  rw [first, if_neg (not_ofNat_lt 0x80 hn h1), if_neg (not_ofNat_lt 0xC2 hn h2),
    if_neg (not_ofNat_lt 0xE0 hn h), if_pos (ofNat_lt 0xF0 hn h'), toNat_ofNat hn]
  simp only [e0, ed]

theorem first_four {n : Nat} (h : 0xF0 ≤ n) (h' : n < 0xF5) :
    first (UInt8.ofNat n) = ([], some ⟨3, if n = 0xF0 then 0x90 else 0x80,
      if n = 0xF4 then 0x8F else 0xBF, n - 0xF0⟩) := by
  have hn : n < 256 := by omega
  have h1 : 0x80 ≤ n := by omega
  have h2 : 0xC2 ≤ n := by omega
  have h3 : 0xE0 ≤ n := by omega
  have f0 : UInt8.ofNat n = 0xF0 ↔ n = 0xF0 := ofNat_eq_iff 0xF0 hn
  have f4 : UInt8.ofNat n = 0xF4 ↔ n = 0xF4 := ofNat_eq_iff 0xF4 hn
  rw [first, if_neg (not_ofNat_lt 0x80 hn h1), if_neg (not_ofNat_lt 0xC2 hn h2),
    if_neg (not_ofNat_lt 0xE0 hn h3), if_neg (not_ofNat_lt 0xF0 hn h),
    if_pos (ofNat_lt 0xF5 hn h'), toNat_ofNat hn]
  simp only [f0, f4]

/-- The last byte that was owed completes the character. -/
theorem step_last {low high : UInt8} {bits n : Nat} (hl : low.toNat ≤ n) (hh : n ≤ high.toNat) :
    step (some ⟨1, low, high, bits⟩) (UInt8.ofNat n)
      = ([Char.ofNat (bits * 64 + (n - 0x80))], none) := by
  have hb := high.toNat_lt
  have hn : (UInt8.ofNat n).toNat = n := toNat_ofNat (by omega)
  have hin : low ≤ UInt8.ofNat n ∧ UInt8.ofNat n ≤ high := by
    rw [UInt8.le_iff_toNat_le, UInt8.le_iff_toNat_le, hn]
    exact ⟨hl, hh⟩
  simp only [step, if_pos hin, hn, Nat.le_refl, if_true]

/-- Any other byte in its bounds leaves one less owed, now in the usual bounds. -/
theorem step_more {low high : UInt8} {owed bits n : Nat} (hl : low.toNat ≤ n)
    (hh : n ≤ high.toNat) :
    step (some ⟨owed + 2, low, high, bits⟩) (UInt8.ofNat n)
      = ([], some ⟨owed + 1, 0x80, 0xBF, bits * 64 + (n - 0x80)⟩) := by
  have hb := high.toNat_lt
  have hn : (UInt8.ofNat n).toNat = n := toNat_ofNat (by omega)
  have hin : low ≤ UInt8.ofNat n ∧ UInt8.ofNat n ≤ high := by
    rw [UInt8.le_iff_toNat_le, UInt8.le_iff_toNat_le, hn]
    exact ⟨hl, hh⟩
  simp only [step, if_pos hin, hn]
  rw [if_neg (by omega)]
  rfl

/-! ## 3. Reading what was written -/

theorem decodeFrom_cons (pending : Option Pending) (b : UInt8) (bs : List UInt8) :
    decodeFrom pending (b :: bs) = (step pending b).1 ++ decodeFrom (step pending b).2 bs := by
  cases pending <;> rfl

/-- The code of a character is below the surrogates or above them, and below the last plane's
end. -/
theorem toNat_bounds (c : Char) :
    c.toNat < 0xD800 ∨ 0xDFFF < c.toNat ∧ c.toNat < 0x110000 := c.valid

/-- **A character's bytes are read as that character**, whatever follows them. -/
theorem decodeFrom_utf8EncodeChar (c : Char) (rest : List UInt8) :
    decodeFrom none (String.utf8EncodeChar c ++ rest) = c :: decodeFrom none rest := by
  have hv := toNat_bounds c
  have hc : Char.ofNat c.toNat = c := Char.ofNat_toNat c
  have hn : c.val.toNat = c.toNat := rfl
  unfold String.utf8EncodeChar
  simp only [hn]
  split
  · rename_i h1
    rw [List.cons_append, decodeFrom_cons, show step none (UInt8.ofNat c.toNat) = _ from
      first_ascii (by omega)]
    simp [hc]
  · split
    · rename_i h1 h2
      rw [List.cons_append, decodeFrom_cons, step, first_two (by omega) (by omega)]
      simp only [List.nil_append, List.cons_append]
      rw [decodeFrom_cons, step_last (by simp) (by simp; omega)]
      rw [show (c.toNat / 64 % 32 + 192 - 0xC0) * 64 + (c.toNat % 64 + 128 - 0x80) = c.toNat by
        omega, hc]
      rfl
    · split
      · rename_i h1 h2 h3
        rw [List.cons_append, decodeFrom_cons, step, first_three (by omega) (by omega)]
        simp only [List.nil_append, List.cons_append]
        rw [decodeFrom_cons, step_more, decodeFrom_cons, step_last (by simp) (by simp; omega)]
        · rw [show ((c.toNat / 4096 % 16 + 224 - 0xE0) * 64 + (c.toNat / 64 % 64 + 128 - 0x80)) * 64
            + (c.toNat % 64 + 128 - 0x80) = c.toNat by omega, hc]
          rfl
        · split
          · simp; omega
          · simp
        · split
          · simp; omega
          · simp; omega
      · rename_i h1 h2 h3
        rw [List.cons_append, decodeFrom_cons, step, first_four (by omega) (by omega)]
        simp only [List.nil_append, List.cons_append]
        rw [decodeFrom_cons, step_more, decodeFrom_cons, step_more (by simp) (by simp; omega),
          decodeFrom_cons, step_last (by simp) (by simp; omega)]
        · rw [show (((c.toNat / 262144 % 8 + 240 - 0xF0) * 64 + (c.toNat / 4096 % 64 + 128 - 0x80))
              * 64 + (c.toNat / 64 % 64 + 128 - 0x80)) * 64
            + (c.toNat % 64 + 128 - 0x80) = c.toNat by omega, hc]
          rfl
        · split
          · simp; omega
          · simp
        · split
          · simp; omega
          · simp; omega

/-- **Undamaged bytes are read as the text they were written from.** -/
@[simp] theorem decode_encode : ∀ cs : List Char, decode (encode cs) = cs
  | [] => rfl
  | c :: cs => by
    rw [decode, encode_cons, decodeFrom_utf8EncodeChar]
    exact congrArg (c :: ·) (decode_encode cs)

end RowStore.Utf8
