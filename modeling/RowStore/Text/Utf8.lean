/-!
# UTF-8: cutting a text to a number of bytes, and reading bytes that may be damaged

Two rules of the store live here.

* **A text is cut between characters.**  A column has room for a fixed number of bytes; a longer
  text keeps the longest run of whole leading characters that fits (`fit`).
* **Reading never fails.**  Bytes that are no UTF-8 are read as well as they can be: every longest
  piece that begins a character but does not finish it, and every byte that can begin none, is read
  as one replacement character (`decode`).  The reader is a machine that takes one byte at a time
  and remembers the character it is in the middle of (`Pending`).
-/

namespace RowStore.Utf8

/-! ## 1. Writing -/

/-- The bytes of a text. -/
def encode (cs : List Char) : List UInt8 := cs.flatMap String.utf8EncodeChar

/-- The longest run of leading characters whose bytes fit into `room`. -/
def fit : Nat → List Char → List Char
  | _, [] => []
  | room, c :: cs => if c.utf8Size ≤ room then c :: fit (room - c.utf8Size) cs else []

/-! ## 2. Reading -/

/-- A character of which only the first bytes were seen: how many are still owed, between which
bounds the next one has to lie, and the bits collected so far. -/
structure Pending where
  owed : Nat
  low : UInt8
  high : UInt8
  bits : Nat
  deriving DecidableEq, Repr

/-- What stands for a piece that is no character. -/
def replacement : Char := Char.ofNat 0xFFFD

/-- **A first byte.**  It is a character of its own, or begins a longer one, or neither.  The
bounds on the second byte keep out overlong forms (after `E0` and `F0`), surrogates (after `ED`)
and codes beyond the last plane (after `F4`). -/
def first (b : UInt8) : List Char × Option Pending :=
  if b < 0x80 then ([Char.ofNat b.toNat], none)
  else if b < 0xC2 then ([replacement], none)
  else if b < 0xE0 then ([], some ⟨1, 0x80, 0xBF, b.toNat - 0xC0⟩)
  else if b < 0xF0 then
    ([], some ⟨2, if b = 0xE0 then 0xA0 else 0x80, if b = 0xED then 0x9F else 0xBF, b.toNat - 0xE0⟩)
  else if b < 0xF5 then
    ([], some ⟨3, if b = 0xF0 then 0x90 else 0x80, if b = 0xF4 then 0x8F else 0xBF, b.toNat - 0xF0⟩)
  else ([replacement], none)

/-- One byte: the characters it completes, and what is pending after it.  A byte that does not
continue the pending character ends that one as damaged and is then looked at as a first byte. -/
def step : Option Pending → UInt8 → List Char × Option Pending
  | none, b => first b
  | some p, b =>
    if p.low ≤ b ∧ b ≤ p.high then
      let bits := p.bits * 64 + (b.toNat - 0x80)
      if p.owed ≤ 1 then ([Char.ofNat bits], none)
      else ([], some ⟨p.owed - 1, 0x80, 0xBF, bits⟩)
    else
      let (cs, next) := first b
      (replacement :: cs, next)

/-- Reading on from a pending character.  A character still pending at the end is damaged. -/
def decodeFrom : Option Pending → List UInt8 → List Char
  | none, [] => []
  | some _, [] => [replacement]
  | pending, b :: bs =>
    let (cs, next) := step pending b
    cs ++ decodeFrom next bs

/-- The text that a list of bytes is read as. -/
def decode (bytes : List UInt8) : List Char := decodeFrom none bytes

end RowStore.Utf8
