import RowStore.Room
import Std.Data.TreeMap
import Std.Data.TreeSet

/-!
# Where things are: tables, pages and records

A table is known by an id that is made from the canonical path of its file, a page by its table and
its index in the file, a record by its page and its slot.

Pages have a total order, so that sets of pages and maps from pages can be kept as search trees.
-/

namespace RowStore

/-! ## 1. Paths -/

/-- A canonical path below the store's directory: the names from the directory down, with no empty
name and no name that means "here" or "up". -/
structure Path where
  names : List String
  deriving DecidableEq, Repr

/-- The names joined by slashes. -/
def Path.text (p : Path) : String := "/".intercalate p.names

/-- The whole path, the store's own directory being written as `$DIR`. -/
def Path.rooted (p : Path) : String := "$DIR/" ++ p.text

/-! ## 2. Tables -/

/-- **What a table is known by**: a number that is made from the path of its file, or, where no two
files are to have one number, the path itself. -/
inductive TableId where
  | number (n : UInt32)
  | file (path : Path)
  deriving DecidableEq, Repr

namespace TableId

/-- A number in decimal, a path in angle brackets. -/
def text : TableId → String
  | number n => toString n.toNat
  | file path => "<" ++ path.text ++ ">"

/-- The number; every path is past all numbers. -/
def rank : TableId → Nat
  | number n => n.toNat
  | file _ => 0x100000000

/-- The names that lead to the file; a number has none. -/
def names : TableId → List String
  | number _ => []
  | file path => path.names

/-- Numbers by value and before paths, paths by their names. -/
instance : Ord TableId where
  compare := compareLex (compareOn rank) (compareOn names)

instance : Std.TransOrd TableId :=
  inferInstanceAs (Std.TransCmp (compareLex (compareOn rank) (compareOn names)))

instance : Std.LawfulEqOrd TableId where
  eq_of_compare {a b} h := by
    have h : (compare a.rank b.rank).then (compare a.names b.names) = .eq := h
    rw [Ordering.then_eq_eq, Std.compare_eq_iff_eq, Std.compare_eq_iff_eq] at h
    obtain ⟨hr, hn⟩ := h
    cases a with
    | number m =>
      cases b with
      | number n => exact congrArg number (UInt32.toNat_inj.mp hr)
      | file q =>
        simp only [rank] at hr
        have := m.toNat_lt
        omega
    | file p =>
      cases b with
      | number n =>
        simp only [rank] at hr
        have := n.toNat_lt
        omega
      | file q =>
        cases p
        cases q
        simp only [names] at hn
        rw [hn]

end TableId

/-! ## 3. Pages -/

/-- One page among the pages of all tables. -/
structure PageId where
  table : TableId
  index : UInt32
  deriving Repr

namespace PageId

/-- The indices are compared first: they are what mostly tells two pages apart. -/
instance : DecidableEq PageId := fun a b =>
  if hi : a.index = b.index then
    if ht : a.table = b.table then
      .isTrue (by cases a; cases b; simp_all)
    else .isFalse fun h => ht (congrArg table h)
  else .isFalse fun h => hi (congrArg index h)

/-- The table and the index, joined by an underscore. -/
def text (p : PageId) : String := p.table.text ++ "_" ++ toString p.index.toNat

/-- The page without its table. -/
def shortText (p : PageId) : String := "page_" ++ toString p.index.toNat

/-- Where the page begins in its file. -/
def offset (p : PageId) (pageSize : Nat) : Nat := p.index.toNat * pageSize

/-- The same, if it is a position. -/
def offset? (p : PageId) (pageSize : Nat) : Option Nat :=
  if isSize (p.offset pageSize) then some (p.offset pageSize) else none

/-- By table, then by index. -/
instance : Ord PageId where
  compare := compareLex (compareOn table) (compareOn index)

instance : Std.TransOrd PageId :=
  inferInstanceAs (Std.TransCmp (compareLex (compareOn table) (compareOn index)))

instance : Std.LawfulEqOrd PageId where
  eq_of_compare {a b} h := by
    have h : (compare a.table b.table).then (compare a.index b.index) = .eq := h
    rw [Ordering.then_eq_eq, Std.compare_eq_iff_eq, Std.compare_eq_iff_eq] at h
    cases a
    cases b
    simp_all

end PageId

/-- A map from pages. -/
abbrev PageMap (α : Type) := Std.TreeMap PageId α

/-- A set of pages. -/
abbrev PageSet := Std.TreeSet PageId

/-! ## 4. Records -/

/-- One slot of one page. -/
structure RecordId where
  page : PageId
  slot : Nat
  deriving DecidableEq, Repr

/-- The page and the slot, joined by a number sign. -/
def RecordId.text (r : RecordId) : String := r.page.text ++ "#" ++ toString r.slot

end RowStore
