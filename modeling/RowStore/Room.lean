/-!
# Room in memory

Sizes, counts and positions have 64 bits, and arithmetic that leaves them is undefined.  What is
built in one piece needs room for all of it at once, and the size of a piece has to be a signed
number of 64 bits; a request for more is undefined as well.  Functions that take a size from their
caller have a checked form, marked by `?`, that answers such a request with nothing.
-/

namespace RowStore

/-- **Whether a number can be a size**, a count or a position. -/
def isSize (n : Nat) : Bool := n ≤ 0xFFFFFFFFFFFFFFFF

/-- **Whether a piece of memory can have room** for `count` things of `size` bytes each. -/
def hasRoom (count size : Nat) : Bool := count * size ≤ 0x7FFFFFFFFFFFFFFF

end RowStore
