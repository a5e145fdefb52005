import Garray.Common
/-!
# `IntArray` (garray_normal_int.go)

| here | there |
| --- | --- |
| `IntArray` | the struct: `mu` as its mode `safe` (`mu.IsSafe()`), `array` |
| `newIntArraySize`, `newIntArray`, `newIntArrayFrom`, `newIntArrayFromCopy` | the constructors (28-62) |
| `remove`, `popLeft` … `popRights`, `range`, `subSlice` | 163-345, through `Common` |
| `fillLoop`, `fill` | `Fill` (476-492): the loop and the start raised to `0` |
| `chunk`, `rands` | `Chunk` (494-515), `Rands` (551-566), through `Common` |
| `pad` | `Pad` (517-542) |
| `get`, `set`, `setArray`, `replace`, `sum`, `sort`, `sortSlice` | 66-140 |
| `insertAt`, `insertBefore`, `insertAfter` | `InsertBefore`, `InsertAfter` (143-159) |
| `pushLeft`, `pushRight`, `append` | 183-199, 348-353 |
| `len`, `slice`, `clone`, `clear`, `searchLoop`, `search`, `contains` | 356-420 |
| `merge`, `rand`, `shuffleLoop`, `shuffle`, `reverseLoop`, `reverse` | 456-586 |
| `countValues` | 603-611, through `Common` |
| `uniqueInner`, `uniqueOuter`, `unique` | `Unique` (423-434): the inner and the outer loop |

Element values are only compared and copied by the modelled methods, so they are `Int`.

`Unique` runs `j` from `i + 1` and, after deleting `a.array[j]`, still steps `j`: the
element that slid into position `j` is never compared with `a.array[i]`. Three equal
values in a row leave two (`unique_three_ones`). What does hold for every slice: the loop
ends without a fault, keeps a subsequence of the slice and loses no value
(`unique_spec`). Only a third copy of a value can be skipped: with at most two copies of
each value the slice `Unique` leaves holds each value once (`unique_nodup`).
-/
namespace Garray

/-- An `IntArray`. -/
structure IntArray where
  safe : Bool
  array : List Int
deriving DecidableEq, Repr

/-- `NewIntArraySize(size, cap, unsafe...)`: `make([]int, size, cap)` panics unless
`0 <= size <= cap` and `cap` elements of 8 bytes fit in `maxAlloc`. -/
def newIntArraySize (size cap : Int) (unsafeMode : Bool) : Option IntArray :=
  if 0 ≤ size ∧ size ≤ cap ∧ cap * 8 ≤ maxAlloc then some ⟨!unsafeMode, List.replicate size.toNat 0⟩
  else none

/-- `NewIntArray(unsafe...)`. -/
def newIntArray (unsafeMode : Bool) : IntArray := ⟨!unsafeMode, []⟩

/-- `NewIntArrayFrom(array, unsafe...)`. -/
def newIntArrayFrom (array : List Int) (unsafeMode : Bool) : IntArray := ⟨!unsafeMode, array⟩

/-- `NewIntArrayFromCopy(array, unsafe...)`: `make` and `copy` into a fresh slice. -/
def newIntArrayFromCopy (array : List Int) (unsafeMode : Bool) : IntArray :=
  ⟨!unsafeMode, goCopy (List.replicate array.length 0) array⟩

namespace IntArray

/-- A method that replaces the backing slice and returns a value. -/
def onArray {β : Type} (a : IntArray) (f : List Int → Option (β × List Int)) :
    Option (β × IntArray) :=
  (f a.array).map fun (value, array) => (value, { a with array })

/-- `Remove(index)`. -/
def remove (a : IntArray) (index : GoInt) : Option (Int × IntArray) :=
  a.onArray (Garray.remove · index.val)

/-- `PopLeft()`. -/
def popLeft (a : IntArray) : Option (Int × IntArray) := a.onArray Garray.popLeft

/-- `PopRight()`. -/
def popRight (a : IntArray) : Option (Int × IntArray) := a.onArray Garray.popRight

/-- `PopRand()`, `draw` being what `grand.Intn` returned. -/
def popRand (a : IntArray) (draw : Nat) : Option (Int × IntArray) :=
  a.onArray (Garray.popRand · draw)

/-- `PopRands(size)`. -/
def popRands (a : IntArray) (size : GoInt) (draws : List Nat) : Option (List Int × IntArray) :=
  a.onArray (Garray.popRands · size.val draws)

/-- `PopLefts(size)`. -/
def popLefts (a : IntArray) (size : GoInt) : Option (List Int × IntArray) :=
  a.onArray (Garray.popLefts · size.val)

/-- `PopRights(size)`. -/
def popRights (a : IntArray) (size : GoInt) : Option (List Int × IntArray) :=
  a.onArray (Garray.popRights · size.val)

/-- `Range(start, end...)`. -/
def range (a : IntArray) (start : GoInt) (endArg : Option GoInt) : Option (List Int) :=
  Garray.range a.safe a.array start.val (endArg.map GoInt.val)

/-- `SubSlice(offset, length...)`. -/
def subSlice (a : IntArray) (offset : GoInt) (length : Option GoInt) : Option (List Int) :=
  Garray.subSlice 8 a.safe a.array offset.val (length.map GoInt.val)

/-- `Rands(size)`, `perm` being what `grand.Perm(len(a.array))` returned. -/
def rands (a : IntArray) (size : GoInt) (perm : List Nat) : Option (List Int) :=
  Garray.rands a.array size.val perm

/-- `Chunk(size)`. -/
def chunk (a : IntArray) (size : GoInt) : Option (List (List Int)) :=
  Garray.chunk a.array size.val

end IntArray

/-! ## `Fill` and `Pad` -/

/-- The loop of `Fill` at index `i` with `count` rounds left: an index past the end appends
`value`, any other is assigned. -/
def fillLoop (value : Int) : Nat → Int → List Int → Option (List Int)
  | 0, _, array => some array
  | count + 1, i, array =>
    if i > array.length - 1 then fillLoop value count (i + 1) (array ++ [value])
    else do fillLoop value count (i + 1) (← goSet array i value)

namespace IntArray

/-- `Fill(startIndex, num, value)`. `startIndex` is raised to `0`; the loop runs `i` from it
while `i < startIndex+num`, a bound that wraps around, so it makes `startIndex+num-startIndex`
rounds when that is positive. -/
def fill (a : IntArray) (startIndex num : GoInt) (value : Int) : Option IntArray := do
  let startIndex := if startIndex.val < 0 then 0 else startIndex.val
  let array ← fillLoop value (wrap (startIndex + num.val) - startIndex).toNat startIndex a.array
  return { a with array }

/-- `Pad(size, value)`. `-size` and `n -= len(a.array)` wrap around. -/
def pad (a : IntArray) (size : GoInt) (value : Int) : Option IntArray := do
  let len : Int := a.array.length
  let size := size.val
  if size = 0 ∨ (size > 0 ∧ size < len) ∨ (size < 0 ∧ size > -len) then return a
  let mut n := size
  if size < 0 then n := wrap (-size)
  n := wrap (n - len)
  let tmp ← goMakeSlice 8 n
  let tmp ← (List.range n.toNat).foldlM (fun tmp (i : Nat) => goSet tmp i value) tmp
  if size > 0 then return { a with array := a.array ++ tmp }
  else return { a with array := tmp ++ a.array }

end IntArray

/-! ## The other methods -/

/-- `sort.Ints`: the sorted permutation. -/
def sortInts (array : List Int) : List Int := array.insertionSort (· ≤ ·)

/-- The body of `InsertBefore` and `InsertAfter` at `index`: `rear` is a copy of
`a.array[index:]`, then `append(a.array[0:index], value)` and `rear`. -/
def insertAt (array : List Int) (index value : Int) : Option (List Int) := do
  let rear ← goSliceFrom array index
  let front ← goSlice array 0 index
  return front ++ [value] ++ rear

/-- The loop of `Search`: the first index from `index` on whose element is `value`, `-1`
when there is none. -/
def searchLoop (value : Int) : List Int → Int → Int
  | [], _ => -1
  | v :: vs, index => if v = value then index else searchLoop value vs (index + 1)

/-- The loop of `Shuffle`: `a.array[i], a.array[v] = a.array[v], a.array[i]` for the `i`-th
entry `v` of the permutation. -/
def shuffleLoop : List Nat → Nat → List Int → Option (List Int)
  | [], _, array => some array
  | v :: perm, i, array => do shuffleLoop perm (i + 1) (← goSwap array i v)

/-- The loop of `Reverse`: swap `a.array[i]` and `a.array[j]` while `i < j`, moving both
inwards; with fuel. -/
def reverseLoop : Nat → Int → Int → List Int → Option (List Int)
  | 0, _, _, _ => none
  | fuel + 1, i, j, array =>
    if i < j then do reverseLoop fuel (i + 1) (j - 1) (← goSwap array i j) else some array

namespace IntArray

/-- `Get(index)`. -/
def get (a : IntArray) (index : GoInt) : Option Int := goIndex a.array index.val

/-- `Set(index, value)`. -/
def set (a : IntArray) (index : GoInt) (value : Int) : Option IntArray := do
  let array ← goSet a.array index.val value
  return { a with array }

/-- `SetArray(array)`. -/
def setArray (a : IntArray) (array : List Int) : IntArray := { a with array }

/-- `Replace(array)`: `a.array[i] = array[i]` for `i < min(len(array), len(a.array))`. -/
def replace (a : IntArray) (array : List Int) : Option IntArray := do
  let max := if array.length > a.array.length then a.array.length else array.length
  let replaced ← (List.range max).foldlM
    (fun acc (i : Nat) => do goSet acc i (← goIndex array i)) a.array
  return { a with array := replaced }

/-- `Sum()`: `sum += v` in `int`, which wraps around. -/
def sum (a : IntArray) : Int := a.array.foldl (fun sum v => wrap (sum + v)) 0

/-- `Sort()`, increasing. -/
def sort (a : IntArray) : IntArray := { a with array := sortInts a.array }

/-- `Sort(true)` and `SortFunc(less)`: `sort.Slice` (outside src/) with the order
`!(a[i] < a[j])`, which is not a strict weak order, or with the caller's `less`. `sort.Slice`
moves elements only by swapping them, so the slice ends as a permutation of itself; which one
depends on the order and on the algorithm, and is the argument `perm`: the element now at `i`
is the one that was at `perm[i]`. `none` when `perm` is no permutation of the indices. -/
def sortSlice (a : IntArray) (perm : List Nat) : Option IntArray :=
  if perm.Perm (List.range a.array.length) then
    some { a with array := perm.map fun i => a.array.getD i 0 }
  else none

/-- `InsertBefore(index, value)`, at `index`. -/
def insertBefore (a : IntArray) (index : GoInt) (value : Int) : Option IntArray := do
  let array ← insertAt a.array index.val value
  return { a with array }

/-- `InsertAfter(index, value)`, at `index+1`, an `int` sum. -/
def insertAfter (a : IntArray) (index : GoInt) (value : Int) : Option IntArray := do
  let array ← insertAt a.array (wrap (index.val + 1)) value
  return { a with array }

/-- `PushLeft(value...)`. -/
def pushLeft (a : IntArray) (values : List Int) : IntArray := { a with array := values ++ a.array }

/-- `PushRight(value...)`. -/
def pushRight (a : IntArray) (values : List Int) : IntArray := { a with array := a.array ++ values }

/-- `Append(value...)`, the same code as `PushRight`. -/
def append (a : IntArray) (values : List Int) : IntArray := { a with array := a.array ++ values }

/-- `Merge(array)`: `Append` of the source as `gconv.Ints` converts it. -/
def merge (a : IntArray) (values : List Int) : IntArray := a.append values

/-- `Len()`. -/
def len (a : IntArray) : Nat := a.array.length

/-- `Slice()`: a copy (`make` + `copy`) in safe mode, the backing slice otherwise. -/
def slice (a : IntArray) : List Int :=
  if a.safe then goCopy (List.replicate a.array.length 0) a.array else a.array

/-- `Clone()`: `NewIntArrayFrom` of a copy, in the same lock mode. -/
def clone (a : IntArray) : IntArray :=
  newIntArrayFrom (goCopy (List.replicate a.array.length 0) a.array) (!a.safe)

/-- `Clear()`: a fresh empty slice when there is something to delete. -/
def clear (a : IntArray) : IntArray :=
  { a with array := if a.array.length > 0 then [] else a.array }

/-- `Search(value)`. -/
def search (a : IntArray) (value : Int) : Int :=
  if a.array.length = 0 then -1 else searchLoop value a.array 0

/-- `Contains(value)`. -/
def contains (a : IntArray) (value : Int) : Bool := a.search value != -1

/-- `Rand()`, `draw` being what `grand.Intn(len(a.array))` returned. -/
def rand (a : IntArray) (draw : Nat) : Option Int :=
  if draw < a.array.length then goIndex a.array draw else none

/-- `Shuffle()`, `perm` being what `grand.Perm(len(a.array))` returned. -/
def shuffle (a : IntArray) (perm : List Nat) : Option IntArray := do
  let array ← shuffleLoop perm 0 a.array
  return { a with array }

/-- `Reverse()`: `i, j := 0, len(a.array)-1`; `len(a.array) + 1` rounds of fuel. -/
def reverse (a : IntArray) : Option IntArray := do
  let array ← reverseLoop (a.array.length + 1) 0 (a.array.length - 1) a.array
  return { a with array }

/-- `CountValues()`. -/
def countValues (a : IntArray) : List (Int × Int) := Garray.countValues a.array

end IntArray

/-! ## `Unique` -/

/-- The inner loop of `Unique`: `j` runs up the slice, deleting each element equal to
`a.array[i]` and stepping `j` after a deletion too. -/
def uniqueInner (i : Int) : Nat → Int → List Int → Option (List Int)
  | 0, _, _ => none
  | fuel + 1, j, array =>
    if j < array.length then do
      let x ← goIndex array i
      let y ← goIndex array j
      if x = y then do
        let front ← goSlice array 0 j
        let rear ← goSliceFrom array (j + 1)
        uniqueInner i fuel (j + 1) (front ++ rear)
      else uniqueInner i fuel (j + 1) array
    else some array

/-- The outer loop of `Unique`: `i` up to `len(a.array) - 1`. -/
def uniqueOuter : Nat → Int → List Int → Option (List Int)
  | 0, _, _ => none
  | fuel + 1, i, array =>
    if i < array.length - 1 then do
      let array ← uniqueInner i (array.length + 1) (i + 1) array
      uniqueOuter fuel (i + 1) array
    else some array

namespace IntArray

/-- `Unique()`. -/
def unique (a : IntArray) : Option IntArray := do
  let array ← uniqueOuter (a.array.length + 1) 0 a.array
  return { a with array }

end IntArray

/-! ## What `Unique` does keep -/

/-- **The inner loop ends without a fault**, leaving a subsequence of the slice it started
from that has lost no value and still reaches past `i`. -/
theorem uniqueInner_spec (i : Nat) {b : List Int} : ∀ (fuel j : Nat) (array : List Int),
    i < j → j ≤ array.length + 1 → i < array.length → array.Sublist b →
    (∀ x, x ∈ array ↔ x ∈ b) → array.length + 2 ≤ fuel + j →
    ∃ r, uniqueInner i fuel j array = some r ∧ r.Sublist b ∧ (∀ x, x ∈ r ↔ x ∈ b) ∧
      r.length ≤ array.length ∧ i < r.length
  | 0, _, _, _, hj, _, _, _, hf => absurd hf (by omega)
  | fuel + 1, j, array, hij, hj, hi, hsub, hmem, hf => by
    simp only [uniqueInner]
    split
    · rename_i hjl
      have hjl : j < array.length := by omega
      have e : (j : Int) + 1 = ((j + 1 : Nat) : Int) := by push_cast; rfl
      simp only [goIndex_eq_some hi, goIndex_eq_some hjl, Option.bind_eq_bind, Option.some_bind]
      split
      · rename_i hx
        rw [goSlice_zero hjl.le, e, goSliceFrom_eq hjl]
        simp only [Option.some_bind]
        have hlen := length_delete hjl
        obtain ⟨r, hr, hrs, hrm, hrl, hri⟩ := uniqueInner_spec i fuel (j + 1)
          (array.take j ++ array.drop (j + 1)) (by omega) (by rw [hlen]; omega) (by rw [hlen]; omega)
          ((List.eraseIdx_eq_take_drop_succ array j ▸ List.eraseIdx_sublist _ _).trans hsub)
          (fun x => (mem_delete_of_getElem_eq hij hjl hx x).trans (hmem x)) (by rw [hlen]; omega)
        exact ⟨r, hr, hrs, hrm, hrl.trans (by rw [hlen]; omega), hri⟩
      · obtain ⟨r, hr, hrs, hrm, hrl, hri⟩ :=
          uniqueInner_spec i fuel (j + 1) array (by omega) (by omega) hi hsub hmem (by omega)
        exact ⟨r, e ▸ hr, hrs, hrm, hrl, hri⟩
    · exact ⟨array, rfl, hsub, hmem, le_rfl, hi⟩

/-- **The outer loop ends without a fault**, leaving a subsequence that has lost no value. -/
theorem uniqueOuter_spec {a : List Int} : ∀ (fuel i : Nat) (array : List Int),
    array.Sublist a → (∀ x, x ∈ array ↔ x ∈ a) → array.length ≤ fuel + i → 0 < fuel →
    ∃ r, uniqueOuter fuel i array = some r ∧ r.Sublist a ∧ ∀ x, x ∈ r ↔ x ∈ a
  | 0, _, _, _, _, _, h0 => absurd h0 (Nat.lt_irrefl 0)
  | fuel + 1, i, array, hsub, hmem, hf, _ => by
    simp only [uniqueOuter]
    split
    · rename_i hi
      have e : (i : Int) + 1 = ((i + 1 : Nat) : Int) := by push_cast; rfl
      obtain ⟨r, hr, hrs, hrm, hrl, -⟩ := uniqueInner_spec i (array.length + 1) (i + 1) array
        (by omega) (by omega) (by omega) (List.Sublist.refl _) (fun _ => Iff.rfl) (by omega)
      rw [← e] at hr
      rw [hr]
      simp only [Option.bind_eq_bind, Option.some_bind]
      exact uniqueOuter_spec fuel (i + 1) r (hrs.trans hsub) (fun x => (hrm x).trans (hmem x))
        (by omega) (by omega)
    · exact ⟨array, rfl, hsub, hmem⟩

/-! ## When `Unique` removes every copy -/

section
variable (q : List Int) (x : Int) {t : List Int} {k : Nat}

theorem goIndex_mid : goIndex (q ++ x :: t) q.length = some x := by
  rw [goIndex, if_pos (Int.natCast_nonneg _), Int.toNat_ofNat, List.getElem?_append_right le_rfl,
    Nat.sub_self, List.getElem?_cons_zero]

theorem goIndex_right (hk : k < t.length) :
    goIndex (q ++ x :: t) (q.length + 1 + k : Nat) = some t[k] := by
  rw [goIndex, if_pos (Int.natCast_nonneg _), Int.toNat_ofNat, List.getElem?_append_right (by omega),
    show q.length + 1 + k - q.length = k + 1 by omega, List.getElem?_cons_succ,
    List.getElem?_eq_getElem hk]

/-- Deleting `a[j]` behind `a[i] = x`, `j = i + 1 + k`, deletes `t[k]` from the rest. -/
theorem delete_right :
    (q ++ x :: t).take (q.length + 1 + k) ++ (q ++ x :: t).drop (q.length + 1 + k + 1) =
      q ++ x :: (t.take k ++ t.drop (k + 1)) := by
  rw [show q.length + 1 + k + 1 = q.length + (k + 2) by omega,
    show q.length + 1 + k = q.length + (k + 1) by omega, List.take_append, List.drop_append,
    List.take_succ_cons, List.drop_succ_cons]
  simp

end

/-- **The inner loop at `i = len(q)`, `x = a[i]`, clears `x` from the rest of the slice** as
long as the rest holds at most one copy of `x` and none below `j = i + 1 + k`: the deletion
shifts the next element under `j` unread, and that element is not `x`. -/
theorem uniqueInner_clears (q : List Int) (x : Int) : ∀ (fuel k : Nat) (t : List Int),
    t.count x ≤ 1 → x ∉ t.take k → k ≤ t.length + 1 → t.length + 2 ≤ fuel + k →
    ∃ t', uniqueInner q.length fuel (q.length + 1 + k : Nat) (q ++ x :: t) = some (q ++ x :: t') ∧
      t'.Sublist t ∧ x ∉ t' := by
  intro fuel
  induction fuel with
  | zero => intro k t _ _ hk hf; omega
  | succ fuel ih =>
    intro k t hc hx hk hf
    have hlen : (q ++ x :: t).length = q.length + 1 + t.length := by
      rw [List.length_append, List.length_cons]; omega
    have e : ((q.length + 1 + k : Nat) : Int) + 1 = ((q.length + 1 + (k + 1) : Nat) : Int) := by
      omega
    simp only [uniqueInner]
    split
    · rename_i hj
      have hkt : k < t.length := by omega
      simp only [goIndex_mid, goIndex_right q x hkt, Option.bind_eq_bind, Option.some_bind]
      split
      · rename_i hxk
        have hslice : q.length + 1 + k ≤ (q ++ x :: t).length := by omega
        rw [goSlice_zero hslice, e, goSliceFrom_eq (by omega)]
        simp only [Option.some_bind]
        rw [show q.length + 1 + (k + 1) = q.length + 1 + k + 1 by omega, delete_right q x]
        -- the copy at `k` was the only one, so none is left
        have hsplit := List.take_append_drop k t
        rw [List.drop_eq_getElem_cons hkt, ← hxk] at hsplit
        have hnone : x ∉ t.take k ++ t.drop (k + 1) := by
          rw [← hsplit, List.count_append, List.count_cons_self] at hc
          rw [List.mem_append, ← List.count_pos_iff, ← List.count_pos_iff]
          omega
        obtain ⟨t', hr, hs, hx'⟩ := ih (k + 1) _
          (by rw [List.count_eq_zero.2 hnone]; omega) (fun h => hnone (List.mem_of_mem_take h))
          (by rw [length_delete hkt]; omega) (by rw [length_delete hkt]; omega)
        exact ⟨t', hr, hs.trans (List.eraseIdx_eq_take_drop_succ t k ▸ List.eraseIdx_sublist _ _), hx'⟩
      · rename_i hxk
        have hx' : x ∉ t.take (k + 1) := by
          rw [List.take_succ, List.getElem?_eq_getElem hkt, Option.toList_some, List.mem_append,
            List.mem_singleton]
          exact fun h => h.elim hx hxk
        obtain ⟨t', hr, hs, hx''⟩ := ih (k + 1) t hc hx' (by omega) (by omega)
        exact ⟨t', e ▸ hr, hs, hx''⟩
    · exact ⟨t, rfl, List.Sublist.refl _, by rwa [List.take_of_length_le (by omega)] at hx⟩

/-- **The outer loop leaves no copy** when no value occurs three times in what is left to
scan: each round takes the next value into the part `p` of distinct values none of which
occurs further on. -/
theorem uniqueOuter_nodup : ∀ (fuel : Nat) (p t : List Int), p.Nodup → (∀ y ∈ p, y ∉ t) →
    (∀ y ∈ t, t.count y ≤ 2) → (p ++ t).length ≤ fuel + p.length → 0 < fuel →
    ∃ r, uniqueOuter fuel p.length (p ++ t) = some r ∧ r.Nodup := by
  intro fuel
  induction fuel with
  | zero => intro _ _ _ _ _ _ h0; exact absurd h0 (Nat.lt_irrefl 0)
  | succ fuel ih =>
    intro p t hp hpt hc hf _
    rw [List.length_append] at hf
    simp only [uniqueOuter, List.length_append]
    split
    · rename_i hi
      rcases t with _ | ⟨x, t⟩
      · rw [List.length_nil] at hi; omega
      rw [List.length_cons] at hi hf
      obtain ⟨t₂, hr, hs, hx⟩ := uniqueInner_clears p x ((p ++ x :: t).length + 1) 0 t
        (by have := hc x (List.mem_cons_self _ _); rw [List.count_cons_self] at this; omega)
        (by simp) (by omega) (by rw [List.length_append, List.length_cons]; omega)
      rw [show ((p.length + 1 + 0 : Nat) : Int) = p.length + 1 by omega, List.length_append] at hr
      rw [hr, Option.bind_eq_bind, Option.some_bind,
        show (p.length : Int) + 1 = ((p ++ [x]).length : Nat) by simp,
        show p ++ x :: t₂ = p ++ [x] ++ t₂ by simp]
      have hl := hs.length_le
      refine ih (p ++ [x]) t₂ ?_ ?_ ?_ ?_ (by omega)
      · exact List.nodup_append.2 ⟨hp, List.nodup_singleton x,
          fun y hy hy' => hpt y hy (List.mem_singleton.1 hy' ▸ List.mem_cons_self _ _)⟩
      · intro y hy hy₂
        rcases List.mem_append.1 hy with hy | hy
        · exact hpt y hy (List.mem_cons_of_mem _ (hs.subset hy₂))
        · exact hx (List.mem_singleton.1 hy ▸ hy₂)
      · exact fun y hy => (hs.count_le y).trans
          ((List.sublist_cons_self x t).count_le y |>.trans (hc y (List.mem_cons_of_mem _ (hs.subset hy))))
      · rw [List.length_append, List.length_append, List.length_singleton]; omega
    · rename_i hi
      refine ⟨_, rfl, List.nodup_append.2 ⟨hp, ?_, fun y hy hy' => hpt y hy hy'⟩⟩
      rcases t with _ | ⟨y, _ | ⟨z, t⟩⟩
      · exact List.nodup_nil
      · exact List.nodup_singleton y
      · simp only [List.length_cons] at hi; omega

namespace IntArray

/-- `Unique` never faults, keeps a subsequence of the slice, and loses no value. -/
theorem unique_spec (a : IntArray) :
    ∃ a', a.unique = some a' ∧ a'.safe = a.safe ∧ a'.array.Sublist a.array ∧
      ∀ x, x ∈ a'.array ↔ x ∈ a.array := by
  obtain ⟨r, hr, hs, hm⟩ := uniqueOuter_spec (a.array.length + 1) 0 a.array
    (List.Sublist.refl _) (fun _ => Iff.rfl) (by omega) (by omega)
  rw [Nat.cast_zero] at hr
  exact ⟨{ a with array := r }, by simp [unique, hr], rfl, hs, hm⟩

/-- Three equal values in a row: the second is deleted, the third slides into its place and
is skipped. -/
theorem unique_three_ones :
    (⟨true, [1, 1, 1]⟩ : IntArray).unique = some ⟨true, [1, 1]⟩ := by decide

/-- **`Unique` removes every copy when no value occurs three times.** Only a third copy can be
shifted under `j` unread, so with at most two copies of each value `Unique` leaves a
subsequence of the slice that holds each of its values exactly once. -/
theorem unique_nodup (a : IntArray) (h : ∀ x ∈ a.array, a.array.count x ≤ 2) :
    ∃ a', a.unique = some a' ∧ a'.safe = a.safe ∧ a'.array.Sublist a.array ∧
      (∀ x, x ∈ a'.array ↔ x ∈ a.array) ∧ a'.array.Nodup := by
  obtain ⟨r, hr, hs, hm⟩ := uniqueOuter_spec (a.array.length + 1) 0 a.array
    (List.Sublist.refl _) (fun _ => Iff.rfl) (by omega) (by omega)
  obtain ⟨r', hr', hn⟩ := uniqueOuter_nodup (a.array.length + 1) [] a.array List.nodup_nil
    (fun _ h => absurd h (List.not_mem_nil _)) h (by simp) (by omega)
  rw [List.length_nil, List.nil_append, hr] at hr'
  cases Option.some.inj hr'
  rw [Nat.cast_zero] at hr
  exact ⟨{ a with array := r }, by simp [unique, hr], rfl, hs, hm, hn⟩

theorem unique_nodup_pairs :
    (∀ x ∈ [1, 2, 1, 3, 2], ([1, 2, 1, 3, 2] : List Int).count x ≤ 2) ∧
      ∃ a', (⟨true, [1, 2, 1, 3, 2]⟩ : IntArray).unique = some a' ∧ a'.safe = true ∧
        a'.array.Sublist [1, 2, 1, 3, 2] ∧ (∀ x, x ∈ a'.array ↔ x ∈ [1, 2, 1, 3, 2]) ∧
        a'.array.Nodup :=
  ⟨by decide, unique_nodup ⟨true, [1, 2, 1, 3, 2]⟩ (by decide)⟩

end IntArray

end Garray
