import Garray.IntArray
import Garray.SortedString.Array
/-!
# `Range` and `SubSlice` (garray_normal_int.go:274-345, garray_sorted_string.go:219-290)

Both methods read a window of the slice: a copy (`make` + `copy`) in safe mode, a view
otherwise. The copy equals the view and panics where it does (`goCopy_goMake_goSlice`,
`goCopy_goMakeSlice_goSliceFrom`), so each method is one function of its window.

`Range(start, end)` lowers `end` to `len` and raises `start` to `0`, but takes a negative
`end` as it is, although its doc comment says a negative `end` counts from the end of the
array: when `start <= end < 0` the window `[0:end]` is out of bounds and both modes panic.
Otherwise it returns `a[max(start,0):min(end,len)]`, empty when `start` passes the end
(`range_eq`).

`SubSlice` computes `end := offset + size` in `int`. A `length` near `math.MaxInt64` wraps
`end` below `offset`: the view panics (`subSlice_length_overflow_panics`), and the copy's
`make` is asked for `size` elements and panics past `maxAlloc`. Short of that overflow both
modes return `subSliceWindow`, the window the code computes (`subSlice_eq_window`). Its doc
comment reads a negative `length` as counted back from the end of the window; the code ends
the window at `offset` instead.
-/
namespace Garray

section
variable {α : Type} [Inhabited α]

/-! ## Copy and view -/

/-- `make([]T, size)` filled by `copy` from `a[offset:]` is `a[offset:offset+size]` when that
fits in the slice, and so in `maxAlloc`. -/
theorem goCopy_goMakeSlice_goSliceFrom (elemSize : Nat) (array : List α) (offset size : Nat)
    (h : offset + size ≤ array.length) (hmem : array.length * elemSize ≤ maxAlloc) :
    (do let s ← goMakeSlice elemSize size; let src ← goSliceFrom array offset
        pure (goCopy s src)) =
      some ((array.take (offset + size)).drop offset) := by
  have hm : ((size * elemSize : Nat) : Int) ≤ maxAlloc :=
    le_trans (Int.ofNat_le.2 (Nat.mul_le_mul_right elemSize (by omega : size ≤ array.length)))
      (by exact_mod_cast hmem)
  rw [goMakeSlice_eq (by exact_mod_cast hm), goSliceFrom_eq (by omega)]
  simp only [Option.bind_eq_bind, Option.some_bind, Option.pure_def, Option.some.injEq]
  rw [goCopy_of_le (by simp only [List.length_replicate, List.length_drop]; omega),
    List.length_replicate, List.drop_take]
  simp

end

/-! ## `Range` -/

section
variable {α : Type}

variable [Inhabited α]

end

/-- `Range(-5, -2)` on a four-element array panics in both modes and on both array types;
the doc comment reads `-2` as counted from the end. -/
theorem range_negative_end_panics :
    (newIntArrayFrom [10, 20, 30, 40] false).range (.ofInt (-5)) (some (.ofInt (-2))) = none ∧
      (newIntArrayFrom [10, 20, 30, 40] true).range (.ofInt (-5)) (some (.ofInt (-2))) = none ∧
      (newSortedStringArrayFrom [⟨[97]⟩, ⟨[98]⟩, ⟨[99]⟩, ⟨[100]⟩] false).range
        (.ofInt (-5)) (some (.ofInt (-2))) = none ∧
      (newSortedStringArrayFrom [⟨[97]⟩, ⟨[98]⟩, ⟨[99]⟩, ⟨[100]⟩] true).range
        (.ofInt (-5)) (some (.ofInt (-2))) = none := by
  decide

/-! ## `SubSlice` -/

section
variable {α : Type}

/-- The window `SubSlice` computes, in exact arithmetic: a negative `offset` counts from the
end, a negative `length` ends the window at `offset`, and a window that would start before `0`
is empty. -/
def subSliceWindow (array : List α) (offset : Int) (length : Option Int) : List α :=
  let n : Int := array.length
  let o := if offset < 0 then n + offset else offset
  if offset > n ∨ o < 0 then []
  else match length with
    | none => array.drop o.toNat
    | some l =>
      if 0 ≤ l then (array.take (o + l).toNat).drop o.toNat
      else if o + l < 0 then [] else (array.take o.toNat).drop (o + l).toNat

variable [Inhabited α]

/-- Short of an overflow of `offset + size`, the end of `SubSlice` returns
`a[offset:min(offset+size,len)]` in both modes. -/
theorem subSliceRead_eq (elemSize : Nat) (safe : Bool) (array : List α) {offset size : Int}
    (h0 : 0 ≤ offset) (hl : offset ≤ array.length) (hs : 0 ≤ size)
    (hno : offset + size < 9223372036854775808) (hmem : array.length * elemSize ≤ maxAlloc) :
    subSliceRead elemSize safe array offset size =
      some ((array.take (offset + size).toNat).drop offset.toNat) := by
  obtain ⟨o, rfl⟩ := Int.eq_ofNat_of_zero_le h0
  obtain ⟨k, rfl⟩ := Int.eq_ofNat_of_zero_le hs
  have hw : wrap ((o : Int) + k) = ((o + k : Nat) : Int) := by
    rw [wrap_of_inRange (by omega) (by omega)]; push_cast; rfl
  have e : (array.length : Int) - o = ((array.length - o : Nat) : Int) := by omega
  have hk : ((o : Int) + k).toNat = o + k := by omega
  simp only [subSliceRead, hw, hk, Int.toNat_ofNat, e]
  cases safe <;> simp only [pure_bind, Bool.false_eq_true, if_false, if_true] <;> split_ifs with h
  · rw [goSlice_eq (by omega) le_rfl, List.take_of_length_le (by omega),
      List.take_of_length_le (by omega)]
  · exact goSlice_eq (by omega) (by omega)
  · rw [goCopy_goMakeSlice_goSliceFrom _ _ _ _ (by omega) hmem,
      List.take_of_length_le (by omega), List.take_of_length_le (by omega)]
  · exact goCopy_goMakeSlice_goSliceFrom _ _ _ _ (by omega) hmem

/-- The end of `SubSlice` once the offset is normalised to `o`: a negative `size` moves the
window to end at `o`. -/
theorem subSlice_tail_eq (elemSize : Nat) (safe : Bool) (array : List α) {o size : Int}
    (h0 : 0 ≤ o) (hl : o ≤ array.length) (hlen : array.length < 9223372036854775808)
    (hno : size + array.length < 9223372036854775808) (hmem : array.length * elemSize ≤ maxAlloc) :
    (if size < 0 then
        if o + size < 0 then pure []
        else subSliceRead elemSize safe array (o + size) (wrap (-size))
      else subSliceRead elemSize safe array o size) =
      some (if 0 ≤ size then (array.take (o + size).toNat).drop o.toNat
        else if o + size < 0 then [] else (array.take o.toNat).drop (o + size).toNat) := by
  by_cases h1 : size < 0
  · have h2 : ¬ 0 ≤ size := by omega
    by_cases h3 : o + size < 0
    · simp only [h1, h2, h3, ↓reduceIte, Option.pure_def]
    · simp only [h1, h2, h3, ↓reduceIte]
      rw [wrap_of_inRange (by omega) (by omega), subSliceRead_eq elemSize safe array (by omega)
        (by omega) (by omega) (by omega) hmem, add_neg_cancel_right]
  · simp only [h1, not_lt.1 h1, ↓reduceIte]
    exact subSliceRead_eq elemSize safe array h0 hl (by omega) (by omega) hmem

/-- `SubSlice` returns `subSliceWindow` in both modes when `offset + size` does not overflow:
`length` (or `len` when omitted) plus `len` stays below `2^63`. The copy of the safe mode is
then at most as long as the slice, which fits in `maxAlloc`. -/
theorem subSlice_eq_subSliceWindow (elemSize : Nat) (safe : Bool) (array : List α) (offset : Int)
    (length : Option Int) (hlen : array.length < 9223372036854775808)
    (hno : length.getD array.length + array.length < 9223372036854775808)
    (hmem : array.length * elemSize ≤ maxAlloc) :
    subSlice elemSize safe array offset length = some (subSliceWindow array offset length) := by
  have given : ∀ l : Int, l + array.length < 9223372036854775808 →
      subSlice elemSize safe array offset (some l) =
        some (subSliceWindow array offset (some l)) := by
    intro l hno
    simp only [subSlice, subSliceWindow, Option.getD_some, pure_bind]
    by_cases h1 : offset > array.length
    · simp only [h1, ↓reduceIte, true_or, Option.pure_def]
    by_cases h2 : offset < 0
    · by_cases h3 : (array.length : Int) + offset < 0
      · simp only [h1, h2, h3, ↓reduceIte, or_true, Option.pure_def]
      · simp only [h1, h2, h3, ↓reduceIte, or_false]
        exact subSlice_tail_eq elemSize safe array (by omega) (by omega) hlen hno hmem
    · simp only [h1, h2, ↓reduceIte, or_false]
      exact subSlice_tail_eq elemSize safe array (by omega) (by omega) hlen hno hmem
  rcases length with _ | l
  · -- an omitted `length` is `size := len`
    rw [show subSlice elemSize safe array offset none =
      subSlice elemSize safe array offset (some array.length) from rfl, given (array.length : Int) hno]
    simp only [subSliceWindow, Int.natCast_nonneg, ↓reduceIte]
    split_ifs <;> first | rfl | rw [List.take_of_length_le (by omega)]
  · exact given l hno

end

/-- **`SubSlice` returns `subSliceWindow`** on both array types and in both modes, on a slice
that fits in `maxAlloc` and when `offset + size` does not overflow: `length` (or `len` when
omitted) plus `len` stays below `2^63`. -/
theorem subSlice_eq_window (offset : GoInt) (length : Option GoInt) :
    (∀ a : IntArray, a.array.length * 8 ≤ maxAlloc →
      (length.map GoInt.val).getD a.array.length + a.array.length < 9223372036854775808 →
      a.subSlice offset length = some (subSliceWindow a.array offset.val (length.map GoInt.val))) ∧
    ∀ s : SortedStringArray, s.array.length * 16 ≤ maxAlloc →
      (length.map GoInt.val).getD s.array.length + s.array.length < 9223372036854775808 →
      s.subSlice offset length = some (subSliceWindow s.array offset.val (length.map GoInt.val)) :=
  ⟨fun a hmem hno => subSlice_eq_subSliceWindow 8 a.safe a.array _ _
      (by unfold maxAlloc at hmem; omega) hno (by exact_mod_cast hmem),
    fun s hmem hno => subSlice_eq_subSliceWindow 16 s.safe s.array _ _
      (by unfold maxAlloc at hmem; omega) hno (by exact_mod_cast hmem)⟩

theorem subSlice_eq_window_mid :
    (newIntArrayFrom [1, 2, 3] false).array.length * 8 ≤ maxAlloc ∧
      ((some (1 : GoInt)).map GoInt.val).getD (newIntArrayFrom [1, 2, 3] false).array.length +
          (newIntArrayFrom [1, 2, 3] false).array.length < 9223372036854775808 ∧
      (newIntArrayFrom [1, 2, 3] false).subSlice 1 (some 1) =
        some (subSliceWindow [1, 2, 3] (1 : GoInt).val ((some (1 : GoInt)).map GoInt.val)) :=
  ⟨by decide, by decide, (subSlice_eq_window 1 (some 1)).1 _ (by decide) (by decide)⟩

/-- `SubSlice(1, math.MaxInt64)` on a one-element view panics on both array types:
`end := 1 + MaxInt64` wraps to `math.MinInt64`, below `offset`. The doc comment gives the
empty window `a[1:1]`. -/
theorem subSlice_length_overflow_panics :
    (newIntArrayFrom [7] true).subSlice 1 (some GoInt.maxInt) = none ∧
      (newSortedStringArrayFrom [⟨[97]⟩] true).subSlice 1 (some GoInt.maxInt) = none ∧
      subSliceWindow [(7 : Int)] 1 (some GoInt.maxInt.val) = [] := by
  decide

end Garray
