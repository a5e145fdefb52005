import Garray.IntArray
/-!
# `Fill` and `Pad` (garray_normal_int.go:476-542)

`Fill(startIndex, num, value)` runs `i` from `max(startIndex, 0)` while
`i < startIndex+num`, assigning `a.array[i]` inside the slice and appending past its end.
Each append lengthens the slice by one, so once `i` is past the end every round appends: the
`num` values land at `s = max(startIndex, 0)` when `s <= len`, but from `len` on when
`s > len`, although the doc comment says the keys start at `startIndex`
(`fill_past_end_appends`). In closed form, short of an overflow of `startIndex+num`, `Fill`
leaves `a[:s] ++ num × value ++ a[s+num:]` (`fill_eq`).

`Pad(size, value)` fills `make([]int, n)` with `value` and appends or prepends it, where
`n = |size| - len`. `make` panics when the `n` values take more than `maxAlloc` bytes, as for
`Pad(1 << 46)` on `[1]`. `|size|` is `-size` in `int`, which wraps at `math.MinInt64`: on a
non-empty slice `n -= len` wraps back to `2^63 - len`, past that limit, and on the empty one
`n` stays `math.MinInt64`; either way `make` panics (`pad_panics`). Everywhere else `Pad`
leaves the slice the doc comment describes (`pad_eq`).
-/
namespace Garray

/-! ## `Fill` -/

/-- The loop of `Fill` from index `i`, `count` rounds: an index inside the slice is assigned,
one at its end appended, so the rounds write `count` values from `min(i, len)` on. -/
theorem fillLoop_eq (value : Int) : ∀ (count i : Nat) (array : List Int),
    fillLoop value count i array =
      some (array.take i ++ List.replicate count value ++ array.drop (i + count))
  | 0, i, array => by simp [fillLoop]
  | count + 1, i, array => by
    rw [fillLoop]
    by_cases h : (i : Int) > array.length - 1
    · rw [if_pos h, ← Nat.cast_succ, fillLoop_eq value count (i + 1)]
      have hl : (array ++ [value]).length ≤ i + 1 := by simp; omega
      rw [List.take_of_length_le hl, List.drop_of_length_le (by omega),
        List.take_of_length_le (by omega), List.drop_of_length_le (by omega)]
      simp [List.replicate_succ]
    · have hi : i < array.length := by omega
      rw [if_neg h, goSet_eq_some hi, Option.bind_eq_bind, Option.some_bind, ← Nat.cast_succ,
        fillLoop_eq value count (i + 1), take_succ_set hi,
        List.drop_set_of_lt _ _ (show i < i + 1 + count by omega)]
      simp [List.replicate_succ, show i + 1 + count = i + (count + 1) by omega]

/-- **`Fill` in closed form**: short of an overflow of `startIndex+num`, it leaves
`a[:s] ++ num × value ++ a[s+num:]` with `s = max(startIndex, 0)`. -/
theorem fill_eq (a : IntArray) (startIndex num : GoInt) (value : Int)
    (hno : max startIndex.val 0 + num.val < 9223372036854775808) :
    a.fill startIndex num value =
      some { a with array := a.array.take (max startIndex.val 0).toNat ++
        List.replicate num.val.toNat value ++
        a.array.drop ((max startIndex.val 0).toNat + num.val.toNat) } := by
  have := num.ge
  have hs : (if startIndex.val < 0 then 0 else startIndex.val) = ((max startIndex.val 0).toNat : Int) := by
    split_ifs <;> omega
  have hc : (wrap (((max startIndex.val 0).toNat : Int) + num.val) -
      ((max startIndex.val 0).toNat : Int)).toNat = num.val.toNat := by
    rw [wrap_of_inRange (by omega) (by omega)]; omega
  simp only [IntArray.fill, hs, hc, fillLoop_eq, Option.bind_eq_bind, Option.some_bind,
    Option.pure_def]

theorem fill_eq_mid :
    max (1 : GoInt).val 0 + (1 : GoInt).val < 9223372036854775808 ∧
      (newIntArrayFrom [1, 2, 3] false).fill 1 1 9 =
        some { newIntArrayFrom [1, 2, 3] false with
          array := [1, 2, 3].take (max (1 : GoInt).val 0).toNat ++
            List.replicate (1 : GoInt).val.toNat 9 ++
            [1, 2, 3].drop ((max (1 : GoInt).val 0).toNat + (1 : GoInt).val.toNat) } :=
  ⟨by decide, fill_eq (newIntArrayFrom [1, 2, 3] false) 1 1 9 (by decide)⟩

/-- `Fill(3, 1, 9)` on `[1]` appends the `9` at index `1`, not at the index `3` the doc
comment gives: the slice ends as `[1, 9]`. -/
theorem fill_past_end_appends :
    (newIntArrayFrom [1] false).fill 3 1 9 = some (newIntArrayFrom [1, 9] false) := by
  decide

/-! ## `Pad` -/

section
variable {α : Type}

/-- The loop `for i := 0; i < m; i++ { tmp[i] = value }` over the first `m` slots. -/
theorem range_foldlM_goSet (value : α) : ∀ (m : Nat) (t : List α), m ≤ t.length →
    (List.range m).foldlM (fun tmp (i : Nat) => goSet tmp i value) t =
      some (List.replicate m value ++ t.drop m)
  | 0, t, _ => by simp
  | m + 1, t, hm => by
    have hlen : m < (List.replicate m value ++ t.drop m).length := by simp; omega
    rw [List.range_succ, List.foldlM_append, range_foldlM_goSet value m t (by omega)]
    simp only [Option.bind_eq_bind, Option.some_bind, List.foldlM_cons, List.foldlM_nil,
      goSet_eq_some hlen, List.set_append_right _ _ (le_of_eq (List.length_replicate m value))]
    rw [List.drop_eq_getElem_cons (by omega), List.length_replicate, Nat.sub_self,
      List.set_cons_zero]
    simp [List.replicate_succ']

/-- `make([]T, n)` filled with `value`, for any `int` `n`: `n` copies of `value`, or a panic
when `n` is negative or the slice passes `maxAlloc`. -/
theorem goMakeSlice_fill_bind [Inhabited α] {β : Type} (elemSize : Nat) (value : α) (n : Int)
    (g : List α → Option β) :
    ((goMakeSlice elemSize n).bind fun tmp =>
        ((List.range n.toNat).foldlM (fun tmp (i : Nat) => goSet tmp i value) tmp).bind g) =
      if 0 ≤ n ∧ n * elemSize ≤ maxAlloc then g (List.replicate n.toNat value) else none := by
  unfold goMakeSlice
  by_cases hn : 0 ≤ n
  · obtain ⟨k, rfl⟩ := Int.eq_ofNat_of_zero_le hn
    by_cases hm : (k : Int) * elemSize ≤ maxAlloc
    · simp [hn, hm, goMake_eq, range_foldlM_goSet]
    · simp [hm]
  · simp [goMake, hn]

end

/-- The padding `Pad` makes once `n = wrap(m - len)` is computed from `m = |size| ≥ len`:
nothing when `m = len`, else `m - len` copies of `value`, or a panic where they pass
`maxAlloc` (and where the wrap made `n` negative or too large). -/
theorem pad_tail {a : IntArray} {m N value : Int} (g : List Int → List Int) (hg : g [] = a.array)
    (hlen : a.array.length * 8 ≤ maxAlloc) (hm : a.array.length ≤ m)
    (hN : N = m - a.array.length ∨
      (N < 0 ∨ maxAlloc < N * 8) ∧ maxAlloc < (m - a.array.length) * 8)
    (c : Prop) [Decidable c] (hc : c ↔ m ≤ a.array.length) :
    (if 0 ≤ N ∧ N * 8 ≤ maxAlloc then some { a with array := g (List.replicate N.toNat value) }
      else none) =
      if c then some a
      else if maxAlloc < (m - a.array.length) * 8 then none
      else some { a with array := g (List.replicate (m.toNat - a.array.length) value) } := by
  by_cases hin : c
  · have := hc.1 hin
    rw [if_pos hin, if_pos (by omega), show N.toNat = 0 by omega, List.replicate_zero, hg]
  rw [if_neg hin]
  by_cases hbig : maxAlloc < (m - a.array.length) * 8
  · rw [if_pos hbig, if_neg (by omega)]
  · rw [if_neg hbig, if_pos (by omega), show N.toNat = m.toNat - a.array.length by omega]

/-- **`Pad` leaves the slice its doc comment describes, or panics where the padding passes
`maxAlloc`**: unchanged when `|size| <= len`; otherwise `|size| - len` copies of `value`,
appended when `size > 0` and prepended when `size < 0`, unless they take more than `maxAlloc`
bytes. `Pad(math.MinInt64)` is such a case, `|size|` being `2^63`. -/
theorem pad_eq (a : IntArray) (size : GoInt) (value : Int) (hlen : a.array.length * 8 ≤ maxAlloc) :
    a.pad size value =
      if -(a.array.length : Int) ≤ size.val ∧ size.val ≤ a.array.length then some a
      else if 0 < size.val then
        if maxAlloc < (size.val - a.array.length) * 8 then none
        else some { a with
          array := a.array ++ List.replicate (size.val.toNat - a.array.length) value }
      else if maxAlloc < (-size.val - a.array.length) * 8 then none
      else some { a with
        array := List.replicate ((-size.val).toNat - a.array.length) value ++ a.array } := by
  have hge := size.ge
  have hlt := size.lt
  unfold IntArray.pad
  simp only [Option.bind_eq_bind, Option.pure_def, Option.some_bind]
  by_cases hg : size.val = 0 ∨ (size.val > 0 ∧ size.val < a.array.length) ∨
      (size.val < 0 ∧ size.val > -(a.array.length : Int))
  · rw [if_pos hg, if_pos (by omega)]
  rw [if_neg hg]
  by_cases hneg : size.val < 0
  · -- `n = -size - len`, unless `-size` wraps at `math.MinInt64`, where `make` panics
    rw [if_pos hneg, goMakeSlice_fill_bind, if_neg (show ¬ 0 < size.val by omega)]
    simp only [gt_iff_lt, Nat.cast_ofNat, if_neg (not_lt.2 hneg.le)]
    refine pad_tail (· ++ a.array) rfl hlen (by omega) ?_ _ (by omega)
    unfold wrap maxAlloc at *
    omega
  · rw [if_neg hneg, goMakeSlice_fill_bind, if_pos (show 0 < size.val by omega)]
    simp only [gt_iff_lt, Nat.cast_ofNat, if_pos (show 0 < size.val by omega)]
    exact pad_tail (a.array ++ ·) (List.append_nil _) hlen (by omega)
      (.inl (wrap_of_inRange (by omega) (by omega))) _ (by omega)

theorem pad_eq_left :
    (newIntArrayFrom [1, 2, 3] false).array.length * 8 ≤ maxAlloc ∧
      (newIntArrayFrom [1, 2, 3] false).pad (.ofInt (-5)) 0 =
        some (newIntArrayFrom [0, 0, 1, 2, 3] false) :=
  have hlen : (newIntArrayFrom [1, 2, 3] false).array.length * 8 ≤ maxAlloc := by decide
  ⟨hlen, (pad_eq _ _ _ hlen).trans (by decide)⟩

/-- `Pad` panics on two kinds of `size`. `Pad(math.MinInt64, 0)` on an empty array: `-size`
wraps to `math.MinInt64`, `n -= 0` keeps it negative, and `make` refuses it. `Pad(1 << 46, 0)`
on `[1]`: `make([]int, 2^46 - 1)` passes `maxAlloc`. -/
theorem pad_panics :
    (newIntArray false).pad GoInt.minInt 0 = none ∧
      (newIntArrayFrom [1] false).pad (.ofInt 70368744177664) 0 = none := by
  decide

end Garray
