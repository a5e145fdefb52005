import Garray.IntArray
import Garray.SortedString.Array
/-!
# Taking several elements: `Rands`, `PopLefts`, `PopRights`, `PopRands`
(garray_normal_int.go:226-265, 552-566; garray_sorted_string.go:171-210, 492-506)

`Rands(size)` lowers `size` to `len`, allocates `n := make([]T, size)` and walks
`grand.Perm(len)`, assigning `n[i] = a.array[v]` and leaving once `i == size-1`. The test
comes after the assignment, so with `size = 0` on a non-empty array the first round writes
`n[0]` of an empty slice and panics; on the empty array the walk has no round and `Rands(0)`
returns `[]` (`rands_zero_panics`). For `size >= 1` it returns the elements at the first
`min(size, len)` drawn positions, and a negative `size` panics in `make` (`rands_eq`).

None of the three multi-pops raises a negative `size` to `0`: `PopLefts` slices `a[0:size]`,
`PopRands` calls `make([]T, size)`, and `PopRights` slices from `len - size > len`; each
panics. Only `PopRights` computes `len - size` in `int`, and from `size <= len - 2^63` on the
difference wraps below `0`, so the index is raised to `0` and the whole slice is popped.
For `size >= 0` each pops `k = min(size, len)` elements and keeps the rest; `PopRands`, for
every sequence of draws each in range for the slice it is drawn from, keeps the rest in order
and loses and duplicates nothing (`multiPop_spec`).

Both array types run the shared code of `Common`, so each statement is over the element type.
-/
namespace Garray

section
variable {α : Type} [Inhabited α]

/-! ## `Rands` -/

/-- The loop of `Rands` on `n = done ++ rest`, at `i = len(done)`: each round assigns the
first slot of `rest`, the last one leaves. -/
theorem randsLoop_eq (array : List α) (size : Int) :
    ∀ (perm : List Nat) (done rest : List α), size = done.length + rest.length →
      0 < rest.length → rest.length ≤ perm.length → (∀ v ∈ perm, v < array.length) →
      randsLoop array size perm done.length (done ++ rest) =
        some (done ++ (perm.take rest.length).map (array.getD · default))
  | [], _, _, _, h0, hp, _ => by simp only [List.length_nil] at hp; omega
  | _ :: _, _, [], _, h0, _, _ => by simp at h0
  | v :: perm, done, r :: rest, hsize, _, hp, hv => by
    have hv' : v < array.length := hv v (List.mem_cons_self _ _)
    have hset : goSet (done ++ r :: rest) done.length array[v] = some (done ++ array[v] :: rest) := by
      rw [goSet_eq_some (by simp), List.set_append_right _ _ le_rfl, Nat.sub_self, List.set_cons_zero]
    simp only [randsLoop, goIndex_eq_some hv', Option.bind_eq_bind, Option.some_bind, hset]
    rcases rest with _ | ⟨r', rest⟩
    · simp [hsize, List.getElem?_eq_getElem hv']
    · have hi : ¬ ((done.length : Int) = size - 1) := by simp only [List.length_cons] at hsize; omega
      have e : (done.length : Int) + 1 = (done ++ [array[v]]).length := by simp
      rw [if_neg hi, e, show done ++ array[v] :: r' :: rest = done ++ [array[v]] ++ r' :: rest by simp,
        randsLoop_eq array size perm (done ++ [array[v]]) (r' :: rest)
          (by simp at hsize ⊢; omega)
          (Nat.succ_pos _) (Nat.le_of_succ_le_succ hp) fun u hu => hv u (List.mem_cons_of_mem _ hu)]
      simp [List.getElem?_eq_getElem hv']

/-- **`Rands` on every permutation.** For `size >= 1` it returns the elements at the first
`min(size, len)` positions of the permutation; a negative `size` panics in `make`, and
`size = 0` panics on every non-empty array. -/
theorem rands_eq (array : List α) (size : Int) (perm : List Nat)
    (hperm : perm.Perm (List.range array.length)) :
    rands array size perm =
      if size < 0 ∨ (size = 0 ∧ 0 < array.length) then none
      else some ((perm.take (min size.toNat array.length)).map (array.getD · default)) := by
  have hv : ∀ v ∈ perm, v < array.length := fun v h => List.mem_range.1 (hperm.mem_iff.1 h)
  have hlen : perm.length = array.length := by simpa using hperm.length_eq
  by_cases hneg : size < 0
  · simp [rands, hneg, goMake, show ¬ size > array.length by omega]
  have e : (if size > array.length then (array.length : Int) else size) =
      ((min size.toNat array.length : Nat) : Int) := by split_ifs <;> omega
  simp only [rands, e, goMake_eq, Option.bind_eq_bind, Option.some_bind]
  generalize hk : min size.toNat array.length = k
  rcases Nat.eq_zero_or_pos k with rfl | hk0
  · rcases perm with _ | ⟨v, perm⟩
    · have : array = [] := List.eq_nil_of_length_eq_zero (by simp at hlen; omega)
      simp [this, randsLoop, le_of_not_lt hneg]
    · have hs : size = 0 := by simp at hlen; omega
      simp [randsLoop, hv v (List.mem_cons_self _ _), goIndex_eq_some, goSet, hs, ← hlen]
  · have := randsLoop_eq array k perm [] (List.replicate k default) (by simp) (by simp; omega)
      (by simp; omega) hv
    simp only [List.nil_append, List.length_nil, List.length_replicate, Nat.cast_zero] at this
    rw [this, if_neg (by omega)]

theorem rands_eq_two :
    [1, 0].Perm (List.range [(10 : Int), 20].length) ∧
      rands [(10 : Int), 20] 1 [1, 0] =
        if (1 : Int) < 0 ∨ ((1 : Int) = 0 ∧ 0 < [(10 : Int), 20].length) then none
        else some (([1, 0].take (min (1 : Int).toNat [(10 : Int), 20].length)).map
          ([(10 : Int), 20].getD · default)) :=
  ⟨by decide, rands_eq [10, 20] 1 [1, 0] (by decide)⟩

/-! ## `PopLefts`, `PopRights`, `PopRands` -/

/-- **The multi-pops on every `int` size.** With `k = min(size, len)` for `size >= 0`:
`PopLefts` returns `a[0:k]` and keeps `a[k:]`, `PopRights` returns `a[len-k:]` and keeps
`a[:len-k]`, and `PopRands`, for every sequence of draws each in range for the slice it is
drawn from, returns `k` elements and keeps the others in order, the two together a
permutation of `a`. A negative `size` makes `PopLefts` and `PopRands` panic, and `PopRights`
too unless `len - size` overflows, where it pops the whole slice. -/
theorem multiPop_spec (array : List α) (size : GoInt) (hlen : array.length < 9223372036854775808) :
    let k := min size.val.toNat array.length
    (0 ≤ size.val →
      popLefts array size.val = some (array.take k, array.drop k) ∧
      popRights array size.val =
        some (array.drop (array.length - k), array.take (array.length - k)) ∧
      ∀ draws : List Nat, (∀ t < k, ∃ d, draws[t]? = some d ∧ d < array.length - t) →
        ∃ values rest, popRands array size.val draws = some (values, rest) ∧
          values.length = k ∧ rest.Sublist array ∧ (values ++ rest).Perm array) ∧
    (size.val < 0 →
      popLefts array size.val = none ∧ (∀ draws, popRands array size.val draws = none) ∧
      popRights array size.val =
        if array.length - size.val < 9223372036854775808 then none else some (array, [])) := by
  intro k
  have hr := popRights_eq array hlen size.ge size.lt
  refine ⟨fun hs => ⟨?_, ?_, fun draws hd => ?_⟩, fun hs => ⟨?_, fun draws => ?_, ?_⟩⟩
  · rw [popLefts_eq, if_pos hs]
    rcases le_total size.val.toNat array.length with h | h
    · simp only [k, min_eq_left h]
    · simp only [k, min_eq_right h, List.take_of_length_le h, List.drop_of_length_le h,
        List.take_length, List.drop_length]
  · rw [hr, if_pos hs, show array.length - k = array.length - size.val.toNat by omega]
  · obtain ⟨⟨values, rest⟩, h⟩ :=
      Option.isSome_iff_exists.1 (popRandsLoop_isSome k draws array (min_le_right _ _) hd)
    obtain ⟨hsub, hperm, hl⟩ := popRandsLoop_spec _ _ _ _ _ h
    exact ⟨values, rest, by rw [popRands_eq, if_pos hs, h], hl, hsub, hperm⟩
  · rw [popLefts_eq, if_neg (by omega)]
  · rw [popRands_eq, if_neg (by omega)]
  · rw [hr, if_neg (by omega)]

theorem multiPop_spec_abc :
    [(10 : Int), 20, 30].length < 9223372036854775808 ∧
      (let k := min (2 : GoInt).val.toNat [(10 : Int), 20, 30].length
      (0 ≤ (2 : GoInt).val →
        popLefts [(10 : Int), 20, 30] (2 : GoInt).val =
          some ([(10 : Int), 20, 30].take k, [(10 : Int), 20, 30].drop k) ∧
        popRights [(10 : Int), 20, 30] (2 : GoInt).val =
          some ([(10 : Int), 20, 30].drop ([(10 : Int), 20, 30].length - k),
            [(10 : Int), 20, 30].take ([(10 : Int), 20, 30].length - k)) ∧
        ∀ draws : List Nat,
          (∀ t < k, ∃ d, draws[t]? = some d ∧ d < [(10 : Int), 20, 30].length - t) →
          ∃ values rest, popRands [(10 : Int), 20, 30] (2 : GoInt).val draws = some (values, rest) ∧
            values.length = k ∧ rest.Sublist [10, 20, 30] ∧ (values ++ rest).Perm [10, 20, 30]) ∧
      ((2 : GoInt).val < 0 →
        popLefts [(10 : Int), 20, 30] (2 : GoInt).val = none ∧
        (∀ draws, popRands [(10 : Int), 20, 30] (2 : GoInt).val draws = none) ∧
        popRights [(10 : Int), 20, 30] (2 : GoInt).val =
          if [(10 : Int), 20, 30].length - (2 : GoInt).val < 9223372036854775808 then none
          else some ([10, 20, 30], []))) :=
  ⟨by decide, multiPop_spec [10, 20, 30] 2 (by decide)⟩

end

/-- A negative `size` on a one-element array: `PopLefts(-1)`, `PopRights(-1)` and
`PopRands(-1)` panic on both array types, and `PopRights(math.MinInt64)` pops the element. -/
theorem multiPop_negative_panics :
    (newIntArrayFrom [1] false).popLefts (.ofInt (-1)) = none ∧
      (newIntArrayFrom [1] false).popRights (.ofInt (-1)) = none ∧
      (newIntArrayFrom [1] false).popRands (.ofInt (-1)) [0] = none ∧
      (newSortedStringArrayFrom [⟨[97]⟩] false).popLefts (.ofInt (-1)) = none ∧
      (newSortedStringArrayFrom [⟨[97]⟩] false).popRights (.ofInt (-1)) = none ∧
      (newSortedStringArrayFrom [⟨[97]⟩] false).popRands (.ofInt (-1)) [0] = none ∧
      (newIntArrayFrom [1] false).popRights GoInt.minInt = some ([1], newIntArrayFrom [] false) := by
  decide

/-- `Rands(0)` on a one-element array panics on both array types, with the only permutation
`[0]` of its positions; `PopRands(0)` on the same array returns `[]`. -/
theorem rands_zero_panics :
    (newIntArrayFrom [1] false).rands 0 [0] = none ∧
      (newSortedStringArrayFrom [⟨[97]⟩] false).rands 0 [0] = none ∧
      (newIntArrayFrom [1] false).popRands 0 [] = some ([], newIntArrayFrom [1] false) := by
  decide

end Garray
