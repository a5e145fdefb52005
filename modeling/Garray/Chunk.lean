import Garray.Common
/-!
# `Chunk` (garray_normal_int.go:494-515, garray_sorted_string.go:461-482)

`Chunk(size)` makes `chunks = ⌈len/size⌉` rounds; round `i` appends the view
`a[i*size:end]`, `end = (i+1)*size` lowered to `len`. Both products are `int` products. For
every slice the runtime can allocate (its length far below `2^62`: `make` refuses more than
`2^48` bytes on 64-bit platforms) neither product overflows, every view is in bounds, and
the rounds cut the slice into `⌈len/size⌉` consecutive pieces of `size` elements, the last
one shorter but not empty (`chunk_spec`). The loop computes chunk `i` as
`a[i*size:][:size]` (`chunkLoop_eq`).
-/
namespace Garray

section
variable {α : Type}

/-- The loop of `Chunk` from round `i` with `c` rounds left returns the pieces
`a[j*s:][:s]` for `j = i, ..., i+c-1`, as long as the last `end` fits in an `int` and the
last piece starts within the slice. -/
theorem chunkLoop_eq (array : List α) {s : Nat} :
    ∀ (c i : Nat), (i + c) * s < 9223372036854775808 → (i + c) * s ≤ array.length + s →
      chunkLoop array s c i = some ((List.range' i c).map fun j => (array.drop (j * s)).take s)
  | 0, _, _, _ => rfl
  | c + 1, i, h1, h2 => by
    have hi : (i + 1) * s = i * s + s := Nat.succ_mul i s
    have hc : (i + (c + 1)) * s = (i + 1) * s + c * s := by ring
    have hlo : wrap ((i : Int) * s) = ((i * s : Nat) : Int) := by
      rw [← Nat.cast_mul, wrap_of_inRange (by omega) (by omega)]
    have hhi : wrap (((i : Int) + 1) * s) = (((i + 1) * s : Nat) : Int) := by
      rw [show ((i : Int) + 1) * s = (((i + 1) * s : Nat) : Int) by push_cast; ring,
        wrap_of_inRange (by omega) (by omega)]
    have hrest : chunkLoop array s c ((i : Int) + 1) =
        some ((List.range' (i + 1) c).map fun j => (array.drop (j * s)).take s) := by
      rw [← Nat.cast_succ, chunkLoop_eq array c (i + 1)
        (by rw [show (i + 1 + c) * s = (i + (c + 1)) * s by ring]; exact h1)
        (by rw [show (i + 1 + c) * s = (i + (c + 1)) * s by ring]; exact h2)]
    simp only [chunkLoop, hlo, hhi, hrest, Option.bind_eq_bind, Option.pure_def, List.range'_succ,
      List.map_cons]
    split_ifs with h
    · rw [goSlice_eq (by omega) le_rfl, List.take_length,
        List.take_of_length_le (by rw [List.length_drop]; omega)]
      rfl
    · rw [goSlice_eq (by omega) (by omega), List.drop_take, hi, Nat.add_sub_cancel_left]
      rfl

/-- The pieces from `j = i` on, `c` of them, put back together are `a[i*s:][:c*s]`. -/
theorem flatten_pieces (array : List α) (s : Nat) : ∀ (c i : Nat),
    ((List.range' i c).map fun j => (array.drop (j * s)).take s).flatten =
      (array.drop (i * s)).take (c * s)
  | 0, _ => by simp
  | c + 1, i => by
    rw [List.range'_succ, List.map_cons, List.flatten_cons, flatten_pieces array s c (i + 1),
      show (c + 1) * s = s + c * s by ring, List.take_add, List.drop_drop,
      show (i + 1) * s = i * s + s by ring]

/-- **`Chunk` cuts the slice into `⌈len/size⌉` consecutive pieces**: for `size >= 1` they
put back together give the slice, each but the last has `size` elements and the last has
between `1` and `size`; for `size < 1` there are none. The length bound holds for every slice
`make` can allocate. -/
theorem chunk_spec (array : List α) (size : GoInt) (hlen : array.length ≤ 4611686018427387904) :
    (size.val < 1 → chunk array size.val = some []) ∧
    (1 ≤ size.val → ∃ cs, chunk array size.val = some cs ∧
      cs.length = (array.length + size.val.toNat - 1) / size.val.toNat ∧ cs.flatten = array ∧
      (∀ x ∈ cs.dropLast, x.length = size.val.toNat) ∧
      (∀ x ∈ cs.getLast?, 0 < x.length ∧ x.length ≤ size.val.toNat)) := by
  refine ⟨fun h => if_pos h, fun h => ?_⟩
  have hsize := size.lt
  obtain ⟨s, hs⟩ : ∃ s : Nat, size.val = s := ⟨size.val.toNat, by omega⟩
  rw [hs] at h hsize
  simp only [hs, chunk, if_neg (show ¬ (s : Int) < 1 by omega), Int.toNat_ofNat]
  generalize hq : (array.length + s - 1) / s = q
  -- `q` is the ceiling: `(q-1)*s < len <= q*s`
  have hdiv := Nat.div_add_mod' (array.length + s - 1) s
  have hmod := Nat.mod_lt (array.length + s - 1) (show 0 < s by omega)
  rw [hq] at hdiv
  have hfit : q * s < 9223372036854775808 := by
    by_cases hn : array.length ≤ s
    · have : q ≤ 1 := by rw [← hq]; exact Nat.le_of_lt_succ ((Nat.div_lt_iff_lt_mul (by omega)).2 (by omega))
      have := Nat.mul_le_mul_right s this
      omega
    · omega
  refine ⟨_, chunkLoop_eq array q 0 (by simpa) (by simp; omega), by simp, ?_, ?_⟩
  · rw [flatten_pieces, Nat.zero_mul, List.drop_zero, List.take_of_length_le (by omega)]
  · rcases q with _ | p
    · simp
    have hp : p * s + s = (p + 1) * s := by ring
    rw [List.range'_concat, List.map_append, List.map_singleton, List.dropLast_concat,
      List.getLast?_concat]
    refine ⟨fun x hx => ?_, fun x hx => ?_⟩
    · obtain ⟨j, hj, rfl⟩ := List.mem_map.1 hx
      have := Nat.mul_le_mul_right s (show j + 1 ≤ p by simp at hj; omega)
      simp only [List.length_take, List.length_drop, show (j + 1) * s = j * s + s by ring] at this ⊢
      omega
    · cases hx
      simp only [List.length_take, List.length_drop, Nat.zero_add, Nat.one_mul]
      omega

theorem chunk_spec_five :
    [(1 : Int), 2, 3, 4, 5].length ≤ 4611686018427387904 ∧
      (((2 : GoInt).val < 1 → chunk [(1 : Int), 2, 3, 4, 5] (2 : GoInt).val = some []) ∧
      (1 ≤ (2 : GoInt).val → ∃ cs, chunk [(1 : Int), 2, 3, 4, 5] (2 : GoInt).val = some cs ∧
        cs.length = ([(1 : Int), 2, 3, 4, 5].length + (2 : GoInt).val.toNat - 1) /
          (2 : GoInt).val.toNat ∧ cs.flatten = [1, 2, 3, 4, 5] ∧
        (∀ x ∈ cs.dropLast, x.length = (2 : GoInt).val.toNat) ∧
        (∀ x ∈ cs.getLast?, 0 < x.length ∧ x.length ≤ (2 : GoInt).val.toNat))) :=
  ⟨by decide, chunk_spec [1, 2, 3, 4, 5] 2 (by decide)⟩

end

end Garray
