import Garray.SortedString.BinSearch
/-!
# `SortedStringArray.Add` (garray_sorted_string.go:89-113)

One round of the loop searches the value, skips it when the unique flag is on and the
comparison is exact, appends it to an empty array, and otherwise splices it in before the
probe (`cmp <= 0`) or after it (`cmp > 0`).

On a sorted array every round is `orderedInsert` (`addValue_eq`): `Lands` puts everything
before the splice point at or below the value and everything after it at or above, and a
sorted permutation is unique. The whole call is then a fold of `orderedInsert`, which keeps
the multiset (`add_false_perm`) and, with the flag on, the set (`mem_add_true`).
-/
namespace Garray

/-- One round of `Add`'s loop on the backing slice. -/
def addValue (unique : Bool) (array : List GoString) (value : GoString) :
    Option (List GoString) := do
  let (index, cmp) ← binSearch array value
  if unique && cmp == 0 then return array
  if index < 0 then return array ++ [value]
  let index := if cmp > 0 then index + 1 else index
  let rear ← goSliceFrom array index
  let front ← goSlice array 0 index
  return front ++ [value] ++ rear

/-- The `for _, value := range values` loop of `Add` on the backing slice; `unique` is
`a.unique.Val()`. -/
def addLoop (unique : Bool) (array values : List GoString) : Option (List GoString) :=
  values.foldlM (addValue unique) array

/-- What one round leaves on a sorted slice. -/
def insertValue (unique : Bool) (array : List GoString) (value : GoString) : List GoString :=
  if unique ∧ value ∈ array then array else array.orderedInsert (· ≤ ·) value

section
variable {a : List GoString} {v : GoString} {p : Nat}

/-- Splicing a value between the part at or below it and the part at or above it keeps a
slice sorted. -/
theorem sorted_splice (hs : a.Sorted (· ≤ ·)) (hl : ∀ x ∈ a.take p, x ≤ v)
    (hr : ∀ x ∈ a.drop p, v ≤ x) : (a.take p ++ v :: a.drop p).Sorted (· ≤ ·) := by
  have hs' := hs
  rw [← List.take_append_drop p a] at hs'
  obtain ⟨h1, h2, h3⟩ := List.pairwise_append.1 hs'
  refine List.pairwise_append.2 ⟨h1, List.sorted_cons.2 ⟨hr, h2⟩, fun x hx y hy => ?_⟩
  rcases List.mem_cons.1 hy with rfl | hy
  · exact hl x hx
  · exact h3 x hx y hy

theorem splice_eq_orderedInsert (hs : a.Sorted (· ≤ ·)) (hl : ∀ x ∈ a.take p, x ≤ v)
    (hr : ∀ x ∈ a.drop p, v ≤ x) : a.take p ++ v :: a.drop p = a.orderedInsert (· ≤ ·) v := by
  refine List.eq_of_perm_of_sorted ?_ (sorted_splice hs hl hr) (hs.orderedInsert v a)
  exact List.perm_middle.trans (by rw [List.take_append_drop]; exact (List.perm_orderedInsert _ v a).symm)

end

/-- Where `Add` splices after a `Lands` answer: before the probe for `cmp <= 0`, after it
for `cmp > 0`; everything before the point is at or below the value, everything after at or
above. -/
theorem Lands.splice {array : List GoString} {value : GoString} {n : Nat} {c : Int}
    (hs : array.Sorted (· ≤ ·)) (hl : Lands array value n c) :
    ∃ p : Nat, (if c > 0 then (n : Int) + 1 else n) = p ∧ p ≤ array.length ∧
      (∀ x ∈ array.take p, x ≤ value) ∧ (∀ x ∈ array.drop p, value ≤ x) := by
  obtain ⟨hn, rfl, hleft, hright⟩ := hl
  by_cases hc : stringsCompare value array[n] > 0
  · refine ⟨n + 1, by simp [hc], hn, fun x hx => ?_, fun x hx => (hright hc x hx).le⟩
    exact (le_of_mem_take_succ hs hn hx).trans (GoString.compare_pos.1 hc).le
  · have hle : value ≤ array[n] := by rw [GoString.le_iff_compare]; omega
    refine ⟨n, by simp [hc], hn.le, fun x hx => ?_, fun x hx => hle.trans (ge_of_mem_drop hs hn hx)⟩
    rcases lt_or_eq_of_le (not_lt.1 hc) with hc' | hc'
    · exact (hleft hc' x hx).le
    · exact (le_of_mem_take hs hn hx).trans (GoString.compare_eq_zero.1 hc').ge

/-- **One round of `Add` is `orderedInsert`.** On a sorted slice the binary-search splice
puts the value where `orderedInsert` does, and skips it exactly when the flag is on and the
value is present. -/
theorem addValue_eq (unique : Bool) {array : List GoString} (value : GoString)
    (hs : array.Sorted (· ≤ ·)) : addValue unique array value = some (insertValue unique array value) := by
  rcases Nat.eq_zero_or_pos array.length with h0 | h0
  · rw [List.length_eq_zero.1 h0]; simp [addValue, binSearch, insertValue]
  obtain ⟨n, c, hb, hl⟩ : ∃ n : Nat, ∃ c, binSearch array value = some ((n : Int), c) ∧
      Lands array value n c := binSearch_spec hs h0
  simp only [addValue, hb, Option.bind_eq_bind, Option.some_bind]
  by_cases hu : unique = true ∧ c = 0
  · obtain ⟨rfl, rfl⟩ := hu
    obtain ⟨hn, hc, -⟩ := hl
    have hv : value ∈ array := GoString.compare_eq_zero.1 hc.symm ▸ List.getElem_mem hn
    simp [insertValue, hv]
  · have hnot : ¬ (unique = true ∧ value ∈ array) :=
      fun ⟨hu', hv⟩ => hu ⟨hu', by_contra fun hc => hl.not_mem hs hc hv⟩
    obtain ⟨p, hp, hpl, hpr, hpr'⟩ := hl.splice hs
    rw [if_neg (by simpa using hu), insertValue, if_neg hnot, hp, ← splice_eq_orderedInsert hs hpr hpr']
    simp [goSliceFrom_eq hpl, goSlice_zero hpl, Int.natCast_nonneg]

/-! ## The whole call -/

section
variable {unique : Bool} {array : List GoString} {value : GoString}

theorem sorted_insertValue (hs : array.Sorted (· ≤ ·)) :
    (insertValue unique array value).Sorted (· ≤ ·) := by
  unfold insertValue; split
  · exact hs
  · exact hs.orderedInsert value array

theorem insertValue_false : insertValue false array value = array.orderedInsert (· ≤ ·) value := by
  simp [insertValue]

theorem mem_insertValue {x : GoString} :
    x ∈ insertValue unique array value ↔ x ∈ array ∨ x = value := by
  unfold insertValue; split
  · rename_i h; constructor
    · exact .inl
    · rintro (hx | rfl)
      · exact hx
      · exact h.2
  · rw [List.mem_orderedInsert, or_comm]

/-- With the flag on, a round keeps a strictly increasing slice strictly increasing. -/
theorem strict_insertValue_true (hs : array.Sorted (· < ·)) :
    (insertValue true array value).Sorted (· < ·) := by
  unfold insertValue; split
  · exact hs
  · rename_i h
    have hv : value ∉ array := fun hv => h ⟨rfl, hv⟩
    refine (hs.le_of_lt.orderedInsert value array).lt_of_le ?_
    exact (List.perm_orderedInsert _ value array).nodup_iff.2 (List.nodup_cons.2 ⟨hv, hs.nodup⟩)

end

/-- The loop of `Add` on a sorted slice folds `insertValue` over the values. -/
theorem addLoop_eq (unique : Bool) : ∀ {array : List GoString} (values : List GoString),
    array.Sorted (· ≤ ·) → addLoop unique array values = some (values.foldl (insertValue unique) array)
  | _, [], _ => rfl
  | _, v :: vs, hs => by
    simp only [addLoop, List.foldlM_cons, addValue_eq unique v hs, Option.some_bind, List.foldl_cons]
    exact addLoop_eq unique vs (sorted_insertValue hs)

theorem sorted_foldl_insertValue (unique : Bool) : ∀ {array : List GoString} (values : List GoString),
    array.Sorted (· ≤ ·) → (values.foldl (insertValue unique) array).Sorted (· ≤ ·)
  | _, [], hs => hs
  | _, _ :: vs, hs => sorted_foldl_insertValue unique vs (sorted_insertValue hs)

/-- With the flag off nothing is dropped: the result is a permutation of old and new. -/
theorem perm_foldl_insertValue_false : ∀ (array values : List GoString),
    (values.foldl (insertValue false) array).Perm (array ++ values)
  | _, [] => by simp
  | array, v :: vs => by
    rw [List.foldl_cons, insertValue_false]
    refine (perm_foldl_insertValue_false _ vs).trans ?_
    refine ((List.perm_orderedInsert _ v array).append_right vs).trans ?_
    exact List.perm_middle.symm

theorem strict_foldl_insertValue_true : ∀ {array : List GoString} (values : List GoString),
    array.Sorted (· < ·) → (values.foldl (insertValue true) array).Sorted (· < ·)
  | _, [], hs => hs
  | _, _ :: vs, hs => strict_foldl_insertValue_true vs (strict_insertValue_true hs)

theorem mem_foldl_insertValue {unique : Bool} {x : GoString} : ∀ (array values : List GoString),
    x ∈ values.foldl (insertValue unique) array ↔ x ∈ array ∨ x ∈ values
  | _, [] => by simp
  | array, v :: vs => by
    rw [List.foldl_cons, mem_foldl_insertValue, mem_insertValue, List.mem_cons]
    tauto

end Garray
