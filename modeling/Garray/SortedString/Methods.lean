import Garray.SortedString.Invariant
/-!
# What `Add`, `Merge`, `Search`, `Contains`, `Unique` and `SetUnique` return

Each statement holds on every sorted array, so on every reachable state
(`Reachable.sorted`). `Merge` is `Add` of the converted source, so it is stated with `Add`.

`Add` reads its values here as a fixed list; `Backing` shows where that holds.

`Unique` panics on the empty array (its exit test compares `0` with `-1`), and so does
`SetUnique(true)` with the flag off: `unique_empty_panics`. On every other sorted array
both return the strictly increasing list of the same elements (`Unique_spec`,
`setUnique_true_spec`).
-/
namespace Garray
namespace SortedStringArray

/-- With the flag off, `Add` folds `orderedInsert`: the sorted permutation of old and new. -/
theorem foldl_insertValue_false {array : List GoString} (hs : array.Sorted (· ≤ ·))
    (values : List GoString) :
    values.foldl (insertValue false) array = sortStrings (array ++ values) :=
  List.eq_of_perm_of_sorted ((perm_foldl_insertValue_false _ _).trans (perm_sortStrings _).symm)
    (sorted_foldl_insertValue _ _ hs) (sorted_sortStrings _)

/-- `Add` and `Merge` on a sorted array, with the values read as a fixed list. With the flag
off they leave exactly the sorted permutation of the old elements and the values; with the
flag on, from a strictly increasing array, the strictly increasing list of the elements and
the values. `Backing` carries it to values in storage of their own. -/
theorem add_merge_spec (s : SortedStringArray) (hs : s.array.Sorted (· ≤ ·))
    (values : List GoString) :
    (s.unique = false → ∃ s', s.add values = some s' ∧ s.merge values = some s' ∧
      s' = { s with array := sortStrings (s.array ++ values) }) ∧
    (s.unique = true → s.array.Sorted (· < ·) → ∃ s', s.add values = some s' ∧
      s.merge values = some s' ∧ s'.safe = s.safe ∧ s'.unique = true ∧
      s'.array.Sorted (· < ·) ∧ ∀ x, x ∈ s'.array ↔ x ∈ s.array ∨ x ∈ values) := by
  refine ⟨fun hu => ⟨_, add_eq_some hs values, add_eq_some hs values, ?_⟩,
    fun hu hst => ⟨_, add_eq_some hs values, add_eq_some hs values, rfl, hu, ?_, fun x => ?_⟩⟩
  · rw [hu, foldl_insertValue_false hs]
  · exact hu ▸ strict_foldl_insertValue_true _ hst
  · exact mem_foldl_insertValue _ _

/-- `Add` of a fixed list of values does not depend on how they are split or ordered. On a
sorted array, strictly increasing when the flag is on, `Add(xs)` then `Add(ys)` leaves what
`Add(xs ++ ys)` leaves, and `Add` of any permutation of the values leaves the same array. -/
theorem add_append_perm {s : SortedStringArray} (hs : s.array.Sorted (· ≤ ·))
    (hu : s.unique = true → s.array.Sorted (· < ·)) (xs ys : List GoString) :
    (s.add xs).bind (·.add ys) = s.add (xs ++ ys) ∧
      ∀ values, values.Perm xs → s.add values = s.add xs := by
  refine ⟨?_, fun values h => ?_⟩
  · rw [add_eq_some hs, Option.some_bind, add_eq_some (sorted_foldl_insertValue _ _ hs),
      add_eq_some hs, List.foldl_append]
  rw [add_eq_some hs, add_eq_some hs]
  congr 2
  cases hf : s.unique
  · rw [foldl_insertValue_false hs, foldl_insertValue_false hs]
    exact List.eq_of_perm_of_sorted
      ((perm_sortStrings _).trans ((h.append_left _).trans (perm_sortStrings _).symm))
      (sorted_sortStrings _) (sorted_sortStrings _)
  · have h₁ := strict_foldl_insertValue_true values (hu hf)
    have h₂ := strict_foldl_insertValue_true xs (hu hf)
    refine List.eq_of_perm_of_sorted ((List.perm_ext_iff_of_nodup h₁.nodup h₂.nodup).2 fun x => ?_)
      (h₁.imp le_of_lt) (h₂.imp le_of_lt)
    rw [mem_foldl_insertValue, mem_foldl_insertValue, h.mem_iff]

/-- `Search` returns the index the binary search stopped at when it compared equal, else `-1`. -/
theorem search_eq {s : SortedStringArray} {v : GoString} {i c : Int}
    (h : binSearch s.array v = some (i, c)) : s.search v = some (if c = 0 then i else -1) := by
  simp only [search, h, Option.bind_eq_bind, Option.some_bind, Option.pure_def]

/-- `Search(v)` on a sorted slice: `-1` exactly when `v` is absent, else an index holding `v`. -/
theorem search_spec {s : SortedStringArray} (hs : s.array.Sorted (· ≤ ·)) (v : GoString) :
    ∃ i, s.search v = some i ∧ (i = -1 ↔ v ∉ s.array) ∧
      (∀ n : Nat, i = n → s.array[n]? = some v) ∧ -1 ≤ i := by
  rcases Nat.eq_zero_or_pos s.array.length with h0 | h0
  · have hb : binSearch s.array v = some (-1, -2) := by rw [binSearch, if_pos h0]
    exact ⟨-1, by rw [search_eq hb, ite_self], by simp [List.length_eq_zero.1 h0], by omega, le_rfl⟩
  obtain ⟨n, c, hb, hl⟩ : ∃ n : Nat, ∃ c, binSearch s.array v = some ((n : Int), c) ∧
      Lands s.array v n c := binSearch_spec hs h0
  by_cases hc : c = 0
  · obtain ⟨hn, hcmp, -⟩ := hl
    have hv : s.array[n] = v := (GoString.compare_eq_zero.1 (hc ▸ hcmp).symm).symm
    refine ⟨n, by rw [search_eq hb, if_pos hc], ?_, fun m hm => ?_, by omega⟩
    · simp [hv ▸ List.getElem_mem hn]
    · rw [← Int.ofNat_inj.1 hm, List.getElem?_eq_getElem hn, hv]
  · have hnot := hl.not_mem hs hc
    exact ⟨-1, by rw [search_eq hb, if_neg hc], by simp [hnot], by omega, le_rfl⟩

/-- **`Search` and `Contains` on a sorted array.** `Search(v)` returns an index holding `v`
when `v` is present and `-1` exactly when it is absent; `Contains(v)` says whether `v` is
present. -/
theorem search_contains_spec (s : SortedStringArray) (hs : s.array.Sorted (· ≤ ·)) (v : GoString) :
    ∃ i, s.search v = some i ∧
      (v ∈ s.array → ∃ n : Nat, ∃ h : n < s.array.length, i = n ∧ s.array[n] = v) ∧
      (i = -1 ↔ v ∉ s.array) ∧ s.contains v = some (decide (v ∈ s.array)) := by
  -- `Contains` is read off the index `Search` returns
  suffices h : ∃ i, s.search v = some i ∧
      (v ∈ s.array → ∃ n : Nat, ∃ h : n < s.array.length, i = n ∧ s.array[n] = v) ∧
      (i = -1 ↔ v ∉ s.array) by
    obtain ⟨i, hi, hfound, hmiss⟩ := h
    have hne : (i != -1) = decide (v ∈ s.array) := by
      rw [Bool.eq_iff_iff, bne_iff_ne, decide_eq_true_iff]
      exact (not_congr hmiss).trans not_not
    exact ⟨i, hi, hfound, hmiss, by simp only [contains, hi, Option.bind_eq_bind,
      Option.some_bind, Option.pure_def, hne]⟩
  rcases Nat.eq_zero_or_pos s.array.length with h0 | h0
  · have he := List.length_eq_zero.1 h0
    have hb : binSearch s.array v = some (-1, -2) := by rw [binSearch, if_pos h0]
    exact ⟨-1, by rw [search_eq hb, ite_self], by simp [he], by simp [he]⟩
  obtain ⟨n, c, hb, hl⟩ : ∃ n : Nat, ∃ c, binSearch s.array v = some ((n : Int), c) ∧
      Lands s.array v n c := binSearch_spec hs h0
  by_cases hc : c = 0
  · obtain ⟨hn, hcmp, -⟩ := hl
    have hv : s.array[n] = v := (GoString.compare_eq_zero.1 (hc ▸ hcmp).symm).symm
    exact ⟨n, by rw [search_eq hb, if_pos hc], fun _ => ⟨n, hn, rfl, hv⟩,
      by simp [hv ▸ List.getElem_mem hn]⟩
  · have hnot := hl.not_mem hs hc
    exact ⟨-1, by rw [search_eq hb, if_neg hc], fun h => absurd h hnot, by simp [hnot]⟩

theorem search_contains_spec_a :
    (⟨true, [⟨[97]⟩], false⟩ : SortedStringArray).array.Sorted (· ≤ ·) ∧
      ∃ i, (⟨true, [⟨[97]⟩], false⟩ : SortedStringArray).search ⟨[97]⟩ = some i ∧
        ((⟨[97]⟩ : GoString) ∈ (⟨true, [⟨[97]⟩], false⟩ : SortedStringArray).array →
          ∃ n : Nat, ∃ h : n < (⟨true, [⟨[97]⟩], false⟩ : SortedStringArray).array.length,
            i = n ∧ (⟨true, [⟨[97]⟩], false⟩ : SortedStringArray).array[n] = ⟨[97]⟩) ∧
        (i = -1 ↔ (⟨[97]⟩ : GoString) ∉ (⟨true, [⟨[97]⟩], false⟩ : SortedStringArray).array) ∧
        (⟨true, [⟨[97]⟩], false⟩ : SortedStringArray).contains ⟨[97]⟩ =
          some (decide ((⟨[97]⟩ : GoString) ∈ (⟨true, [⟨[97]⟩], false⟩ : SortedStringArray).array)) :=
  ⟨by decide, search_contains_spec ⟨true, [⟨[97]⟩], false⟩ (by decide) ⟨[97]⟩⟩

/-- **On a strictly increasing slice `Search` is the linear search**: the binary search
returns the index a scan from the front finds, and `-1` when `v` is absent. The flag keeps the
slice strictly increasing along runs without `SetArray` (`run_unique_strict`), but `SetArray`
installs duplicates whatever the flag says. With copies of `v` the halving stops at whichever
copy it meets first, not at the first one. -/
theorem search_eq_indexOf (s : SortedStringArray) (hs : s.array.Sorted (· < ·)) (v : GoString) :
    s.search v = some (if v ∈ s.array then (s.array.indexOf v : Int) else -1) := by
  obtain ⟨i, hi, hmiss, hat, hge⟩ := search_spec (hs.imp le_of_lt) v
  rw [hi]
  split_ifs with hv
  · obtain ⟨n, rfl⟩ : ∃ n : Nat, i = n := ⟨i.toNat, by have := mt hmiss.1 (not_not.2 hv); omega⟩
    obtain ⟨hn, hget⟩ := List.getElem?_eq_some_iff.1 (hat n rfl)
    rw [← hget, List.indexOf_getElem hs.nodup n hn]
  · exact congrArg some (hmiss.2 hv)

theorem search_eq_indexOf_abc :
    (⟨true, [⟨[97]⟩, ⟨[98]⟩, ⟨[99]⟩], true⟩ : SortedStringArray).array.Sorted (· < ·) ∧
      (⟨true, [⟨[97]⟩, ⟨[98]⟩, ⟨[99]⟩], true⟩ : SortedStringArray).search ⟨[99]⟩ =
        some (if (⟨[99]⟩ : GoString) ∈ [(⟨[97]⟩ : GoString), ⟨[98]⟩, ⟨[99]⟩] then
          (([(⟨[97]⟩ : GoString), ⟨[98]⟩, ⟨[99]⟩].indexOf ⟨[99]⟩ : Nat) : Int) else -1) :=
  ⟨by decide, search_eq_indexOf ⟨true, [⟨[97]⟩, ⟨[98]⟩, ⟨[99]⟩], true⟩ (by decide) ⟨[99]⟩⟩

/-- With copies, `Search` can return a later one: on `[a, a, a]` the halving compares the middle
copy first and returns `1`. -/
example : (⟨true, [⟨[97]⟩, ⟨[97]⟩, ⟨[97]⟩], false⟩ : SortedStringArray).search ⟨[97]⟩ = some 1 := by
  decide

/-! ## `Unique` and `SetUnique` -/

/-- On a sorted non-empty array `Unique` ends without a fault and leaves the strictly
increasing list of the same elements. -/
theorem Unique_spec {s : SortedStringArray} (hs : s.array.Sorted (· ≤ ·)) (hne : s.array ≠ []) :
    ∃ s', s.Unique = some s' ∧ s'.safe = s.safe ∧ s'.unique = s.unique ∧
      s'.array.Sorted (· < ·) ∧ ∀ x, x ∈ s'.array ↔ x ∈ s.array := by
  obtain ⟨r, hr, hst, hm⟩ := uniqueArray_spec hs hne
  exact ⟨{ s with array := r }, by simp [Unique, hr], rfl, rfl, hst, hm⟩

theorem Unique_spec_aab :
    (⟨true, [⟨[97]⟩, ⟨[97]⟩, ⟨[98]⟩], false⟩ : SortedStringArray).array.Sorted (· ≤ ·) ∧
      (⟨true, [⟨[97]⟩, ⟨[97]⟩, ⟨[98]⟩], false⟩ : SortedStringArray).array ≠ [] ∧
      ∃ s', (⟨true, [⟨[97]⟩, ⟨[97]⟩, ⟨[98]⟩], false⟩ : SortedStringArray).Unique = some s' ∧
        s'.safe = true ∧ s'.unique = false ∧ s'.array.Sorted (· < ·) ∧
        ∀ x, x ∈ s'.array ↔ x ∈ [(⟨[97]⟩ : GoString), ⟨[97]⟩, ⟨[98]⟩] :=
  ⟨by decide, by decide, Unique_spec (by decide) (by decide)⟩

/-- With the flag off, `SetUnique(true)` on a sorted non-empty array does the same and turns
the flag on. -/
theorem setUnique_true_spec {s : SortedStringArray} (hs : s.array.Sorted (· ≤ ·))
    (hne : s.array ≠ []) (hu : s.unique = false) :
    ∃ s', s.setUnique true = some s' ∧ s'.safe = s.safe ∧ s'.unique = true ∧
      s'.array.Sorted (· < ·) ∧ ∀ x, x ∈ s'.array ↔ x ∈ s.array := by
  obtain ⟨r, hr, hst, hm⟩ := uniqueArray_spec hs hne
  exact ⟨{ s with array := r, unique := true }, by simp [setUnique, hu, Unique, hr], rfl, rfl, hst, hm⟩

/-- **`Unique` is idempotent.** On every sorted array, a second `Unique` after one that did not
panic leaves the array it found. -/
theorem Unique_idem {s s' : SortedStringArray} (hs : s.array.Sorted (· ≤ ·))
    (h : s.Unique = some s') : s'.Unique = some s' := by
  obtain ⟨hu, -, -⟩ := Unique_eq_some h
  obtain ⟨hr, hm⟩ := uniqueArray_strict hs hu
  have hne : s'.array ≠ [] := by
    have hs0 : s.array ≠ [] := fun h0 => by rw [h0, uniqueArray_nil] at hu; cases hu
    obtain ⟨x, hx⟩ := List.exists_mem_of_ne_nil _ hs0
    exact List.ne_nil_of_mem ((hm x).2 hx)
  obtain ⟨r, hr', hrs, hrm⟩ := uniqueArray_spec (hr.imp le_of_lt) hne
  have e : r = s'.array := List.eq_of_perm_of_sorted
    ((List.perm_ext_iff_of_nodup hrs.nodup hr.nodup).2 hrm) (hrs.imp le_of_lt) (hr.imp le_of_lt)
  simp only [Unique, hr', e, Option.bind_eq_bind, Option.some_bind, Option.pure_def]

theorem Unique_idem_aab :
    ([⟨[97]⟩, ⟨[97]⟩, ⟨[98]⟩] : List GoString).Sorted (· ≤ ·) ∧
      (⟨true, [⟨[97]⟩, ⟨[97]⟩, ⟨[98]⟩], false⟩ : SortedStringArray).Unique =
        some ⟨true, [⟨[97]⟩, ⟨[98]⟩], false⟩ ∧
      (⟨true, [⟨[97]⟩, ⟨[98]⟩], false⟩ : SortedStringArray).Unique =
        some ⟨true, [⟨[97]⟩, ⟨[98]⟩], false⟩ :=
  have h : (⟨true, [⟨[97]⟩, ⟨[97]⟩, ⟨[98]⟩], false⟩ : SortedStringArray).Unique =
      some ⟨true, [⟨[97]⟩, ⟨[98]⟩], false⟩ := by decide
  ⟨by decide, h, Unique_idem (by decide) h⟩

/-! ## Round trips of `Add` and `Remove` -/

/-- `Remove(index)` at a position `n` inside the slice, as one call. -/
theorem step_remove_of_lt {s : SortedStringArray} {index : GoInt} {n : Nat} (hidx : index.val = n)
    (hn : n < s.array.length) :
    s.step (.remove index) = some ({ s with array := s.array.eraseIdx n }, .value s.array[n]) := by
  show (s.remove index).map _ = _
  simp only [remove, onArray, hidx, remove_of_lt hn, Option.map_some']

/-- `Add(v)` on a sorted slice, as one call. -/
theorem step_add_singleton {s : SortedStringArray} (hs : s.array.Sorted (· ≤ ·)) (v : GoString) :
    s.step (.add [v]) = some ({ s with array := insertValue s.unique s.array v }, .self) := by
  show (s.add [v]).map _ = _
  simp only [add_eq_some hs, List.foldl_cons, List.foldl_nil, Option.map_some']

/-- Putting back the element at `n` of a sorted slice restores it; with the flag on the slice
must be strictly increasing, or the copy left behind refuses the value. -/
theorem insertValue_eraseIdx {unique : Bool} {a : List GoString} {n : Nat} (hn : n < a.length)
    (hs : a.Sorted (· ≤ ·)) (hu : unique = true → a.Sorted (· < ·)) :
    insertValue unique (a.eraseIdx n) a[n] = a := by
  have hp := perm_cons_eraseIdx hn
  have hnot : ¬ (unique = true ∧ a[n] ∈ a.eraseIdx n) := fun ⟨h, hm⟩ =>
    (List.nodup_cons.1 (hp.nodup_iff.2 (hu h).nodup)).1 hm
  rw [insertValue, if_neg hnot]
  exact List.eq_of_perm_of_sorted ((List.perm_orderedInsert _ _ _).trans hp)
    (List.Sorted.orderedInsert _ _ (hs.sublist (List.eraseIdx_sublist _ _))) hs

/-- **`Add` undoes `Remove`.** On a sorted array, strictly increasing when the flag is on,
`Remove(index)` followed by `Add` of the value it returned leaves the array as it was. With
the flag on and copies left by `SetArray`, the copy still there makes `Add` drop the value. -/
theorem run_remove_add {s : SortedStringArray} {index : GoInt} {v : GoString}
    (hs : s.array.Sorted (· ≤ ·)) (hu : s.unique = true → s.array.Sorted (· < ·))
    (hi : 0 ≤ index.val) (hv : s.array[index.val.toNat]? = some v) :
    s.run [.remove index, .add [v]] = some (s, [.value v, .self]) := by
  obtain ⟨n, hidx⟩ : ∃ n : Nat, index.val = n := ⟨index.val.toNat, by omega⟩
  rw [hidx, Int.toNat_ofNat] at hv
  obtain ⟨hn, rfl⟩ := List.getElem?_eq_some_iff.1 hv
  have hs₁ : ({ s with array := s.array.eraseIdx n } : SortedStringArray).array.Sorted (· ≤ ·) :=
    hs.sublist (List.eraseIdx_sublist _ _)
  simp only [run, step_remove_of_lt hidx hn, step_add_singleton hs₁, insertValue_eraseIdx hn hs hu,
    Option.bind_eq_bind, Option.some_bind, Option.pure_def]

theorem run_remove_add_abb :
    ([⟨[97]⟩, ⟨[98]⟩, ⟨[98]⟩] : List GoString).Sorted (· ≤ ·) ∧
      ((⟨true, [⟨[97]⟩, ⟨[98]⟩, ⟨[98]⟩], false⟩ : SortedStringArray).unique = true →
        ([⟨[97]⟩, ⟨[98]⟩, ⟨[98]⟩] : List GoString).Sorted (· < ·)) ∧
      0 ≤ (1 : GoInt).val ∧
      ([⟨[97]⟩, ⟨[98]⟩, ⟨[98]⟩] : List GoString)[(1 : GoInt).val.toNat]? = some ⟨[98]⟩ ∧
      (⟨true, [⟨[97]⟩, ⟨[98]⟩, ⟨[98]⟩], false⟩ : SortedStringArray).run [.remove 1, .add [⟨[98]⟩]] =
        some (⟨true, [⟨[97]⟩, ⟨[98]⟩, ⟨[98]⟩], false⟩, [.value ⟨[98]⟩, .self]) :=
  ⟨by decide, by decide, by decide, by decide,
    run_remove_add (by decide) (by decide) (by decide) (by decide)⟩

/-- Taking a copy of `v` back out of a sorted slice `v` was inserted into restores it. -/
theorem eraseIdx_orderedInsert {a : List GoString} {v : GoString} {n : Nat}
    (hs : a.Sorted (· ≤ ·)) (hn : n < (a.orderedInsert (· ≤ ·) v).length)
    (hv : (a.orderedInsert (· ≤ ·) v)[n] = v) : (a.orderedInsert (· ≤ ·) v).eraseIdx n = a := by
  have hp := perm_cons_eraseIdx hn
  rw [hv] at hp
  exact List.eq_of_perm_of_sorted ((List.perm_cons v).1 (hp.trans (List.perm_orderedInsert _ _ _)))
    ((hs.orderedInsert v a).sublist (List.eraseIdx_sublist _ _)) hs

/-- **`Remove` at the index `Search` reports undoes `Add`.** On a sorted array whose length
fits in `int`, `Add(v)` then `Search(v)` returns an index holding `v`, and `Remove` at that
index returns `v` and leaves the array as it was. With the flag on `v` must be absent, or `Add`
drops it and `Remove` takes out the copy that was already there. -/
theorem run_add_search_remove {s : SortedStringArray} {v : GoString}
    (hs : s.array.Sorted (· ≤ ·)) (hu : s.unique = true → v ∉ s.array)
    (hlen : s.array.length < 9223372036854775807) :
    ∃ s₁ i, s.run [.add [v], .search v] = some (s₁, [.self, .index i]) ∧
      s₁.run [.remove (.ofInt i)] = some (s, [.value v]) := by
  have hins : insertValue s.unique s.array v = s.array.orderedInsert (· ≤ ·) v := by
    rw [insertValue, if_neg fun h => hu h.1 h.2]
  have hs₁ : ({ s with array := s.array.orderedInsert (· ≤ ·) v } : SortedStringArray).array.Sorted
      (· ≤ ·) := hs.orderedInsert v s.array
  obtain ⟨i, hi, hmiss, hat, hge⟩ := search_spec hs₁ v
  have hv : v ∈ ({ s with array := s.array.orderedInsert (· ≤ ·) v } : SortedStringArray).array :=
    (List.mem_orderedInsert _).2 (.inl rfl)
  obtain ⟨n, rfl⟩ : ∃ n : Nat, i = n := ⟨i.toNat, by have := mt hmiss.1 (not_not.2 hv); omega⟩
  obtain ⟨hn, hget⟩ := List.getElem?_eq_some_iff.1 (hat n rfl)
  have hw : (GoInt.ofInt n).val = n := by
    have := List.orderedInsert_length (· ≤ ·) s.array v
    dsimp only at hn
    rw [GoInt.val_ofInt, wrap_of_inRange (by omega) (by omega)]
  have h₂ : ({ s with array := s.array.orderedInsert (· ≤ ·) v } : SortedStringArray).step
      (.search v) = some ({ s with array := s.array.orderedInsert (· ≤ ·) v }, .index n) := by
    show (SortedStringArray.search _ v).map _ = _
    rw [hi]; rfl
  refine ⟨{ s with array := s.array.orderedInsert (· ≤ ·) v }, n, ?_, ?_⟩
  · simp only [run, step_add_singleton hs, hins, h₂, Option.bind_eq_bind, Option.some_bind,
      Option.pure_def]
  · simp only [run, step_remove_of_lt hw hn, hget, eraseIdx_orderedInsert hs hn hget,
      Option.bind_eq_bind, Option.some_bind, Option.pure_def]

theorem run_add_search_remove_ac :
    ([⟨[97]⟩, ⟨[99]⟩] : List GoString).Sorted (· ≤ ·) ∧
      ((⟨true, [⟨[97]⟩, ⟨[99]⟩], true⟩ : SortedStringArray).unique = true →
        (⟨[98]⟩ : GoString) ∉ [(⟨[97]⟩ : GoString), ⟨[99]⟩]) ∧
      [(⟨[97]⟩ : GoString), ⟨[99]⟩].length < 9223372036854775807 ∧
      ∃ s₁ i, (⟨true, [⟨[97]⟩, ⟨[99]⟩], true⟩ : SortedStringArray).run [.add [⟨[98]⟩], .search ⟨[98]⟩] =
          some (s₁, [.self, .index i]) ∧
        s₁.run [.remove (.ofInt i)] = some (⟨true, [⟨[97]⟩, ⟨[99]⟩], true⟩, [.value ⟨[98]⟩]) :=
  ⟨by decide, by decide, by decide, run_add_search_remove (by decide) (by decide) (by decide)⟩

/-- `Unique()` and `SetUnique(true)` on an empty array panic: the exit test `i == len-1`
compares `0` with `-1`, and the comparison then reads `a.array[0]`. -/
theorem unique_empty_panics :
    (newSortedStringArray false).Unique = none ∧ (newSortedStringArray false).setUnique true = none ∧
      Reachable (newSortedStringArray false) :=
  ⟨by decide, by decide, .new false⟩

end SortedStringArray
end Garray
