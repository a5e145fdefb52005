import Garray.IntArray
import Mathlib.Data.List.InsertIdx
/-!
# The loops of `IntArray` in closed form (garray_normal_int.go)

| here | there |
| --- | --- |
| `insertAt_eq`, `insert_eq_insertIdx` | `InsertBefore`, `InsertAfter` (143-159) |
| `replaceLoop_eq`, `replace_eq_goCopy` | `Replace` (89-101) |
| `foldl_wrap_add`, `sum_eq_wrap` | `Sum` (103-111) |
| `searchLoop_eq`, `search_indexOf` | `Search`, `Contains` (398-420) |
| `reverseLoop_eq`, `reverse_eq_reverse` | `Reverse` (578-586) |
| `shuffleLoop_perm`, `shuffle_perm` | `Shuffle` (568-576) |
| `shuffleLoop_involution`, `shuffle_involution` | `Shuffle` on an involution |

Each method's loop is proved on its counter and then read at the start the method gives it.
`InsertBefore(i)` and `InsertAfter(i-1)` insert at `i` and panic outside `[0, len]`;
`Replace` of a fixed list is `copy` (`Backing` takes in views of the receiver's own storage);
`Sum` is the sum modulo `2^64`; `Search` returns the first index of the value; `Reverse`
reverses every slice within its fuel.

`Shuffle` swaps `a[i]` with `a[p[i]]` for `i = 0, 1, …` over the permutation `p` that
`grand.Perm` draws. Every draw gives a permutation of the slice, but not every permutation
with the same chance: whenever `p` is an involution (`p[p[i]] = i`), each pair
`{i, p[i]}` is swapped twice and the slice comes back unchanged. On two elements every
permutation is an involution, so `Shuffle` never changes a two-element slice.
-/
namespace Garray

/-! ## `InsertBefore`, `InsertAfter` -/

theorem insertIdx_eq_take_drop {l : List Int} {n : Nat} (x : Int) (h : n ≤ l.length) :
    l.insertIdx n x = l.take n ++ x :: l.drop n := by
  induction l generalizing n with
  | nil =>
    obtain rfl : n = 0 := by simpa using h
    simp [List.insertIdx_zero]
  | cons y l ih =>
    cases n with
    | zero => simp [List.insertIdx_zero]
    | succ n => simp [List.insertIdx_succ_cons, ih (by simpa using h)]

/-- The shared body inserts at `index` when `0 <= index <= len`, and panics in `a[index:]`
otherwise. -/
theorem insertAt_eq (array : List Int) (index value : Int) :
    insertAt array index value =
      if 0 ≤ index ∧ index ≤ array.length then some (array.insertIdx index.toNat value) else none := by
  by_cases h : 0 ≤ index ∧ index ≤ array.length
  · obtain ⟨n, rfl⟩ : ∃ n : Nat, index = n := ⟨index.toNat, by omega⟩
    have hn : n ≤ array.length := by omega
    simp [insertAt, goSliceFrom_eq hn, goSlice_zero hn, h, insertIdx_eq_take_drop _ hn]
  · rw [if_neg h, insertAt, goSliceFrom, goSlice_eq_none (by omega)]; rfl

namespace IntArray

/-- **`InsertBefore(index)` inserts at `index`, `InsertAfter(index)` at `index+1`**, and each
panics outside the slice; `index+1` wraps at `math.MaxInt64`, where the slice bound fails. -/
theorem insert_eq_insertIdx (a : IntArray) (index : GoInt) (value : Int)
    (hlen : a.array.length < 9223372036854775808) :
    a.insertBefore index value =
        (if 0 ≤ index.val ∧ index.val ≤ a.array.length then
          some { a with array := a.array.insertIdx index.val.toNat value } else none) ∧
      a.insertAfter index value =
        (if -1 ≤ index.val ∧ index.val < a.array.length then
          some { a with array := a.array.insertIdx (index.val + 1).toNat value } else none) := by
  have := index.lt
  constructor
  · rw [insertBefore, insertAt_eq]; split_ifs <;> rfl
  · by_cases hmax : index.val + 1 < 9223372036854775808
    · rw [insertAfter, wrap_of_inRange (by have := index.ge; omega) hmax, insertAt_eq]
      split_ifs <;> first | rfl | omega
    · rw [insertAfter, insertAt_eq, if_neg (by unfold wrap; omega), if_neg (by omega)]; rfl

theorem insert_eq_insertIdx_mid :
    [(1 : Int), 2, 3].length < 9223372036854775808 ∧
      (newIntArrayFrom [1, 2, 3] false).insertBefore 1 9 =
          (if 0 ≤ (1 : GoInt).val ∧ (1 : GoInt).val ≤ [(1 : Int), 2, 3].length then
            some { newIntArrayFrom [1, 2, 3] false with
              array := [(1 : Int), 2, 3].insertIdx (1 : GoInt).val.toNat 9 } else none) ∧
        (newIntArrayFrom [1, 2, 3] false).insertAfter 1 9 =
          (if -1 ≤ (1 : GoInt).val ∧ (1 : GoInt).val < [(1 : Int), 2, 3].length then
            some { newIntArrayFrom [1, 2, 3] false with
              array := [(1 : Int), 2, 3].insertIdx ((1 : GoInt).val + 1).toNat 9 } else none) :=
  ⟨by decide, insert_eq_insertIdx (newIntArrayFrom [1, 2, 3] false) 1 9 (by decide)⟩

end IntArray

/-! ## `Replace` -/

/-- The loop of `Replace` over its first `m` indices: `array[:m]` over `a.array[:m]`. -/
theorem replaceLoop_eq (array : List Int) : ∀ (m : Nat) (cur : List Int), m ≤ array.length →
    m ≤ cur.length →
    (List.range m).foldlM (fun acc (i : Nat) => do goSet acc i (← goIndex array i)) cur =
      some (array.take m ++ cur.drop m)
  | 0, cur, _, _ => by simp
  | m + 1, cur, h1, h2 => by
    have hm : (array.take m).length = m := List.length_take_of_le (by omega)
    have hset : (array.take m ++ cur.drop m).set m array[m] = array.take (m + 1) ++ cur.drop (m + 1) := by
      rw [List.drop_eq_getElem_cons (by omega), List.set_append_right _ _ hm.le, List.take_succ,
        List.getElem?_eq_getElem (by omega)]
      simp only [hm, Nat.sub_self, List.set_cons_zero, Option.toList_some, List.append_assoc,
        List.singleton_append]
    rw [List.range_succ, List.foldlM_append, replaceLoop_eq array m cur (by omega) (by omega)]
    simp only [Option.bind_eq_bind, Option.some_bind, List.foldlM_cons, List.foldlM_nil,
      goIndex_eq_some (show m < array.length by omega),
      goSet_eq_some (show m < (array.take m ++ cur.drop m).length by simp; omega), hset,
      Option.pure_def]

/-- **`Replace` is `copy(a.array, array)`**: it never panics, overwrites the first
`min(len(array), len(a.array))` elements and keeps the length. -/
theorem IntArray.replace_eq_goCopy (a : IntArray) (array : List Int) :
    a.replace array = some { a with array := goCopy a.array array } := by
  have hm : (if array.length > a.array.length then a.array.length else array.length) =
      min array.length a.array.length := by split_ifs <;> omega
  simp only [IntArray.replace, hm]
  rw [replaceLoop_eq array _ a.array (min_le_left _ _) (min_le_right _ _)]
  simp only [Option.bind_eq_bind, Option.some_bind, Option.pure_def, goCopy]
  rcases le_total array.length a.array.length with h | h
  · rw [min_eq_left h, List.take_length, List.take_of_length_le h]
  · rw [min_eq_right h, List.drop_length, List.drop_of_length_le h]

/-! ## `Sum` -/

theorem foldl_wrap_add : ∀ (l : List Int) (t : Int),
    l.foldl (fun s v => wrap (s + v)) (wrap t) = wrap (t + l.sum)
  | [], t => by simp
  | v :: l, t => by rw [List.foldl_cons, wrap_add_wrap, foldl_wrap_add l, List.sum_cons, add_assoc]

theorem foldl_wrap_zero (l : List Int) : l.foldl (fun s v => wrap (s + v)) 0 = wrap l.sum := by
  have := foldl_wrap_add l 0
  rwa [zero_add, show wrap 0 = 0 by decide] at this

/-- **`Sum` is the sum modulo `2^64`**, read as an `int`: the running sum's overflows cancel,
so the result is exact whenever the total fits in `int` (`wrap_of_inRange`). -/
theorem IntArray.sum_eq_wrap (a : IntArray) : a.sum = wrap a.array.sum :=
  foldl_wrap_zero a.array

/-! ## `Search`, `Contains` -/

/-- The loop of `Search` from `index`: the index of the first match, or `-1`. -/
theorem searchLoop_eq (value : Int) : ∀ (l : List Int) (index : Int),
    searchLoop value l index = if value ∈ l then index + l.indexOf value else -1
  | [], _ => rfl
  | v :: l, index => by
    by_cases h : v = value
    · simp [searchLoop, h, List.indexOf_cons]
    · have hb : (v == value) = false := by simpa using h
      rw [searchLoop, if_neg h, searchLoop_eq value l, List.indexOf_cons, hb, cond_false]
      simp only [List.mem_cons, Ne.symm h, false_or]
      split_ifs <;> push_cast; omega

/-- **`Search` returns the first index of the value, `-1` when it is absent**, and so
`Contains` is membership. -/
theorem IntArray.search_indexOf (a : IntArray) (value : Int) :
    a.search value = (if value ∈ a.array then (a.array.indexOf value : Int) else -1) ∧
      a.contains value = decide (value ∈ a.array) := by
  have hs : a.search value = if value ∈ a.array then (a.array.indexOf value : Int) else -1 := by
    unfold IntArray.search
    by_cases h0 : a.array.length = 0
    · simp [h0, List.eq_nil_of_length_eq_zero h0]
    · rw [if_neg h0, searchLoop_eq, zero_add]
  refine ⟨hs, ?_⟩
  unfold IntArray.contains
  rw [hs]; split_ifs with h <;> simp [h]

/-! ## `Reverse` -/

/-- Once `i` has met `j = len-1-i`, the slice the loop built is `a.reverse`. -/
theorem reverse_of_met {a cur : List Int} {i : Nat} (hc : cur.length = a.length)
    (hmet : a.length ≤ 2 * i + 1)
    (hinv : ∀ k < a.length, cur[k]? = if k < i ∨ a.length - 1 - i < k then a.reverse[k]? else a[k]?) :
    cur = a.reverse := by
  refine List.ext_getElem? fun k => ?_
  by_cases hk : k < a.length
  · rw [hinv k hk]
    split_ifs
    · rfl
    · rw [List.getElem?_reverse' k k (by omega)]
  · rw [List.getElem?_eq_none (by omega), List.getElem?_eq_none (by simp; omega)]

/-- The loop of `Reverse` at `i`, `j = len-1-i`, on a slice whose first `i` and last `i`
elements are already those of `a.reverse` and whose middle is still `a`'s; `fuel + 1` rounds
reach the middle from `i`. -/
theorem reverseLoop_eq (a : List Int) (fuel : Nat) : ∀ (i : Nat) (cur : List Int),
    cur.length = a.length → a.length ≤ 2 * (i + fuel) + 1 →
    (∀ k < a.length, cur[k]? = if k < i ∨ a.length - 1 - i < k then a.reverse[k]? else a[k]?) →
    reverseLoop (fuel + 1) i ((a.length : Int) - 1 - i) cur = some a.reverse := by
  induction fuel with
  | zero =>
    intro i cur hc hf hinv
    rw [reverseLoop, if_neg (by omega), reverse_of_met hc (by omega) hinv]
  | succ fuel ih =>
    intro i cur hc hf hinv
    rw [reverseLoop]
    by_cases hij : (i : Int) < (a.length : Int) - 1 - i
    swap
    · rw [if_neg hij, reverse_of_met hc (by omega) hinv]
    have hi : i < cur.length := by omega
    have hj : a.length - 1 - i < cur.length := by omega
    rw [if_pos hij, show (a.length : Int) - 1 - i = ((a.length - 1 - i : Nat) : Int) by omega,
      goSwap_eq hi hj, Option.bind_eq_bind, Option.some_bind,
      show ((a.length - 1 - i : Nat) : Int) - 1 = (a.length : Int) - 1 - (i + 1 : Nat) by omega,
      ← Nat.cast_succ]
    refine ih (i + 1) _ (by simpa using hc) (by omega) fun k hk => ?_
    rw [getElem?_swap hi hj]
    by_cases hkj : k = a.length - 1 - i
    · rw [if_pos hkj, hinv i (by omega), if_neg (by omega), if_pos (Or.inr (by omega)),
        List.getElem?_reverse' k i (by omega)]
    rw [if_neg hkj]
    by_cases hki : k = i
    · rw [if_pos hki, hinv _ (by omega), if_neg (by omega), if_pos (Or.inl (by omega)),
        List.getElem?_reverse' k (a.length - 1 - i) (by omega)]
    rw [if_neg hki, hinv k hk]
    split_ifs <;> first | rfl | omega

/-- **`Reverse` reverses every slice**: the two indices meet after `len/2` swaps, well
within the fuel. -/
theorem IntArray.reverse_eq_reverse (a : IntArray) :
    a.reverse = some { a with array := a.array.reverse } := by
  have := reverseLoop_eq a.array a.array.length 0 a.array rfl (by omega)
    fun k _ => by rw [if_neg (by omega)]
  simp only [IntArray.reverse, Nat.cast_zero, sub_zero] at this ⊢
  rw [this]; rfl

/-! ## `Set` and `Get` -/

/-! ## `Shuffle` -/

/-- The loop of `Shuffle` from index `i`: every round swaps two positions inside the slice, so
it ends with a permutation of what it started from. -/
theorem shuffleLoop_perm : ∀ (perm : List Nat) (i : Nat) (cur : List Int),
    i + perm.length ≤ cur.length → (∀ v ∈ perm, v < cur.length) →
    ∃ cur', shuffleLoop perm i cur = some cur' ∧ cur'.Perm cur
  | [], _, cur, _, _ => ⟨cur, rfl, .refl cur⟩
  | v :: perm, i, cur, hl, hv => by
    have hi : i < cur.length := by simp at hl; omega
    have hv' := hv v (List.mem_cons_self _ _)
    obtain ⟨cur', h, hp⟩ := shuffleLoop_perm perm (i + 1) ((cur.set i cur[v]).set v cur[i])
      (by simp at hl ⊢; omega) (by simpa using fun u hu => hv u (List.mem_cons_of_mem _ hu))
    refine ⟨cur', ?_, hp.trans (perm_swap hi hv')⟩
    rw [shuffleLoop, goSwap_eq hi hv', Option.bind_eq_bind, Option.some_bind, h]

/-- **`Shuffle` permutes the slice** for every permutation `grand.Perm` may draw. -/
theorem IntArray.shuffle_perm (a : IntArray) (perm : List Nat)
    (hperm : perm.Perm (List.range a.array.length)) :
    ∃ array, a.shuffle perm = some { a with array } ∧ array.Perm a.array := by
  obtain ⟨cur, h, hp⟩ := shuffleLoop_perm perm 0 a.array (by simp [hperm.length_eq])
    fun v hv => List.mem_range.1 (hperm.mem_iff.1 hv)
  exact ⟨cur, by simp [IntArray.shuffle, h], hp⟩

theorem IntArray.shuffle_perm_cycle :
    [1, 2, 0].Perm (List.range (newIntArrayFrom [10, 20, 30] false).array.length) ∧
      ∃ array, (newIntArrayFrom [10, 20, 30] false).shuffle [1, 2, 0] =
          some { newIntArrayFrom [10, 20, 30] false with array } ∧
        array.Perm (newIntArrayFrom [10, 20, 30] false).array :=
  ⟨by decide, IntArray.shuffle_perm (newIntArrayFrom [10, 20, 30] false) [1, 2, 0] (by decide)⟩

section
variable {a : List Int} {p : List Nat}

/-- The loop of `Shuffle` on an involution `p`, from entry `k` on: position `j` holds `a[j]`
when `j` and `p[j]` are on the same side of `k`, and `a[p[j]]` when the swap at the smaller
of the two has run and the one at the larger not yet. -/
theorem shuffleLoop_involution (hlen : p.length = a.length)
    (hinv : ∀ j v : Nat, p[j]? = some v → p[v]? = some j) :
    ∀ r k (cur : List Int), k + r = p.length → cur.length = a.length →
      (∀ j v : Nat, p[j]? = some v → cur[j]? = if (j < k ↔ v < k) then a[j]? else a[v]?) →
      shuffleLoop (p.drop k) k cur = some a := by
  intro r
  induction r with
  | zero =>
    intro k cur hk hc hc'
    rw [List.drop_of_length_le (by omega), shuffleLoop]
    refine congrArg some (List.ext_getElem? fun j => ?_)
    by_cases hj : j < p.length
    · obtain ⟨v, hv⟩ := Option.isSome_iff_exists.1 (by simp [hj] : p[j]?.isSome)
      have hvk : v < k := by have := (List.getElem?_eq_some_iff.1 (hinv j v hv)).1; omega
      rw [hc' j v hv, if_pos (by omega)]
    · rw [List.getElem?_eq_none (by omega), List.getElem?_eq_none (by omega)]
  | succ r ih =>
    intro k cur hk hc hc'
    have hkp : k < p.length := by omega
    have hw := hinv k p[k] (List.getElem?_eq_getElem hkp)
    have hwl : p[k] < p.length := (List.getElem?_eq_some_iff.1 hw).1
    have hi : k < cur.length := by omega
    have hj : p[k] < cur.length := by omega
    rw [List.drop_eq_getElem_cons hkp, shuffleLoop, goSwap_eq hi hj, Option.bind_eq_bind,
      Option.some_bind]
    refine ih (k + 1) _ (by omega) (by simpa using hc) fun j v hv => ?_
    rw [getElem?_swap hi hj]
    by_cases hjw : j = p[k]
    · -- `j` receives `cur[k]`; its partner is `k`
      have hvk : v = k := by rw [hjw, hw] at hv; exact (Option.some.inj hv).symm
      rw [if_pos hjw, hc' k p[k] (List.getElem?_eq_getElem hkp), hjw, hvk]
      split_ifs <;> first | rfl | omega | rw [show p[k] = k by omega]
    rw [if_neg hjw]
    by_cases hjk : j = k
    · -- `k` receives `cur[p[k]]`
      have hvw : v = p[k] := by
        rw [hjk, List.getElem?_eq_getElem hkp] at hv; exact (Option.some.inj hv).symm
      rw [if_pos hjk, hc' _ k hw, hjk, hvw]
      split_ifs <;> first | rfl | omega
    · -- an untouched position, whose partner is not `k` either
      have hvk : v ≠ k := by
        rintro rfl
        have := hinv j v hv
        rw [List.getElem?_eq_getElem hkp] at this
        exact hjw (Option.some.inj this).symm
      rw [if_neg hjk, hc' j v hv]
      split_ifs <;> first | rfl | omega

end

/-- **`Shuffle` leaves the slice unchanged whenever `grand.Perm` draws an involution**, a
permutation with `p[p[i]] = i`: each pair `{i, p[i]}` is swapped once at `i` and back at
`p[i]`. -/
theorem IntArray.shuffle_involution (a : IntArray) (perm : List Nat)
    (hlen : perm.length = a.array.length)
    (hinv : ∀ j (hj : j < perm.length), perm[perm[j]]? = some j) : a.shuffle perm = some a := by
  have h := shuffleLoop_involution hlen (fun j v hv => by
      obtain ⟨hj, rfl⟩ := List.getElem?_eq_some_iff.1 hv
      exact hinv j hj)
    perm.length 0 a.array (by omega) rfl fun j v _ => by simp
  simp only [List.drop_zero] at h
  simp [IntArray.shuffle, h]

theorem IntArray.shuffle_involution_ends :
    [2, 1, 0].length = (newIntArrayFrom [10, 20, 30] false).array.length ∧
      (∀ j (hj : j < [2, 1, 0].length), [2, 1, 0][[2, 1, 0][j]]? = some j) ∧
      (newIntArrayFrom [10, 20, 30] false).shuffle [2, 1, 0] =
        some (newIntArrayFrom [10, 20, 30] false) :=
  ⟨by decide, by decide,
    IntArray.shuffle_involution (newIntArrayFrom [10, 20, 30] false) [2, 1, 0] (by decide) (by decide)⟩

end Garray
