import Mathlib.Data.List.Sort
import Mathlib.Tactic.Ring
/-!
# The Go runtime under `garray`: `int`, slices, `make` and `copy`

Both array types of `garray` (`garray_normal_int.go`, `garray_sorted_string.go`) are written
against Go slices and the 64-bit `int`. The model gives them a value semantics:

* a slice is the list of its elements. Every slice expression of the modelled methods has a
  high bound of at most `len`, so capacity never shows in what a method returns.
* a method's slice arguments are read as fixed lists: `Add(values...)` and `Replace(array)`
  read their argument element by element while they write the receiver's backing array, and
  the two differ when the argument is a view of that array (`Chunk`, `Range` and `SubSlice`
  in unsafe mode return such views). `Backing` models that storage and shows where the value
  model holds and where it does not.
* indexing `a[i]` and slicing `a[lo:hi]` return `none` exactly where Go panics (`index out of
  range`, `slice bounds out of range`). `make([]T, n)` panics when `n < 0` and when `n`
  elements take more than `maxAlloc` bytes (`makeslice: len out of range`): `goMakeSlice`
  checks both and stands where the caller picks `n` (`Pad`, a safe-mode `SubSlice`; the
  `NewSize` constructors check their capacity the same way). `goMake` checks the sign only
  and stands where `n` is at most the length of a slice that exists, whose bytes were
  allocated and so fit. Below the limit an allocation the machine cannot hold stops the
  program, which a model of values does not see.
* a caller's `int` is a `GoInt`, a 64-bit two's-complement value. Arithmetic wraps (`wrap`)
  where a method can overflow; the other operations of those methods add a non-negative
  length to a negative `int` (or the converse) and stay in range.
-/
namespace Garray

/-! ## `int` -/

/-- Two's-complement wrap-around of 64-bit `int` arithmetic. -/
def wrap (x : Int) : Int :=
  (x + 9223372036854775808) % 18446744073709551616 - 9223372036854775808

theorem wrap_ge (x : Int) : -9223372036854775808 ≤ wrap x := by unfold wrap; omega

theorem wrap_lt (x : Int) : wrap x < 9223372036854775808 := by unfold wrap; omega

theorem wrap_of_inRange {x : Int} (h1 : -9223372036854775808 ≤ x) (h2 : x < 9223372036854775808) :
    wrap x = x := by
  unfold wrap; omega

/-- An `int` sum may wrap at any point: the result is the same. -/
theorem wrap_add_wrap (x y : Int) : wrap (wrap x + y) = wrap (x + y) := by unfold wrap; omega

/-- An `int` on a 64-bit platform. -/
structure GoInt where
  val : Int
  ge : -9223372036854775808 ≤ val
  lt : val < 9223372036854775808
deriving DecidableEq

namespace GoInt

/-- The `int` a wrapped computation lands on. -/
def ofInt (x : Int) : GoInt := ⟨wrap x, wrap_ge x, wrap_lt x⟩

/-- `math.MaxInt64`. -/
def maxInt : GoInt := ⟨9223372036854775807, by decide, by decide⟩

/-- `math.MinInt64`. -/
def minInt : GoInt := ⟨-9223372036854775808, by decide, by decide⟩

instance : OfNat GoInt n := ⟨ofInt n⟩

@[simp] theorem val_ofInt (x : Int) : (ofInt x).val = wrap x := rfl

end GoInt

/-! ## Slices -/

section
variable {α : Type}

/-- `a[i]`: panics unless `0 <= i < len(a)`. -/
def goIndex (a : List α) (i : Int) : Option α :=
  if 0 ≤ i then a[i.toNat]? else none

/-- `a[lo:hi]`: panics unless `0 <= lo <= hi <= len(a)`. -/
def goSlice (a : List α) (lo hi : Int) : Option (List α) :=
  if 0 ≤ lo ∧ lo ≤ hi ∧ hi ≤ a.length then some ((a.take hi.toNat).drop lo.toNat) else none

/-- `a[lo:]`. -/
def goSliceFrom (a : List α) (lo : Int) : Option (List α) := goSlice a lo a.length

/-- `make([]T, n)`: `n` zero values; panics when `n < 0`. -/
def goMake [Inhabited α] (n : Int) : Option (List α) :=
  if 0 ≤ n then some (List.replicate n.toNat default) else none

/-- `maxAlloc` of a 64-bit platform, `2^48`: `makeslice` panics for a slice of more bytes. -/
def maxAlloc : Int := 281474976710656

/-- `make([]T, n)` for elements of `elemSize` bytes (`8` for `int`, `16` for `string`): also
panics when the slice would take more than `maxAlloc` bytes. -/
def goMakeSlice [Inhabited α] (elemSize : Nat) (n : Int) : Option (List α) :=
  if n * elemSize ≤ maxAlloc then goMake n else none

/-- `a[i] = x`: panics unless `0 <= i < len(a)`. -/
def goSet (a : List α) (i : Int) (x : α) : Option (List α) :=
  if 0 ≤ i ∧ i < a.length then some (a.set i.toNat x) else none

/-- `copy(dst, src)`, returning the new contents of `dst`: the first
`min(len(dst), len(src))` elements come from `src`. -/
def goCopy (dst src : List α) : List α := src.take dst.length ++ dst.drop src.length

/-- `a[i], a[j] = a[j], a[i]`: both right-hand reads first, then the two assignments in
order. -/
def goSwap (a : List α) (i j : Int) : Option (List α) := do
  let x ← goIndex a j
  let y ← goIndex a i
  let a ← goSet a i x
  goSet a j y

theorem goIndex_eq_some {a : List α} {i : Nat} (h : i < a.length) :
    goIndex a i = some a[i] := by
  simp [goIndex, h, Int.natCast_nonneg]

theorem goSet_eq_some {a : List α} {i : Nat} (h : i < a.length) (x : α) :
    goSet a i x = some (a.set i x) := by
  simp [goSet, h, Int.natCast_nonneg]

theorem goSwap_eq {a : List α} {i j : Nat} (hi : i < a.length) (hj : j < a.length) :
    goSwap a i j = some ((a.set i a[j]).set j a[i]) := by
  simp [goSwap, goIndex_eq_some hi, goIndex_eq_some hj, goSet_eq_some hi,
    goSet_eq_some (show j < (a.set i a[j]).length by simpa using hj)]

/-- The elements after `a[i], a[j] = a[j], a[i]`. -/
theorem getElem?_swap {a : List α} {i j : Nat} (hi : i < a.length) (hj : j < a.length) (k : Nat) :
    ((a.set i a[j]).set j a[i])[k]? = if k = j then a[i]? else if k = i then a[j]? else a[k]? := by
  by_cases hkj : k = j
  · subst hkj
    rw [if_pos rfl, List.getElem?_set_self (by simpa using hj), List.getElem?_eq_getElem hi]
  rw [if_neg hkj, List.getElem?_set_ne (Ne.symm hkj)]
  by_cases hki : k = i
  · subst hki; rw [if_pos rfl, List.getElem?_set_self hi, List.getElem?_eq_getElem hj]
  · rw [if_neg hki, List.getElem?_set_ne (Ne.symm hki)]

/-- A swap permutes the slice: each value's count drops and rises by one at most once. -/
theorem perm_swap [DecidableEq α] {a : List α} {i j : Nat} (hi : i < a.length) (hj : j < a.length) :
    ((a.set i a[j]).set j a[i]).Perm a := by
  refine List.perm_iff_count.2 fun b => ?_
  have hle := List.boole_getElem_le_count b a i hi
  rw [List.count_set _ _ _ _ (by simpa using hj), List.count_set _ _ _ _ hi]
  by_cases h : i = j
  · subst h; simp only [List.getElem_set_self]; omega
  · simp only [List.getElem_set_ne h]; omega

/-- Assigning `a[i]` leaves the prefix up to `i` followed by the new value. -/
theorem take_succ_set {a : List α} {i : Nat} (h : i < a.length) (x : α) :
    (a.set i x).take (i + 1) = a.take i ++ [x] := by
  rw [List.set_eq_take_append_cons_drop, if_pos h, List.take_append_eq_append_take]
  simp [List.take_take, show i - min i a.length = 0 by omega, show min i a.length = i by omega]

theorem goIndex_isSome_iff {a : List α} {i : Int} :
    (goIndex a i).isSome ↔ 0 ≤ i ∧ i < a.length := by
  unfold goIndex
  split
  · rw [Option.isSome_iff_ne_none, Ne, List.getElem?_eq_none_iff]; omega
  · simp_all

theorem goSlice_eq {a : List α} {lo hi : Nat} (h1 : lo ≤ hi) (h2 : hi ≤ a.length) :
    goSlice a lo hi = some ((a.take hi).drop lo) := by
  simp [goSlice, h1, h2, Int.natCast_nonneg]

theorem goSlice_eq_none {a : List α} {lo hi : Int} (h : ¬ (0 ≤ lo ∧ lo ≤ hi ∧ hi ≤ a.length)) :
    goSlice a lo hi = none := by
  simp only [goSlice, h, if_false]

theorem goSliceFrom_eq {a : List α} {lo : Nat} (h : lo ≤ a.length) :
    goSliceFrom a lo = some (a.drop lo) := by
  simp [goSliceFrom, goSlice_eq h le_rfl]

theorem goSlice_zero {a : List α} {hi : Nat} (h : hi ≤ a.length) :
    goSlice a 0 hi = some (a.take hi) := by
  simpa using goSlice_eq (Nat.zero_le hi) h

theorem goMake_eq [Inhabited α] (n : Nat) :
    (goMake n : Option (List α)) = some (List.replicate n default) := by
  simp [goMake, Int.natCast_nonneg]

theorem goMakeSlice_eq [Inhabited α] {elemSize n : Nat} (h : n * elemSize ≤ maxAlloc) :
    (goMakeSlice elemSize n : Option (List α)) = some (List.replicate n default) := by
  rw [goMakeSlice, if_pos (by exact_mod_cast h), goMake_eq]

@[simp] theorem length_goCopy (dst src : List α) : (goCopy dst src).length = dst.length := by
  simp only [goCopy, List.length_append, List.length_take, List.length_drop]
  omega

/-- Copying at least as much as the destination holds fills it from the source. -/
theorem goCopy_of_le {dst src : List α} (h : dst.length ≤ src.length) :
    goCopy dst src = src.take dst.length := by
  simp [goCopy, List.drop_eq_nil_of_le h]

/-- Deleting `a[j]` as `append(a[:j], a[j+1:]...)` shortens the slice by one. -/
theorem length_delete {a : List α} {j : Nat} (hj : j < a.length) :
    (a.take j ++ a.drop (j + 1)).length = a.length - 1 := by
  simp only [List.length_append, List.length_take, List.length_drop]; omega

/-- Deleting `a[j]` as `append(a[:j], a[j+1:]...)` loses no value when an earlier element
equals it. -/
theorem mem_delete_of_getElem_eq {a : List α} {i j : Nat} (hij : i < j) (hj : j < a.length)
    (he : a[i] = a[j]) (x : α) : x ∈ a.take j ++ a.drop (j + 1) ↔ x ∈ a := by
  rw [← List.eraseIdx_eq_take_drop_succ]
  refine ⟨fun hx => (List.eraseIdx_sublist _ _).subset hx, fun hx => ?_⟩
  rw [List.eraseIdx_eq_take_drop_succ]
  rw [← List.take_append_drop j a, List.drop_eq_getElem_cons hj] at hx
  rcases List.mem_append.1 hx with hx | hx
  · exact List.mem_append_left _ hx
  · rcases List.mem_cons.1 hx with rfl | hx
    · exact List.mem_append_left _
        (he ▸ List.getElem_take' a (by omega) hij ▸ List.getElem_mem (by rw [List.length_take]; omega))
    · exact List.mem_append_right _ hx

end

/-! ## Maps -/

section
variable {κ : Type} [DecidableEq κ]

/-- `m[k]` of a Go `map[K]int`, the map given by its entries: `0` for a missing key. Go
leaves the order of the entries unspecified; only lookups and the set of keys show. -/
def mapGet (m : List (κ × Int)) (k : κ) : Int := (m.lookup k).getD 0

/-- `m[k] = v`: overwrites the entry of `k`, or adds one at the end. -/
def mapSet : List (κ × Int) → κ → Int → List (κ × Int)
  | [], k, v => [(k, v)]
  | (k', v') :: m, k, v => if k' = k then (k, v) :: m else (k', v') :: mapSet m k v

theorem lookup_cons_ite (k k' : κ) (v : Int) (m : List (κ × Int)) :
    ((k', v) :: m).lookup k = if k = k' then some v else m.lookup k := by
  rw [List.lookup_cons]; split <;> simp_all

theorem lookup_mapSet (m : List (κ × Int)) (k k' : κ) (v : Int) :
    (mapSet m k v).lookup k' = if k' = k then some v else m.lookup k' := by
  induction m with
  | nil => simp [mapSet, lookup_cons_ite]
  | cons e m ih =>
    obtain ⟨k₀, v₀⟩ := e
    by_cases h₀ : k₀ = k
    · subst h₀; by_cases h : k' = k₀ <;> simp [mapSet, lookup_cons_ite, h]
    · by_cases h : k' = k₀ <;> simp [mapSet, lookup_cons_ite, h, h₀, ih]

theorem mapGet_mapSet (m : List (κ × Int)) (k k' : κ) (v : Int) :
    mapGet (mapSet m k v) k' = if k' = k then v else mapGet m k' := by
  simp only [mapGet, lookup_mapSet]; split_ifs <;> rfl

/-- The keys after `m[k] = v`: those of `m`, with `k` added at the end if it was missing. -/
theorem keys_mapSet (m : List (κ × Int)) (k : κ) (v : Int) :
    (mapSet m k v).map Prod.fst =
      if k ∈ m.map Prod.fst then m.map Prod.fst else m.map Prod.fst ++ [k] := by
  induction m with
  | nil => simp [mapSet]
  | cons e m ih =>
    obtain ⟨k₀, v₀⟩ := e
    by_cases h₀ : k₀ = k
    · simp [mapSet, h₀]
    · simp only [mapSet, if_neg h₀, List.map_cons, ih, List.mem_cons, Ne.symm h₀, false_or]
      split_ifs <;> rfl

end

end Garray
