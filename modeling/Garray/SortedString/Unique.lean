import Garray.SortedString.BinSearch
/-!
# `SortedStringArray.Unique` (garray_sorted_string.go:384-400)

The loop walks `i` from `0`, stops when `i == len(a.array)-1`, and either deletes
`a.array[i+1]` when it compares equal to `a.array[i]` or steps `i`. Every round shrinks
`len - 1 - i`, so fuel `len + 1` is enough (`uniqueLoop_spec` proves a `some`).

On an empty array the exit test compares `0` with `-1`, misses, and the first comparison
reads `a.array[0]`: the loop panics (`uniqueArray_nil`). On every other sorted array it
returns the strictly increasing list of the same elements (`uniqueArray_spec`).
-/
namespace Garray

/-- The loop of `Unique` on the backing slice, with fuel. -/
def uniqueLoop : Nat → Int → List GoString → Option (List GoString)
  | 0, _, _ => none
  | fuel + 1, i, array =>
    if i = array.length - 1 then some array
    else do
      let x ← goIndex array i
      let y ← goIndex array (i + 1)
      if stringsCompare x y = 0 then do
        let front ← goSlice array 0 (i + 1)
        let rear ← goSliceFrom array (i + 1 + 1)
        uniqueLoop fuel i (front ++ rear)
      else uniqueLoop fuel (i + 1) array

/-- `Unique()` on the backing slice. -/
def uniqueArray (array : List GoString) : Option (List GoString) :=
  uniqueLoop (array.length + 1) 0 array

/-- The empty array makes `Unique` read `a.array[0]`. -/
theorem uniqueLoop_nil (fuel : Nat) : uniqueLoop fuel 0 [] = none := by
  cases fuel <;> rfl

theorem uniqueArray_nil : uniqueArray [] = none := uniqueLoop_nil 1

/-! ## The loop invariant -/

/-- The slice is sorted, strictly so up to `i`, and holds the elements of `a`. -/
def UInv (a array : List GoString) (i : Nat) : Prop :=
  i < array.length ∧ array.Sorted (· ≤ ·) ∧ (array.take (i + 1)).Sorted (· < ·) ∧
    ∀ x, x ∈ array ↔ x ∈ a

section
variable {a array : List GoString} {i : Nat}

theorem sorted_append_singleton {l : List GoString} {y : GoString} :
    (l ++ [y]).Sorted (· < ·) ↔ l.Sorted (· < ·) ∧ ∀ x ∈ l, x < y := by
  simp [List.Sorted, List.pairwise_append]

/-- Equal neighbours: deleting `array[i+1]` keeps the invariant. -/
theorem uInv_delete (h : UInv a array i) (hi : i + 1 < array.length)
    (he : array[i] = array[i + 1]) :
    UInv a (array.take (i + 1) ++ array.drop (i + 1 + 1)) i := by
  obtain ⟨hl, hs, hst, hm⟩ := h
  have e : array.take (i + 1) ++ array.drop (i + 1 + 1) = array.eraseIdx (i + 1) :=
    (List.eraseIdx_eq_take_drop_succ _ _).symm
  have hlen := length_delete hi
  have htake : (array.take (i + 1) ++ array.drop (i + 1 + 1)).take (i + 1) = array.take (i + 1) :=
    List.take_left' (by rw [List.length_take]; omega)
  refine ⟨by rw [hlen]; omega, e ▸ hs.sublist (List.eraseIdx_sublist _ _), by rw [htake]; exact hst,
    fun x => ?_⟩
  rw [← hm x, mem_delete_of_getElem_eq (Nat.lt_succ_self i) hi he]

/-- Different neighbours: stepping `i` keeps the invariant. -/
theorem uInv_step (h : UInv a array i) (hi : i + 1 < array.length)
    (hne : array[i] ≠ array[i + 1]) : UInv a array (i + 1) := by
  obtain ⟨hl, hs, hst, hm⟩ := h
  have hle : array[i] ≤ array[i + 1] := List.pairwise_iff_getElem.1 hs i (i + 1) hl hi (by omega)
  refine ⟨hi, hs, ?_, hm⟩
  rw [List.take_succ, List.getElem?_eq_getElem hi]
  exact sorted_append_singleton.2 ⟨hst, fun x hx =>
    lt_of_le_of_lt (le_of_mem_take_succ hs hl hx) (lt_of_le_of_ne hle hne)⟩

/-- **The loop ends without a fault** from any state of the invariant, with the strictly
increasing list of the same elements. -/
theorem uniqueLoop_spec : ∀ (fuel i : Nat) (array : List GoString), UInv a array i →
    array.length - i ≤ fuel →
    ∃ r, uniqueLoop fuel i array = some r ∧ r.Sorted (· < ·) ∧ ∀ x, x ∈ r ↔ x ∈ a
  | 0, _, _, h, hf => absurd hf (by have := h.1; omega)
  | fuel + 1, i, array, h, hf => by
    simp only [uniqueLoop]
    split
    · have e : array.take (i + 1) = array := List.take_of_length_le (by omega)
      exact ⟨array, rfl, e ▸ h.2.2.1, h.2.2.2⟩
    · have hi : i + 1 < array.length := by have := h.1; omega
      have e1 : (i : Int) + 1 = ((i + 1 : Nat) : Int) := by push_cast; rfl
      have e2 : ((i + 1 : Nat) : Int) + 1 = ((i + 1 + 1 : Nat) : Int) := by push_cast; rfl
      simp only [goIndex_eq_some h.1, e1, goIndex_eq_some hi, Option.bind_eq_bind,
        Option.some_bind]
      split
      · rename_i hc
        rw [goSlice_zero hi.le, e2, goSliceFrom_eq (by omega)]
        simp only [Option.some_bind]
        exact uniqueLoop_spec fuel i _ (uInv_delete h hi (GoString.compare_eq_zero.1 hc))
          (by rw [length_delete hi]; omega)
      · rename_i hc
        exact uniqueLoop_spec fuel (i + 1) array
          (uInv_step h hi fun he => hc (GoString.compare_eq_zero.2 he)) (by omega)

end

/-- `Unique` on a sorted non-empty slice leaves the strictly increasing list of its
elements. -/
theorem uniqueArray_spec {a : List GoString} (hs : a.Sorted (· ≤ ·)) (h : a ≠ []) :
    ∃ r, uniqueArray a = some r ∧ r.Sorted (· < ·) ∧ ∀ x, x ∈ r ↔ x ∈ a := by
  refine uniqueLoop_spec _ 0 a ⟨List.length_pos.2 h, hs, ?_, fun _ => Iff.rfl⟩ (by omega)
  cases a <;> simp

end Garray
