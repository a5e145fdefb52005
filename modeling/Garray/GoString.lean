import Mathlib
import Garray.Go
/-!
# Go strings and `strings.Compare`

`SortedStringArray` orders its elements with `strings.Compare`
(`garray_sorted_string.go:45-47`): the first differing byte decides, else the shorter string
is smaller, and the result is `-1`, `0` or `+1`. The order `≤` on `GoString` is defined from
that comparator (`a ≤ b` iff `strings.Compare(a, b) <= 0`), so "sorted under the comparator"
is `List.Sorted (· ≤ ·)` and Mathlib's sorted-list library applies.

`sort.Strings` is taken to return the sorted permutation of its argument; any sorting
algorithm does, since two strings that compare equal are equal. It is `insertionSort`.
-/
namespace Garray

/-- A Go `string`: an immutable sequence of bytes. -/
structure GoString where
  bytes : List UInt8
deriving DecidableEq, Repr, Inhabited

/-- The byte loop of `strings.Compare`. -/
def cmpBytes : List UInt8 → List UInt8 → Int
  | [], [] => 0
  | [], _ :: _ => -1
  | _ :: _, [] => 1
  | x :: xs, y :: ys => if x < y then -1 else if y < x then 1 else cmpBytes xs ys

/-- `strings.Compare(a, b)`. -/
def stringsCompare (a b : GoString) : Int := cmpBytes a.bytes b.bytes

/-! ## `cmpBytes` is a three-way comparison of a linear order -/

theorem byte_eq_of_not_lt {x y : UInt8} (h1 : ¬ x < y) (h2 : ¬ y < x) : x = y :=
  UInt8.eq_of_toBitVec_eq (BitVec.le_antisymm (UInt8.not_lt.1 h2) (UInt8.not_lt.1 h1))

theorem cmpBytes_swap : ∀ xs ys : List UInt8, cmpBytes ys xs = -cmpBytes xs ys
  | [], [] => rfl
  | [], _ :: _ => rfl
  | _ :: _, [] => rfl
  | x :: xs, y :: ys => by
    simp only [cmpBytes]
    by_cases h1 : x < y
    · simp [h1, UInt8.lt_asymm h1]
    · by_cases h2 : y < x
      · simp [h1, h2]
      · simp [h1, h2, cmpBytes_swap xs ys]

theorem cmpBytes_eq_zero : ∀ {xs ys : List UInt8}, cmpBytes xs ys = 0 ↔ xs = ys
  | [], [] => by simp [cmpBytes]
  | [], _ :: _ => by simp [cmpBytes]
  | _ :: _, [] => by simp [cmpBytes]
  | x :: xs, y :: ys => by
    simp only [cmpBytes, List.cons.injEq]
    by_cases h1 : x < y
    · simp [h1, UInt8.ne_of_lt h1]
    · by_cases h2 : y < x
      · simp [h1, h2, (UInt8.ne_of_lt h2).symm]
      · simp [h1, h2, byte_eq_of_not_lt h1 h2, cmpBytes_eq_zero]

theorem cmpBytes_cases : ∀ xs ys : List UInt8,
    cmpBytes xs ys = -1 ∨ cmpBytes xs ys = 0 ∨ cmpBytes xs ys = 1
  | [], [] => by simp [cmpBytes]
  | [], _ :: _ => by simp [cmpBytes]
  | _ :: _, [] => by simp [cmpBytes]
  | x :: xs, y :: ys => by
    simp only [cmpBytes]
    split
    · simp
    · split
      · simp
      · exact cmpBytes_cases xs ys

theorem cmpBytes_cons_neg {x y : UInt8} {xs ys : List UInt8} :
    cmpBytes (x :: xs) (y :: ys) < 0 ↔ x < y ∨ x = y ∧ cmpBytes xs ys < 0 := by
  simp only [cmpBytes]
  by_cases h1 : x < y
  · simp [h1]
  · by_cases h2 : y < x
    · simp [h1, h2, (UInt8.ne_of_lt h2).symm]
    · simp [h1, h2, byte_eq_of_not_lt h1 h2]

theorem cmpBytes_trans : ∀ {xs ys zs : List UInt8},
    cmpBytes xs ys < 0 → cmpBytes ys zs < 0 → cmpBytes xs zs < 0
  | [], _, _ :: _, _, _ => by simp [cmpBytes]
  | [], ys, [], _, h => by cases ys <;> simp [cmpBytes] at h
  | _ :: _, [], _, h, _ => by simp [cmpBytes] at h
  | _ :: _, _ :: _, [], _, h => by simp [cmpBytes] at h
  | x :: xs, y :: ys, z :: zs, h1, h2 => by
    rw [cmpBytes_cons_neg] at *
    rcases h1 with h1 | ⟨rfl, h1⟩ <;> rcases h2 with h2 | ⟨rfl, h2⟩
    · exact .inl (UInt8.lt_trans h1 h2)
    · exact .inl h1
    · exact .inl h2
    · exact .inr ⟨rfl, cmpBytes_trans h1 h2⟩

/-! ## The order of `strings.Compare` -/

namespace GoString

theorem ext' {a b : GoString} (h : a.bytes = b.bytes) : a = b := by
  cases a; cases b; cases h; rfl

theorem compare_swap (a b : GoString) : stringsCompare b a = -stringsCompare a b :=
  cmpBytes_swap a.bytes b.bytes

theorem compare_eq_zero {a b : GoString} : stringsCompare a b = 0 ↔ a = b :=
  cmpBytes_eq_zero.trans ⟨ext', congrArg bytes⟩

theorem compare_cases (a b : GoString) :
    stringsCompare a b = -1 ∨ stringsCompare a b = 0 ∨ stringsCompare a b = 1 :=
  cmpBytes_cases a.bytes b.bytes

theorem compare_le_trans {a b c : GoString} (h1 : stringsCompare a b ≤ 0)
    (h2 : stringsCompare b c ≤ 0) : stringsCompare a c ≤ 0 := by
  rcases lt_or_eq_of_le h1 with h1 | h1
  · rcases lt_or_eq_of_le h2 with h2 | h2
    · exact (cmpBytes_trans h1 h2).le
    · rw [← compare_eq_zero.1 h2]; exact h1.le
  · rwa [compare_eq_zero.1 h1]

instance : LinearOrder GoString where
  le a b := stringsCompare a b ≤ 0
  lt a b := stringsCompare a b < 0
  le_refl a := (compare_eq_zero.2 rfl).le
  le_trans _ _ _ := compare_le_trans
  lt_iff_le_not_le a b := by
    change stringsCompare a b < 0 ↔ stringsCompare a b ≤ 0 ∧ ¬ stringsCompare b a ≤ 0
    rw [compare_swap a b]; omega
  le_antisymm a b h1 h2 := by
    change stringsCompare a b ≤ 0 at h1
    change stringsCompare b a ≤ 0 at h2
    rw [compare_swap] at h2
    exact compare_eq_zero.1 (by omega)
  le_total a b := by
    change stringsCompare a b ≤ 0 ∨ stringsCompare b a ≤ 0
    rw [compare_swap a b]; omega
  decidableLE a b := inferInstanceAs (Decidable (stringsCompare a b ≤ 0))
  decidableLT a b := inferInstanceAs (Decidable (stringsCompare a b < 0))

theorem le_iff_compare {a b : GoString} : a ≤ b ↔ stringsCompare a b ≤ 0 := Iff.rfl

theorem lt_iff_compare {a b : GoString} : a < b ↔ stringsCompare a b < 0 := Iff.rfl

theorem compare_pos {a b : GoString} : 0 < stringsCompare a b ↔ b < a := by
  rw [lt_iff_compare, compare_swap a b]; omega

end GoString

/-- `sort.Strings`: the sorted permutation. -/
def sortStrings (array : List GoString) : List GoString := array.insertionSort (· ≤ ·)

theorem sorted_sortStrings (array : List GoString) : (sortStrings array).Sorted (· ≤ ·) :=
  List.sorted_insertionSort _ _

theorem perm_sortStrings (array : List GoString) : (sortStrings array).Perm array :=
  List.perm_insertionSort _ _

theorem sortStrings_of_sorted {array : List GoString} (h : array.Sorted (· ≤ ·)) :
    sortStrings array = array :=
  List.Sorted.insertionSort_eq h

end Garray
