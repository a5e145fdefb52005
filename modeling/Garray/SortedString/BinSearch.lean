import Garray.GoString
/-!
# `SortedStringArray.binSearch` (garray_sorted_string.go:340-370)

The loop keeps `min`, `max` and the last probe `(mid, cmp)`; it returns the probe when the
comparison is `0` or when `min > max`. It is given fuel `len + 1`: the window
`max + 1 - min` shrinks at every round, so the loop ends before the fuel does
(`binSearchLoop_spec` has the fuel as a hypothesis and proves a `some`).

`Lands array value n c` is what the search answers on a sorted array: `c` is the comparison
of `value` with `array[n]`, everything before a `c < 0` answer is below `value`, everything
after a `c > 0` answer is above it. `binSearch_spec` proves it for every sorted non-empty
array and every value; `Add` and `Search` are built on it.
-/
namespace Garray

/-! ## Sorted lists -/

section
variable {a : List GoString} {n : Nat} {x : GoString}

theorem le_of_mem_take (hs : a.Sorted (· ≤ ·)) (h : n < a.length) (hx : x ∈ a.take n) :
    x ≤ a[n] := by
  rw [← List.take_append_drop n a, List.drop_eq_getElem_cons h] at hs
  exact (List.pairwise_append.1 hs).2.2 x hx _ (List.mem_cons_self _ _)

theorem ge_of_mem_drop_succ (hs : a.Sorted (· ≤ ·)) (h : n < a.length) (hx : x ∈ a.drop (n + 1)) :
    a[n] ≤ x := by
  rw [← List.take_append_drop n a, List.drop_eq_getElem_cons h] at hs
  exact (List.sorted_cons.1 (List.pairwise_append.1 hs).2.1).1 x hx

theorem le_of_mem_take_succ (hs : a.Sorted (· ≤ ·)) (h : n < a.length) (hx : x ∈ a.take (n + 1)) :
    x ≤ a[n] := by
  rw [List.take_succ, List.getElem?_eq_getElem h] at hx
  rcases List.mem_append.1 hx with hx | hx
  · exact le_of_mem_take hs h hx
  · simp_all

theorem ge_of_mem_drop (hs : a.Sorted (· ≤ ·)) (h : n < a.length) (hx : x ∈ a.drop n) :
    a[n] ≤ x := by
  rw [List.drop_eq_getElem_cons h] at hx
  rcases List.mem_cons.1 hx with rfl | hx
  · exact le_rfl
  · exact ge_of_mem_drop_succ hs h hx

end

/-! ## The model -/

/-- The `for min <= max` loop of `binSearch`, with fuel. -/
def binSearchLoop (array : List GoString) (value : GoString) :
    Nat → Int → Int → Int → Int → Option (Int × Int)
  | 0, _, _, _, _ => none
  | fuel + 1, min, max, mid, cmp =>
    if min ≤ max then do
      let mid := (min + max) / 2
      let cmp := stringsCompare value (← goIndex array mid)
      if cmp < 0 then binSearchLoop array value fuel min (mid - 1) mid cmp
      else if cmp > 0 then binSearchLoop array value fuel (mid + 1) max mid cmp
      else return (mid, cmp)
    else return (mid, cmp)

/-- `binSearch(value, lock)`: the last compared index and the comparison result; `(-1, -2)`
on an empty array. -/
def binSearch (array : List GoString) (value : GoString) : Option (Int × Int) :=
  if array.length = 0 then some (-1, -2)
  else binSearchLoop array value (array.length + 1) 0 (array.length - 1) 0 (-2)

/-! ## The loop invariant -/

section
variable (array : List GoString) (value : GoString)

/-- What the search has ruled out: everything before `min` is below `value`, everything after
`max` is above it. -/
def Inv (min max : Int) : Prop :=
  0 ≤ min ∧ min ≤ max + 1 ∧ max < array.length ∧
    (∀ x ∈ array.take min.toNat, x < value) ∧ (∀ x ∈ array.drop (max + 1).toNat, value < x)

/-- The last probe, once the window is empty: it was at `min` with `cmp < 0`, or at `max`
with `cmp > 0`. -/
def Probe (min max mid cmp : Int) : Prop :=
  ∃ n, ∃ h : n < array.length, mid = n ∧ cmp = stringsCompare value array[n] ∧
    (cmp < 0 ∧ min = mid ∨ 0 < cmp ∧ max = mid)

/-- The answer of `binSearch` on a sorted array. -/
def Lands (n : Nat) (c : Int) : Prop :=
  ∃ h : n < array.length, c = stringsCompare value array[n] ∧
    (c < 0 → ∀ x ∈ array.take n, x < value) ∧ (0 < c → ∀ x ∈ array.drop (n + 1), value < x)

end

section
variable {array : List GoString} {value : GoString}

theorem inv_init (h : 0 < array.length) : Inv array value 0 (array.length - 1) := by
  refine ⟨le_rfl, by omega, by omega, by simp, ?_⟩
  simp [show ((array.length : Int) - 1 + 1).toNat = array.length by omega]

theorem lands_of_probe {min max mid cmp : Int} (hi : Inv array value min max) (hlt : max < min)
    (hp : Probe array value min max mid cmp) : ∃ n : Nat, mid = n ∧ Lands array value n cmp := by
  obtain ⟨-, hle, -, hl, hr⟩ := hi
  obtain ⟨n, hn, rfl, rfl, hc⟩ := hp
  refine ⟨n, rfl, hn, rfl, fun h x hx => ?_, fun h x hx => ?_⟩
  · rcases hc with ⟨-, rfl⟩ | ⟨h', -⟩
    · exact hl x (by simpa using hx)
    · omega
  · rcases hc with ⟨h', -⟩ | ⟨-, rfl⟩
    · omega
    · exact hr x (by simpa [show ((n : Int) + 1).toNat = n + 1 by omega] using hx)

variable (hs : array.Sorted (· ≤ ·))
include hs

/-- A probe at `m` with `value < array[m]` rules out everything from `m` on. -/
theorem inv_left {min max : Int} {m : Nat} (hm : m < array.length) (hi : Inv array value min max)
    (hmin : min ≤ m) (hc : stringsCompare value array[m] < 0) : Inv array value min (m - 1) := by
  obtain ⟨h0, -, -, hl, -⟩ := hi
  refine ⟨h0, by omega, by omega, hl, fun x hx => ?_⟩
  rw [show ((m : Int) - 1 + 1).toNat = m by omega] at hx
  exact lt_of_lt_of_le hc (ge_of_mem_drop hs hm hx)

/-- A probe at `m` with `array[m] < value` rules out everything up to `m`. -/
theorem inv_right {min max : Int} {m : Nat} (hm : m < array.length) (hi : Inv array value min max)
    (hmax : m ≤ max) (hc : 0 < stringsCompare value array[m]) : Inv array value (m + 1) max := by
  obtain ⟨-, -, hlt, -, hr⟩ := hi
  refine ⟨by omega, by omega, hlt, fun x hx => ?_, hr⟩
  rw [show ((m : Int) + 1).toNat = m + 1 by omega] at hx
  exact lt_of_le_of_lt (le_of_mem_take_succ hs hm hx) (GoString.compare_pos.1 hc)

/-- **The search loop ends and lands.** From any state of the invariant with enough fuel,
the loop returns a probe satisfying `Lands`. -/
theorem binSearchLoop_spec : ∀ (fuel : Nat) (min max mid cmp : Int), Inv array value min max →
    max + 1 - min < fuel → (max < min → Probe array value min max mid cmp) →
    ∃ n : Nat, ∃ c, binSearchLoop array value fuel min max mid cmp = some ((n : Int), c) ∧
      Lands array value n c
  | 0, _, _, _, _, hi, hf, _ => absurd hf (by have := hi.2.1; omega)
  | fuel + 1, min, max, mid, cmp, hi, hf, hp => by
    simp only [binSearchLoop]
    split
    · rename_i hle
      obtain ⟨m, hm⟩ : ∃ m : Nat, (min + max) / 2 = m :=
        Int.eq_ofNat_of_zero_le (by have := hi.1; omega)
      have hml : m < array.length := by have := hi.2.2.1; omega
      simp only [hm, goIndex_eq_some hml, Option.bind_eq_bind, Option.some_bind]
      split
      · rename_i hc
        exact binSearchLoop_spec fuel _ _ _ _ (inv_left hs hml hi (by omega) hc) (by omega)
          fun _ => ⟨m, hml, rfl, rfl, .inl ⟨hc, by omega⟩⟩
      · split
        · rename_i _ hc
          exact binSearchLoop_spec fuel _ _ _ _ (inv_right hs hml hi (by omega) hc) (by omega)
            fun _ => ⟨m, hml, rfl, rfl, .inr ⟨hc, by omega⟩⟩
        · exact ⟨m, _, rfl, hml, rfl, fun h => by omega, fun h => by omega⟩
    · obtain ⟨n, rfl, hl⟩ := lands_of_probe hi (by omega) (hp (by omega))
      exact ⟨n, cmp, rfl, hl⟩

/-- `binSearch` on a sorted non-empty array returns a `Lands` answer, for every value. -/
theorem binSearch_spec (h : 0 < array.length) :
    ∃ n : Nat, ∃ c, binSearch array value = some ((n : Int), c) ∧ Lands array value n c := by
  rw [binSearch, if_neg (by omega)]
  exact binSearchLoop_spec hs _ _ _ _ _ (inv_init h) (by omega) fun _ => by omega

/-- A non-zero answer means the value is absent. -/
theorem Lands.not_mem {n : Nat} {c : Int} (hl : Lands array value n c) (hc : c ≠ 0) :
    value ∉ array := by
  obtain ⟨hn, rfl, hleft, hright⟩ := hl
  intro hv
  rw [← List.take_append_drop n array, List.drop_eq_getElem_cons hn, List.mem_append,
    List.mem_cons] at hv
  rcases lt_or_gt_of_ne hc with hc' | hc'
  · rcases hv with hv | rfl | hv
    · exact lt_irrefl _ (hleft hc' value hv)
    · exact hc (GoString.compare_eq_zero.2 rfl)
    · exact lt_irrefl _ (lt_of_lt_of_le (GoString.lt_iff_compare.2 hc') (ge_of_mem_drop_succ hs hn hv))
  · rcases hv with hv | rfl | hv
    · exact lt_irrefl _ (lt_of_le_of_lt (le_of_mem_take hs hn hv) (GoString.compare_pos.1 hc'))
    · exact hc (GoString.compare_eq_zero.2 rfl)
    · exact lt_irrefl _ (hright hc' value hv)

end

/-- **The search ends on a probe that brackets the value.** On every sorted non-empty array
the loop ends at an index `n` with `c = strings.Compare(value, array[n])`: `c = 0` whenever the
value occurs, a negative `c` has the element before `n` below the value, a positive one the
element after `n` above it. On the empty array the answer is `(-1, -2)`. -/
theorem binSearch_brackets {array : List GoString} (hs : array.Sorted (· ≤ ·)) (hne : array ≠ [])
    (value : GoString) :
    binSearch [] value = some (-1, -2) ∧
      ∃ n : Nat, ∃ h : n < array.length, ∃ c, binSearch array value = some ((n : Int), c) ∧
        c = stringsCompare value array[n] ∧ (value ∈ array → c = 0) ∧
        (c < 0 → ∀ _ : 0 < n, array[n - 1] < value) ∧
        (0 < c → ∀ h' : n + 1 < array.length, value < array[n + 1]) := by
  obtain ⟨n, c, hb, hn, hc, hleft, hright⟩ : ∃ n : Nat, ∃ c, binSearch array value = some ((n : Int), c) ∧
      Lands array value n c := binSearch_spec hs (List.length_pos.2 hne)
  refine ⟨rfl, n, hn, c, hb, hc, fun hv => ?_, fun hlt _ => hleft hlt _ ?_,
    fun hgt h' => hright hgt _ ?_⟩
  · by_contra h0
    exact Lands.not_mem hs ⟨hn, hc, hleft, hright⟩ h0 hv
  · exact List.getElem_take' array (by omega) (by omega : n - 1 < n) ▸ List.getElem_mem _
  · exact List.drop_eq_getElem_cons h' ▸ List.mem_cons_self _ _

theorem binSearch_brackets_ac :
    ([⟨[97]⟩, ⟨[99]⟩] : List GoString).Sorted (· ≤ ·) ∧ ([⟨[97]⟩, ⟨[99]⟩] : List GoString) ≠ [] ∧
      (binSearch [] ⟨[98]⟩ = some (-1, -2) ∧
        ∃ n : Nat, ∃ h : n < ([⟨[97]⟩, ⟨[99]⟩] : List GoString).length, ∃ c,
          binSearch [⟨[97]⟩, ⟨[99]⟩] ⟨[98]⟩ = some ((n : Int), c) ∧
          c = stringsCompare ⟨[98]⟩ ([⟨[97]⟩, ⟨[99]⟩] : List GoString)[n] ∧
          ((⟨[98]⟩ : GoString) ∈ ([⟨[97]⟩, ⟨[99]⟩] : List GoString) → c = 0) ∧
          (c < 0 → ∀ _ : 0 < n, ([⟨[97]⟩, ⟨[99]⟩] : List GoString)[n - 1] < ⟨[98]⟩) ∧
          (0 < c → ∀ h' : n + 1 < ([⟨[97]⟩, ⟨[99]⟩] : List GoString).length,
            (⟨[98]⟩ : GoString) < ([⟨[97]⟩, ⟨[99]⟩] : List GoString)[n + 1])) :=
  ⟨by decide, by decide, binSearch_brackets (by decide) (by decide) ⟨[98]⟩⟩

end Garray
