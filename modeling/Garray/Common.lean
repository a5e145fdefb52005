import Garray.Go
/-!
# The methods `IntArray` and `SortedStringArray` share

`garray_normal_int.go` and `garray_sorted_string.go` carry line-for-line copies of `Remove`,
`PopLeft`, `PopRight`, `PopRand`, `PopRands`, `PopLefts`, `PopRights`, `Range` and
`SubSlice`; only the element type differs. Each is modelled once here, over the backing slice
and the element type `α`, and each array type applies it to its own state.

| here | `garray_normal_int.go` | `garray_sorted_string.go` |
| --- | --- | --- |
| `remove`    | 163-182 | 125-144 |
| `popLeft`   | 202-208 | 147-153 |
| `popRight`  | 211-218 | 156-163 |
| `popRand`   | 221-223 | 166-168 |
| `popRands`  | 226-239 | 171-184 |
| `popLefts`  | 242-252 | 187-197 |
| `popRights` | 255-265 | 200-210 |
| `range`     | 274-295 | 219-240 |
| `subSlice`, `subSliceRead` | 310-345 | 255-290 |
| `randsLoop`, `rands` | 552-566 | 492-506 |
| `chunkLoop`, `chunk` | 497-516 | 464-483 |
| `countValues` | 603-611 | 523-531 |

`grand.Intn(n)` (outside `src/`) returns an index in `[0, n)` and panics when `n = 0`; the
model takes the drawn index as an argument, and a draw outside `[0, n)` is no run. Likewise
`grand.Perm(n)`, a permutation of `[0, n)`, is an argument of `rands`.
The variadic `end ...int` and `length ...int` are `Option Int` (only the first is read).
`subSlice` takes the byte size of an element, for the `make` of its safe-mode copy.
-/
namespace Garray

section
variable {α : Type}

/-! ## Removal -/

/-- `value := a.array[index]; a.array = append(a.array[:index], a.array[index+1:]...)`:
the splice of `Remove`'s interior branch and of the `PopRands` loop. -/
def cut (array : List α) (index : Int) : Option (α × List α) := do
  let value ← goIndex array index
  let front ← goSlice array 0 index
  let rear ← goSliceFrom array (index + 1)
  return (value, front ++ rear)

/-- `Remove(index)`: the removed value and the new backing slice. The two boundary
branches trim the slice; any other index goes through `cut`. -/
def remove (array : List α) (index : Int) : Option (α × List α) :=
  if index = 0 then do
    let value ← goIndex array 0
    let rest ← goSliceFrom array 1
    return (value, rest)
  else if index = array.length - 1 then do
    let value ← goIndex array index
    let front ← goSlice array 0 index
    return (value, front)
  else cut array index

/-- `PopLeft()`. -/
def popLeft (array : List α) : Option (α × List α) := do
  let value ← goIndex array 0
  let rest ← goSliceFrom array 1
  return (value, rest)

/-- `PopRight()`. -/
def popRight (array : List α) : Option (α × List α) := do
  let index : Int := array.length - 1
  let value ← goIndex array index
  let front ← goSlice array 0 index
  return (value, front)

/-- `PopRand()`: `Remove(grand.Intn(len(a.array)))`, with the drawn index `draw`. -/
def popRand (array : List α) (draw : Nat) : Option (α × List α) :=
  if draw < array.length then remove array draw else none

/-- The loop of `PopRands`: `n` more rounds, one draw each. -/
def popRandsLoop : Nat → List Nat → List α → Option (List α × List α)
  | 0, _, array => some ([], array)
  | _ + 1, [], _ => none
  | n + 1, draw :: draws, array =>
    if draw < array.length then do
      let (value, array) ← cut array draw
      let (values, array) ← popRandsLoop n draws array
      return (value :: values, array)
    else none

/-- `PopRands(size)`: the popped values and the new backing slice. -/
def popRands [Inhabited α] (array : List α) (size : Int) (draws : List Nat) :
    Option (List α × List α) := do
  let size := if size > array.length then (array.length : Int) else size
  let _ ← (goMake size : Option (List α))
  popRandsLoop size.toNat draws array

/-- `PopLefts(size)`. -/
def popLefts (array : List α) (size : Int) : Option (List α × List α) := do
  let size := if size > array.length then (array.length : Int) else size
  let value ← goSlice array 0 size
  let rest ← goSliceFrom array size
  return (value, rest)

/-- `PopRights(size)`; `len(a.array) - size` wraps around for `size` near `math.MinInt64`. -/
def popRights (array : List α) (size : Int) : Option (List α × List α) := do
  let index := wrap (array.length - size)
  let index := if index < 0 then 0 else index
  let value ← goSliceFrom array index
  let front ← goSlice array 0 index
  return (value, front)

/-! ## Reading a window -/

/-- `Range(start, end...)`: a copy in safe mode (`make` + `copy`), a view otherwise. -/
def range [Inhabited α] (safe : Bool) (array : List α) (start : Int) (endArg : Option Int) :
    Option (List α) := do
  let mut offsetEnd : Int := array.length
  if let some e := endArg then
    if e < offsetEnd then offsetEnd := e
  let mut start := start
  if start > offsetEnd then return []
  if start < 0 then start := 0
  if safe then
    let dst ← goMake (offsetEnd - start)
    let src ← goSlice array start offsetEnd
    return goCopy dst src
  else goSlice array start offsetEnd

/-- The end of `SubSlice`: `end := offset + size`, which wraps around, clamped to `len`;
then the window, as a copy in safe mode and as a view otherwise. When `end` wraps, `size`
stays as large as the caller made it, and the copy's `make` sees it. -/
def subSliceRead [Inhabited α] (elemSize : Nat) (safe : Bool) (array : List α) (offset size : Int) :
    Option (List α) := do
  let len : Int := array.length
  let mut size := size
  let mut endIndex := wrap (offset + size)
  if endIndex > len then
    endIndex := len
    size := len - offset
  if safe then
    let s ← goMakeSlice elemSize size
    let src ← goSliceFrom array offset
    return goCopy s src
  else goSlice array offset endIndex

/-- `SubSlice(offset, length...)`. `-size` wraps around too; the other sums add a
non-negative length to a negative `int` and cannot. -/
def subSlice [Inhabited α] (elemSize : Nat) (safe : Bool) (array : List α) (offset : Int)
    (length : Option Int) : Option (List α) := do
  let len : Int := array.length
  let mut size := length.getD len
  let mut offset := offset
  if offset > len then return []
  if offset < 0 then
    offset := len + offset
    if offset < 0 then return []
  if size < 0 then
    offset := offset + size
    size := wrap (-size)
    if offset < 0 then return []
  subSliceRead elemSize safe array offset size

/-! ## Sampling and chunking -/

/-- The loop of `Rands`: `for i, v := range grand.Perm(len(a.array))`, assigning
`n[i] = a.array[v]` and leaving once `i == size-1`. -/
def randsLoop (array : List α) (size : Int) : List Nat → Int → List α → Option (List α)
  | [], _, n => some n
  | v :: perm, i, n => do
    let n ← goSet n i (← goIndex array v)
    if i = size - 1 then return n
    randsLoop array size perm (i + 1) n

/-- `Rands(size)`, `perm` being what `grand.Perm(len(a.array))` returned. `size - 1` is only
reached after `make` has accepted `size`, so it cannot overflow. -/
def rands [Inhabited α] (array : List α) (size : Int) (perm : List Nat) : Option (List α) := do
  let size := if size > array.length then (array.length : Int) else size
  let n ← goMake size
  randsLoop array size perm 0 n

/-- The loop of `Chunk` with `chunks` rounds left: chunk `i` is `a.array[i*size:end]`,
`end = (i+1)*size` lowered to `length`. Both products are `int` products and wrap. -/
def chunkLoop (array : List α) (size : Int) : Nat → Int → Option (List (List α))
  | 0, _ => some []
  | chunks + 1, i => do
    let mut endIndex := wrap ((i + 1) * size)
    if endIndex > array.length then endIndex := array.length
    let chunk ← goSlice array (wrap (i * size)) endIndex
    let rest ← chunkLoop array size chunks (i + 1)
    return chunk :: rest

/-- `Chunk(size)`: no chunks for `size < 1`. The count `int(math.Ceil(float64(length) /
float64(size)))` is taken as the exact ceiling of `length / size`. -/
def chunk (array : List α) (size : Int) : Option (List (List α)) :=
  if size < 1 then some []
  else chunkLoop array size ((array.length + size.toNat - 1) / size.toNat) 0

/-- `CountValues()`: `m[v]++` for every element, into a fresh map. -/
def countValues [DecidableEq α] (array : List α) : List (α × Int) :=
  array.foldl (fun m v => mapSet m v (mapGet m v + 1)) []

/-! ## One spec lemma per method -/

theorem goIndex_eq_none {array : List α} {i : Int} (h : ¬ (0 ≤ i ∧ i < array.length)) :
    goIndex array i = none :=
  Option.not_isSome_iff_eq_none.1 (mt goIndex_isSome_iff.1 h)

theorem goIndex_cons_zero (x : α) (xs : List α) : goIndex (x :: xs) 0 = some x := by
  simp [goIndex]

theorem goSliceFrom_cons_one (x : α) (xs : List α) : goSliceFrom (x :: xs) 1 = some xs := by
  have h : goSliceFrom (x :: xs) (1 : Nat) = some ((x :: xs).drop 1) := goSliceFrom_eq (by simp)
  simpa using h

theorem perm_cons_eraseIdx {l : List α} {i : Nat} (h : i < l.length) :
    (l[i] :: l.eraseIdx i).Perm l := by
  conv_rhs => rw [← List.take_append_drop i l, List.drop_eq_getElem_cons h]
  rw [List.eraseIdx_eq_take_drop_succ]
  exact List.perm_middle.symm

theorem cut_of_lt {array : List α} {n : Nat} (h : n < array.length) :
    cut array n = some (array[n], array.eraseIdx n) := by
  have e : (n : Int) + 1 = ((n + 1 : Nat) : Int) := by push_cast; rfl
  rw [cut, goIndex_eq_some h, e, goSlice_zero h.le, goSliceFrom_eq (Nat.succ_le_of_lt h)]
  simp [List.eraseIdx_eq_take_drop_succ]

/-- `cut` removes the element at an in-range index and panics at any other. -/
theorem cut_eq (array : List α) (i : Int) :
    cut array i = if h : 0 ≤ i ∧ i < array.length
      then some (array[i.toNat], array.eraseIdx i.toNat) else none := by
  split
  · rename_i h
    obtain ⟨n, rfl⟩ := Int.eq_ofNat_of_zero_le h.1
    exact cut_of_lt (by omega)
  · simp [cut, goIndex_eq_none ‹_›]

/-- The two fast paths of `Remove` compute what the general splice does. -/
theorem remove_eq_cut (array : List α) (i : Int) : remove array i = cut array i := by
  unfold remove
  split
  · subst i
    cases array with
    | nil => rfl
    | cons x xs =>
      rw [goIndex_cons_zero, goSliceFrom_cons_one, ← Nat.cast_zero, cut_of_lt (by simp)]
      rfl
  · split
    · rename_i h0 hl
      rw [cut_eq]
      split
      · rename_i h
        obtain ⟨n, rfl⟩ := Int.eq_ofNat_of_zero_le h.1
        have hn : n + 1 = array.length := by omega
        simp [goIndex_eq_some (show n < array.length by omega), goSlice_zero (show n ≤ array.length by omega),
          List.eraseIdx_eq_take_drop_succ, hn]
      · simp [goIndex_eq_none ‹_›]
    · rfl

theorem remove_eq (array : List α) (i : Int) :
    remove array i = if h : 0 ≤ i ∧ i < array.length
      then some (array[i.toNat], array.eraseIdx i.toNat) else none := by
  rw [remove_eq_cut, cut_eq]

theorem remove_of_lt {array : List α} {n : Nat} (h : n < array.length) :
    remove array n = some (array[n], array.eraseIdx n) := by
  rw [remove_eq_cut, cut_of_lt h]

theorem remove_of_le {array : List α} {n : Nat} (h : array.length ≤ n) : remove array n = none := by
  rw [remove_eq, dif_neg (by omega)]

theorem popLeft_eq (array : List α) :
    popLeft array = array.head?.map fun x => (x, array.tail) := by
  cases array with
  | nil => rfl
  | cons x xs => simp [popLeft, goIndex_cons_zero, goSliceFrom_cons_one]

theorem popRight_eq (array : List α) :
    popRight array = array.getLast?.map fun x => (x, array.dropLast) := by
  rcases List.eq_nil_or_concat array with rfl | ⟨front, x, rfl⟩
  · rfl
  · have e : ((front ++ [x]).length : Int) - 1 = (front.length : Nat) := by simp
    simp [popRight, e, goIndex_eq_some, goSlice_zero]

theorem popRand_eq (array : List α) (draw : Nat) :
    popRand array draw = if h : draw < array.length
      then some (array[draw], array.eraseIdx draw) else none := by
  unfold popRand
  split <;> simp_all [remove_eq_cut, cut_of_lt]

theorem goSlice_eq_some_iff {array r : List α} {lo hi : Int} :
    goSlice array lo hi = some r ↔
      (0 ≤ lo ∧ lo ≤ hi ∧ hi ≤ array.length) ∧ r = (array.take hi.toNat).drop lo.toNat := by
  unfold goSlice
  split <;> simp_all [eq_comm]

theorem popLefts_eq (array : List α) (size : Int) :
    popLefts array size =
      if 0 ≤ size then some (array.take size.toNat, array.drop size.toNat) else none := by
  unfold popLefts
  split_ifs with h1 h2 h2
  · have hn : array.length ≤ size.toNat := by omega
    simp [goSlice_zero, goSliceFrom_eq, List.take_of_length_le hn, List.drop_of_length_le hn]
  · omega
  · obtain ⟨n, rfl⟩ := Int.eq_ofNat_of_zero_le h2
    simp [goSlice_zero (show n ≤ array.length by omega), goSliceFrom_eq (show n ≤ array.length by omega)]
  · have hn : goSlice array 0 size = none := goSlice_eq_none (by omega)
    simp only [hn]; rfl

/-- Whatever `PopRights` leaves is a prefix of the slice, and it returns the rest. -/
theorem popRights_eq_some {array values rest : List α} {size : Int}
    (h : popRights array size = some (values, rest)) :
    ∃ k, values = array.drop k ∧ rest = array.take k := by
  simp only [popRights] at h
  generalize (if wrap (array.length - size) < 0 then 0 else wrap (array.length - size)) = index at h
  simp only [goSliceFrom, Option.bind_eq_bind, Option.bind_eq_some, goSlice_eq_some_iff,
    Option.some.injEq, Prod.mk.injEq] at h
  obtain ⟨_, ⟨⟨_, _, _⟩, rfl⟩, _, ⟨_, rfl⟩, rfl, rfl⟩ := h
  exact ⟨index.toNat, by simp, by simp⟩

theorem popRands_eq_some [Inhabited α] {array values rest : List α} {size : Int} {draws : List Nat}
    (h : popRands array size draws = some (values, rest)) :
    ∃ n, popRandsLoop n draws array = some (values, rest) := by
  simp only [popRands, Option.bind_eq_bind, Option.bind_eq_some] at h
  obtain ⟨_, -, h⟩ := h
  exact ⟨_, h⟩

/-- `PopRands` pops one drawn element per round: what it returns and what it leaves are,
together, the old contents, and what it leaves keeps its order. -/
theorem popRandsLoop_spec : ∀ (n : Nat) (draws : List Nat) (array values rest : List α),
    popRandsLoop n draws array = some (values, rest) →
      rest.Sublist array ∧ (values ++ rest).Perm array ∧ values.length = n
  | 0, _, array, values, rest, h => by
    simp only [popRandsLoop, Option.some.injEq, Prod.mk.injEq] at h
    obtain ⟨rfl, rfl⟩ := h
    exact ⟨List.Sublist.refl _, List.Perm.refl _, rfl⟩
  | _ + 1, [], _, _, _, h => by cases h
  | n + 1, draw :: draws, array, values, rest, h => by
    simp only [popRandsLoop] at h
    split at h
    · rename_i hd
      simp only [cut_of_lt hd, Option.bind_eq_bind, Option.some_bind, Option.bind_eq_some,
        Option.pure_def, Option.some.injEq, Prod.exists, Prod.mk.injEq] at h
      obtain ⟨values', rest', hl, rfl, rfl⟩ := h
      obtain ⟨hs, hp, hlen⟩ := popRandsLoop_spec n draws _ _ _ hl
      exact ⟨hs.trans (List.eraseIdx_sublist _ _), (hp.cons _).trans (perm_cons_eraseIdx hd),
        by rw [List.length_cons, hlen]⟩
    · cases h

/-- The loop of `PopRands` runs all its rounds when each draw is in range for the slice it
is drawn from: the `t`-th draw below `len - t`. -/
theorem popRandsLoop_isSome : ∀ (n : Nat) (draws : List Nat) (array : List α),
    n ≤ array.length → (∀ t < n, ∃ d, draws[t]? = some d ∧ d < array.length - t) →
      (popRandsLoop n draws array).isSome
  | 0, _, _, _, _ => rfl
  | n + 1, [], _, _, hd => by
    obtain ⟨_, h0, -⟩ := hd 0 (Nat.succ_pos n)
    cases h0
  | n + 1, d :: draws, array, hn, hd => by
    obtain ⟨_, h0, hlt⟩ := hd 0 (Nat.succ_pos n)
    simp only [List.getElem?_cons_zero, Option.some.injEq] at h0
    subst h0
    have hdl : d < array.length := by omega
    have hlen : (array.eraseIdx d).length = array.length - 1 := List.length_eraseIdx_of_lt hdl
    have ih := popRandsLoop_isSome n draws (array.eraseIdx d) (by omega) fun t ht => by
      obtain ⟨d', h1, h2⟩ := hd (t + 1) (by omega)
      exact ⟨d', by rwa [List.getElem?_cons_succ] at h1, by omega⟩
    obtain ⟨⟨values, rest⟩, h⟩ := Option.isSome_iff_exists.1 ih
    simp [popRandsLoop, hdl, cut_of_lt hdl, h]

/-- `PopRands(size)` panics in `make` for a negative `size` and otherwise runs
`min(size, len)` rounds. -/
theorem popRands_eq [Inhabited α] (array : List α) (size : Int) (draws : List Nat) :
    popRands array size draws =
      if 0 ≤ size then popRandsLoop (min size.toNat array.length) draws array else none := by
  by_cases hs : 0 ≤ size
  · have e : (if size > array.length then (array.length : Int) else size) =
        ((min size.toNat array.length : Nat) : Int) := by split_ifs <;> omega
    simp only [popRands, e, goMake_eq, Option.bind_eq_bind, Option.some_bind, Int.toNat_ofNat,
      if_pos hs]
  · simp [popRands, hs, goMake, show ¬ size > array.length by omega]

/-- `PopRights(size)`: `len - size` wraps below `0` from `size <= len - 2^63` on, and the
whole slice is popped; any other negative `size` panics. -/
theorem popRights_eq (array : List α) {size : Int} (hlen : array.length < 9223372036854775808)
    (hs : -9223372036854775808 ≤ size) (hs' : size < 9223372036854775808) :
    popRights array size =
      if 0 ≤ size then
        some (array.drop (array.length - size.toNat), array.take (array.length - size.toNat))
      else if array.length - size < 9223372036854775808 then none else some (array, []) := by
  have key : (if wrap (array.length - size) < 0 then 0 else wrap (array.length - size)) =
      if 0 ≤ size then ((array.length - size.toNat : Nat) : Int)
      else if array.length - size < 9223372036854775808 then array.length - size else 0 := by
    unfold wrap; split_ifs <;> omega
  simp only [popRights, key]
  split_ifs with h1 h2
  · simp [goSliceFrom_eq (Nat.sub_le _ _), goSlice_zero (Nat.sub_le _ _)]
  · have h : goSliceFrom array (array.length - size) = none := goSlice_eq_none (by omega)
    simp [h]
  · simp [goSliceFrom, goSlice, Int.natCast_nonneg]

/-! ## Removals -/

/-- A slice method that only ever removes elements. -/
def Shrinks {β : Type} (f : List α → Option (β × List α)) : Prop :=
  ∀ a v a', f a = some (v, a') → a'.Sublist a

theorem shrinks_remove (i : Int) : Shrinks (fun a : List α => Garray.remove a i) := by
  intro a v a' h
  change Garray.remove a i = _ at h
  rw [remove_eq] at h
  split at h
  · cases h; exact List.eraseIdx_sublist _ _
  · cases h

theorem shrinks_popLeft : Shrinks (Garray.popLeft : List α → _) := by
  intro a v a' h
  cases a <;> simp [popLeft_eq] at h
  exact h.2 ▸ List.sublist_cons_self _ _

theorem shrinks_popRight : Shrinks (Garray.popRight : List α → _) := by
  intro a v a' h
  simp only [popRight_eq, Option.map_eq_some', Prod.mk.injEq] at h
  obtain ⟨_, -, -, rfl⟩ := h
  exact List.dropLast_sublist _

theorem shrinks_popRand (draw : Nat) : Shrinks (fun a : List α => Garray.popRand a draw) := by
  intro a v a' h
  change Garray.popRand a draw = _ at h
  rw [popRand_eq] at h
  split at h
  · cases h; exact List.eraseIdx_sublist _ _
  · cases h

theorem shrinks_popRands [Inhabited α] (size : Int) (draws : List Nat) :
    Shrinks (fun a : List α => Garray.popRands a size draws) := by
  intro a v a' h
  obtain ⟨n, h⟩ := popRands_eq_some h
  exact (popRandsLoop_spec _ _ _ _ _ h).1

theorem shrinks_popLefts (size : Int) : Shrinks (fun a : List α => Garray.popLefts a size) := by
  intro a v a' h
  change Garray.popLefts a size = _ at h
  rw [popLefts_eq] at h
  split at h
  · cases h; exact List.drop_sublist _ _
  · cases h

theorem shrinks_popRights (size : Int) : Shrinks (fun a : List α => Garray.popRights a size) := by
  intro a v a' h
  obtain ⟨k, -, rfl⟩ := popRights_eq_some h
  exact List.take_sublist _ _

end

/-! ## `CountValues` -/

section
variable {α : Type} [DecidableEq α]

/-- The loop of `CountValues` from the map `m`: each value of the rest gains its count there,
the other keys keep their entries. -/
theorem lookup_foldl_count (k : α) : ∀ (vs : List α) (m : List (α × Int)),
    (vs.foldl (fun m v => mapSet m v (mapGet m v + 1)) m).lookup k =
      if k ∈ vs then some (mapGet m k + vs.count k) else m.lookup k
  | [], m => by simp
  | v :: vs, m => by
    rw [List.foldl_cons, lookup_foldl_count k vs, mapGet_mapSet, lookup_mapSet]
    by_cases hkv : k = v
    · subst hkv
      by_cases hk : k ∈ vs
      · simp only [hk, List.mem_cons_self, if_true, List.count_cons_self]; push_cast; ring_nf
      · simp [hk, List.count_eq_zero.2 hk]
    · simp [hkv, List.count_cons_of_ne (Ne.symm hkv)]

/-- The loop of `CountValues` adds each key once. -/
theorem nodup_keys_foldl : ∀ (vs : List α) (m : List (α × Int)), (m.map Prod.fst).Nodup →
    ((vs.foldl (fun m v => mapSet m v (mapGet m v + 1)) m).map Prod.fst).Nodup
  | [], _, h => h
  | v :: vs, m, h => by
    refine nodup_keys_foldl vs _ ?_
    rw [keys_mapSet]
    split_ifs with hv
    · exact h
    · exact h.append (List.nodup_singleton v) (by simpa using hv)

/-- **`CountValues` maps each element of the slice to its number of occurrences**: every key
once, the keys exactly the elements, each with its count, on both array types. -/
theorem countValues_spec (array : List α) :
    ((countValues array).map Prod.fst).Nodup ∧
      ∀ k, (countValues array).lookup k =
        if k ∈ array then some (array.count k : Int) else none := by
  refine ⟨nodup_keys_foldl array [] List.nodup_nil, fun k => ?_⟩
  rw [countValues, lookup_foldl_count]
  simp [mapGet]

end

end Garray
