import Garray.SortedString.Methods
/-!
# Slices that share a backing array (garray_sorted_string.go:89-113, garray_normal_int.go:89-101)

The rest of the model reads a method's slice argument as a fixed list. `Add(values...)` and
`Replace(array)` read their argument one element per round while they write the receiver's
backing array, and Go lets the argument be a view of that array: the slices `Chunk` returns,
and `Slice()`, `Range` and `SubSlice` in unsafe mode, are views. Here a slice lives in an
allocation.

| here | there |
| --- | --- |
| `Heap` | the allocation `mem` a call starts in, and where `a.array` is |
| `Recv.inMem ro len` | `a.array` is `mem[ro:ro+len]`, with capacity `len(mem) - ro` |
| `Recv.moved array` | a growing `append` moved `a.array` to an array of its own |
| `Arg` | the argument: in storage of its own, or the view `mem[off:off+n]` |
| `Heap.append` | `a.array = append(a.array, xs...)`, in place while the capacity holds |
| `Heap.addRound`, `Heap.addLoop`, `Heap.add` | `Add` |
| `Heap.replaceLoop`, `Heap.replace` | `Replace` |

A call starts from any allocation, so each theorem covers every capacity the runtime may have
left. With an argument in storage of its own, `Add` does what the value model does
(`Heap.add_own`), and so it does with a view that ends before the receiver starts, as the
one `PopLefts` returns, since `Add` writes only from the receiver's start on
(`Heap.add_view_below`). `Replace` does what `copy` does unless the argument is a view that
starts below the receiver (`Heap.replace_copies`). `Add` of a view of its own slice writes the
slots it has yet to read, and keeps a value twice where it should keep another
(`add_view_duplicates`). `Replace` from a view that starts below the receiver copies forward
over what it reads next.
-/
namespace Garray

/-- Where the receiver's slice is during a call. -/
inductive Recv (α : Type) where
  | inMem (ro len : Nat)
  | moved (array : List α)
deriving DecidableEq, Repr

/-- The allocation a call starts in, and the receiver's slice. -/
structure Heap (α : Type) where
  mem : List α
  recv : Recv α
deriving DecidableEq, Repr

/-- A slice argument: in storage of its own, or the view `mem[off:off+n]` of the allocation
the call starts in. -/
inductive Arg (α : Type) where
  | own (values : List α)
  | shared (off n : Nat)

variable {α : Type}

namespace Arg

/-- `len(values)`. -/
def length : Arg α → Nat
  | own values => values.length
  | shared _ n => n

/-- `values[j]`, read from the allocation as it is now. -/
def read (mem : List α) : Arg α → Nat → Option α
  | own values, j => values[j]?
  | shared off _, j => mem[off + j]?

/-- The elements of the argument when the call starts. -/
def contents (mem : List α) : Arg α → List α
  | own values => values
  | shared off n => (mem.drop off).take n

/-- The view lies inside the allocation. -/
def within (mem : List α) : Arg α → Bool
  | own _ => true
  | shared off n => decide (off + n ≤ mem.length)

theorem read_eq (mem : List α) (a : Arg α) {j : Nat} (hj : j < a.length) :
    a.read mem j = (a.contents mem)[j]? := by
  cases a with
  | own values => rfl
  | shared off n =>
    simp only [read, contents, List.getElem?_take, if_pos (show j < n from hj), List.getElem?_drop]

theorem length_contents {mem : List α} {a : Arg α} (hw : a.within mem = true) :
    (a.contents mem).length = a.length := by
  cases a with
  | own values => rfl
  | shared off n =>
    simp only [within, decide_eq_true_eq] at hw
    simp only [contents, List.length_take, List.length_drop, length]
    omega

end Arg

namespace Heap

/-- The elements of the receiver's slice. -/
def contents (h : Heap α) : List α :=
  match h.recv with
  | .inMem ro len => (h.mem.drop ro).take len
  | .moved array => array

/-- `a.array[0:k]`, for `k <= len(a.array)`. -/
def reslice (h : Heap α) (k : Nat) : Heap α :=
  match h.recv with
  | .inMem ro _ => { h with recv := .inMem ro k }
  | .moved array => { h with recv := .moved (array.take k) }

/-- `a.array = append(a.array, xs...)`: in place when `len + len(xs)` fits in the capacity,
else into a new array. -/
def append (h : Heap α) (xs : List α) : Heap α :=
  match h.recv with
  | .inMem ro len =>
    if len + xs.length ≤ h.mem.length - ro then
      ⟨h.mem.take (ro + len) ++ xs ++ h.mem.drop (ro + len + xs.length), .inMem ro (len + xs.length)⟩
    else { h with recv := .moved ((h.mem.drop ro).take len ++ xs) }
  | .moved array => { h with recv := .moved (array ++ xs) }

/-- `a.array[i] = x`, for `i < len(a.array)`. -/
def write (h : Heap α) (i : Nat) (x : α) : Heap α :=
  match h.recv with
  | .inMem ro _ => { h with mem := h.mem.set (ro + i) x }
  | .moved array => { h with recv := .moved (array.set i x) }

/-- The receiver's slice lies inside the allocation. -/
def Fits (h : Heap α) : Prop :=
  match h.recv with
  | .inMem ro len => ro + len ≤ h.mem.length
  | .moved _ => True

instance (h : Heap α) : Decidable h.Fits :=
  match h with
  | ⟨mem, .inMem ro len⟩ => inferInstanceAs (Decidable (ro + len ≤ mem.length))
  | ⟨_, .moved _⟩ => inferInstanceAs (Decidable True)

@[simp] theorem contents_append (h : Heap α) (xs : List α) :
    (h.append xs).contents = h.contents ++ xs := by
  obtain ⟨mem, recv⟩ := h
  cases recv with
  | moved array => rfl
  | inMem ro len =>
    simp only [append]
    split_ifs with hc
    · show ((mem.take (ro + len) ++ xs ++ mem.drop (ro + len + xs.length)).drop ro).take
        (len + xs.length) = (mem.drop ro).take len ++ xs
      by_cases hro : ro ≤ mem.length
      · have h₁ : (mem.take ro).length = ro := by simp only [List.length_take]; omega
        have h₂ : ((mem.drop ro).take len ++ xs).length = len + xs.length := by
          simp only [List.length_append, List.length_take, List.length_drop]; omega
        rw [List.take_add mem ro len, List.append_assoc, List.append_assoc, List.drop_left' h₁,
          ← List.append_assoc, List.take_left' h₂]
      · obtain ⟨rfl, hx⟩ : len = 0 ∧ xs.length = 0 := by omega
        simp [List.length_eq_zero.1 hx]
    · rfl

theorem contents_reslice (h : Heap α) {k : Nat} (hk : k ≤ h.contents.length) :
    (h.reslice k).contents = h.contents.take k := by
  obtain ⟨mem, recv⟩ := h
  cases recv with
  | moved array => rfl
  | inMem ro len =>
    change k ≤ ((mem.drop ro).take len).length at hk
    rw [List.length_take] at hk
    show (mem.drop ro).take k = ((mem.drop ro).take len).take k
    rw [List.take_take, min_eq_left (by omega)]

/-! ## `Add` -/

/-- One round of `Add`'s loop on the receiver's storage. -/
def addRound (unique : Bool) (h : Heap GoString) (value : GoString) : Option (Heap GoString) := do
  let (index, cmp) ← binSearch h.contents value
  if unique && cmp == 0 then return h
  if index < 0 then return h.append [value]
  let index := if cmp > 0 then index + 1 else index
  let rear ← goSliceFrom h.contents index
  let _ ← goSlice h.contents 0 index
  return ((h.reslice index.toNat).append [value]).append rear

/-- `for _, value := range values`: `len(values)` rounds from `j`, each reading `values[j]`
from the allocation as the earlier rounds left it. -/
def addLoop (unique : Bool) (values : Arg GoString) :
    Nat → Nat → Heap GoString → Option (Heap GoString)
  | 0, _, h => some h
  | k + 1, j, h => do
    let value ← values.read h.mem j
    let h ← addRound unique h value
    addLoop unique values k (j + 1) h

/-- `Add(values...)`; `unique` is `a.unique.Val()`. -/
def add (unique : Bool) (h : Heap GoString) (values : Arg GoString) : Option (Heap GoString) :=
  if values.length = 0 then some h else addLoop unique values values.length 0 h

/-- The splice of a round, on the receiver's storage, leaves the spliced contents. -/
theorem splice_contents (h : Heap GoString) (value : GoString) (index : Int) :
    ((goSliceFrom h.contents index).bind fun rear => (goSlice h.contents 0 index).bind fun _ =>
        some (((h.reslice index.toNat).append [value]).append rear)).map contents =
      (goSliceFrom h.contents index).bind fun rear => (goSlice h.contents 0 index).bind fun front =>
        some (front ++ [value] ++ rear) := by
  by_cases hi : 0 ≤ index ∧ index ≤ h.contents.length
  · obtain ⟨n, rfl⟩ := Int.eq_ofNat_of_zero_le hi.1
    have hn : n ≤ h.contents.length := by omega
    simp only [goSliceFrom_eq hn, goSlice_zero hn, Option.some_bind, Option.map_some',
      contents_append, contents_reslice _ hn, Int.toNat_ofNat]
  · have hr : goSliceFrom h.contents index = none := goSlice_eq_none (by omega)
    simp only [hr, Option.none_bind, Option.map_none']

/-- A round on the storage leaves the contents the round of the value model leaves. -/
theorem addRound_contents (unique : Bool) (h : Heap GoString) (value : GoString) :
    (addRound unique h value).map contents = addValue unique h.contents value := by
  unfold addRound addValue
  rcases binSearch h.contents value with _ | ⟨index, cmp⟩
  · rfl
  dsimp only [Option.bind_eq_bind, Option.some_bind, Option.pure_def]
  by_cases hu : (unique && cmp == 0) = true
  · rw [if_pos hu, if_pos hu]
    rfl
  rw [if_neg hu, if_neg hu]
  by_cases hi : index < 0
  · rw [if_pos hi, if_pos hi, Option.map_some', contents_append]
  rw [if_neg hi, if_neg hi]
  exact splice_contents h value _

/-- A round of `Add` leaves the storage as it is, appends to it, or cuts the receiver's slice
and appends twice. -/
theorem addRound_cases {unique : Bool} {h h' : Heap GoString} {value : GoString}
    (e : addRound unique h value = some h') :
    h' = h ∨ h' = h.append [value] ∨ ∃ k rear, h' = ((h.reslice k).append [value]).append rear := by
  obtain ⟨⟨index, cmp⟩, -, e⟩ := Option.bind_eq_some.1 e
  dsimp only at e
  split at e
  · exact .inl (Option.some.inj e).symm
  split at e
  · exact .inr (.inl (Option.some.inj e).symm)
  simp only [Option.pure_def, Option.bind_eq_bind, Option.some_bind] at e
  obtain ⟨rear, -, e⟩ := Option.bind_eq_some.1 e
  obtain ⟨_, -, e⟩ := Option.bind_eq_some.1 e
  exact .inr (.inr ⟨_, rear, (Option.some.inj e).symm⟩)

/-- `Add`'s loop, when every round keeps a property `P` under which the argument reads as
`vs`, leaves the contents the value model's loop leaves on `vs`. -/
theorem addLoop_reads (unique : Bool) (values : Arg GoString) (vs : List GoString)
    (P : Heap GoString → Prop) (hP : ∀ {h v h'}, P h → addRound unique h v = some h' → P h')
    (hread : ∀ {h j}, P h → j < vs.length → values.read h.mem j = vs[j]?) :
    ∀ (k j : Nat) (h : Heap GoString), P h → j + k = vs.length →
      (addLoop unique values k j h).map contents = Garray.addLoop unique h.contents (vs.drop j) := by
  intro k
  induction k with
  | zero =>
    intro j h _ hj
    rw [List.drop_of_length_le (by omega)]
    rfl
  | succ k ih =>
    intro j h hh hj
    have hv : values.read h.mem j = some vs[j] :=
      (hread hh (by omega)).trans (List.getElem?_eq_getElem (by omega))
    simp only [addLoop, hv, Option.bind_eq_bind, Option.some_bind,
      List.drop_eq_getElem_cons (show j < vs.length by omega), Garray.addLoop,
      List.foldlM_cons, ← addRound_contents]
    cases e : addRound unique h vs[j] with
    | none => rfl
    | some h₁ => exact ih (j + 1) h₁ (hP hh e) (by omega)

/-- **With its values in storage of their own, `Add` on the receiver's storage leaves the
contents the value model gives.** -/
theorem add_own (unique : Bool) (h : Heap GoString) (values : List GoString) :
    (h.add unique (.own values)).map contents = Garray.addLoop unique h.contents values := by
  unfold add
  split_ifs with h0
  · rw [List.length_eq_zero.1 h0]
    rfl
  · exact addLoop_reads unique (.own values) values (fun _ => True) (fun _ _ => trivial)
      (fun _ _ => rfl) _ 0 h trivial (by simp [Arg.length])

/-- The allocation below `ro` is as in `mem₀`, and the receiver, while it is in the
allocation, starts at `ro`. -/
structure KeepsBelow (mem₀ : List α) (ro : Nat) (h : Heap α) : Prop where
  below : h.mem.take ro = mem₀.take ro
  le_length : ro ≤ h.mem.length
  start : ∀ ro' len, h.recv = .inMem ro' len → ro' = ro

section
variable {mem₀ : List α} {ro : Nat} {h : Heap α}

theorem KeepsBelow.reslice (hk : KeepsBelow mem₀ ro h) (k : Nat) :
    KeepsBelow mem₀ ro (h.reslice k) := by
  obtain ⟨mem, recv⟩ := h
  cases recv with
  | inMem ro' len => exact ⟨hk.below, hk.le_length, fun _ _ e => by cases e; exact hk.start _ _ rfl⟩
  | moved _ => exact ⟨hk.below, hk.le_length, fun _ _ e => by cases e⟩

/-- An append writes from the receiver's end on, above `ro`. -/
theorem KeepsBelow.append (hk : KeepsBelow mem₀ ro h) (xs : List α) :
    KeepsBelow mem₀ ro (h.append xs) := by
  obtain ⟨mem, recv⟩ := h
  cases recv with
  | moved _ => exact ⟨hk.below, hk.le_length, fun _ _ e => by cases e⟩
  | inMem ro' len =>
    obtain rfl := hk.start ro' len rfl
    have h₂ : ro' ≤ mem.length := hk.le_length
    simp only [append]
    split_ifs
    · refine ⟨?_, by simp only [List.length_append, List.length_take]; omega,
        fun _ _ e => by cases e; rfl⟩
      show (mem.take (ro' + len) ++ xs ++ mem.drop (ro' + len + xs.length)).take ro' = _
      rw [List.append_assoc, List.take_append_of_le_length (by simp only [List.length_take]; omega),
        List.take_take, min_eq_left (by omega)]
      exact hk.below
    · exact ⟨hk.below, hk.le_length, fun _ _ e => by cases e⟩

end

theorem KeepsBelow.addRound {mem₀ : List GoString} {ro : Nat} {h h' : Heap GoString}
    {unique : Bool} {value : GoString} (hk : KeepsBelow mem₀ ro h)
    (e : addRound unique h value = some h') : KeepsBelow mem₀ ro h' := by
  rcases addRound_cases e with rfl | rfl | ⟨k, rear, rfl⟩
  · exact hk
  · exact hk.append _
  · exact ((hk.reslice k).append _).append _

/-- **`Add` reads a view below the receiver as the values it held.** A view that ends where
the receiver's slice starts, or before it, in the allocation they share (`PopLefts` returns
such a view) is never written by `Add`, which writes only from the receiver's start on: `Add`
of it leaves the contents the value model gives for the view's elements. -/
theorem add_view_below (unique : Bool) (h : Heap GoString) {ro len off n : Nat}
    (hr : h.recv = .inMem ro len) (hf : h.Fits) (hb : off + n ≤ ro) :
    (h.add unique (.shared off n)).map contents =
      Garray.addLoop unique h.contents ((h.mem.drop off).take n) := by
  have hro : ro + len ≤ h.mem.length := by simpa only [Fits, hr] using hf
  have hn : ((h.mem.drop off).take n).length = n := by
    simp only [List.length_take, List.length_drop]; omega
  have hk : KeepsBelow h.mem ro h := ⟨rfl, by omega, fun _ _ e => by rw [hr] at e; cases e; rfl⟩
  unfold add
  split_ifs with h0
  · simp only [Arg.length] at h0
    subst h0
    rfl
  refine addLoop_reads unique (.shared off n) _ (KeepsBelow h.mem ro) (fun hk' e => hk'.addRound e)
    (fun {h' j} hk' hj => ?_) n 0 h hk (by simp only [hn, Arg.length, Nat.zero_add])
  rw [hn] at hj
  have e := congrArg (·[off + j]?) hk'.below
  simp only [List.getElem?_take, if_pos (show off + j < ro by omega)] at e
  simp only [Arg.read, List.getElem?_take, if_pos hj, List.getElem?_drop, e]

theorem add_view_below_popLefts :
    (⟨[⟨[97]⟩, ⟨[98]⟩, ⟨[99]⟩, ⟨[100]⟩], .inMem 2 2⟩ : Heap GoString).recv = .inMem 2 2 ∧
      (⟨[⟨[97]⟩, ⟨[98]⟩, ⟨[99]⟩, ⟨[100]⟩], .inMem 2 2⟩ : Heap GoString).Fits ∧ 0 + 2 ≤ 2 ∧
      ((⟨[⟨[97]⟩, ⟨[98]⟩, ⟨[99]⟩, ⟨[100]⟩], .inMem 2 2⟩ : Heap GoString).add false
          (.shared 0 2)).map contents =
        Garray.addLoop false
          (⟨[⟨[97]⟩, ⟨[98]⟩, ⟨[99]⟩, ⟨[100]⟩], .inMem 2 2⟩ : Heap GoString).contents
          (([⟨[97]⟩, ⟨[98]⟩, ⟨[99]⟩, ⟨[100]⟩] : List GoString).drop 0 |>.take 2) :=
  have hf : (⟨[⟨[97]⟩, ⟨[98]⟩, ⟨[99]⟩, ⟨[100]⟩], .inMem 2 2⟩ : Heap GoString).Fits := by decide
  ⟨rfl, hf, le_rfl, add_view_below false _ rfl hf le_rfl⟩

/-! ## `Replace` -/

/-- The loop of `Replace`, `k` rounds from `i`: `a.array[i] = array[i]`, each read from the
allocation as the earlier rounds left it. -/
def replaceLoop (array : Arg α) : Nat → Nat → Heap α → Option (Heap α)
  | 0, _, h => some h
  | k + 1, i, h => do
    let x ← array.read h.mem i
    replaceLoop array k (i + 1) (h.write i x)

/-- `Replace(array)`: `min(len(array), len(a.array))` rounds. -/
def replace (h : Heap α) (array : Arg α) : Option (Heap α) :=
  replaceLoop array (if array.length > h.contents.length then h.contents.length else array.length)
    0 h

/-- The storage once the receiver's first `len(xs)` elements are `xs`. -/
def overwrite (h : Heap α) (xs : List α) : Heap α :=
  match h.recv with
  | .inMem ro _ => { h with mem := h.mem.take ro ++ xs ++ h.mem.drop (ro + xs.length) }
  | .moved array => { h with recv := .moved (xs ++ array.drop xs.length) }

/-- The view starts below the receiver in the allocation they share. -/
def startsBelow (h : Heap α) : Arg α → Bool
  | .own _ => false
  | .shared off _ =>
    match h.recv with
    | .inMem ro _ => decide (off < ro)
    | .moved _ => false

theorem overwrite_nil (h : Heap α) : h.overwrite [] = h := by
  obtain ⟨mem, recv⟩ := h
  cases recv <;> simp [overwrite]

section
variable {h : Heap α} (hf : h.Fits) {xs : List α}
include hf

theorem contents_overwrite (hx : xs.length ≤ h.contents.length) :
    (h.overwrite xs).contents = xs ++ h.contents.drop xs.length := by
  obtain ⟨mem, recv⟩ := h
  cases recv with
  | moved array => rfl
  | inMem ro len =>
    simp only [Fits] at hf
    simp only [contents, List.length_take, List.length_drop] at hx
    simp only [overwrite, contents]
    rw [List.append_assoc, List.drop_left' (by simp only [List.length_take]; omega),
      List.take_append_eq_append_take, List.take_of_length_le (by omega), List.drop_take,
      List.drop_drop, Nat.add_comm]

theorem write_overwrite (hx : xs.length < h.contents.length) (x : α) :
    (h.overwrite xs).write xs.length x = h.overwrite (xs ++ [x]) := by
  obtain ⟨mem, recv⟩ := h
  cases recv with
  | moved array =>
    simp only [contents] at hx
    simp only [overwrite, write, Heap.mk.injEq, Recv.moved.injEq, true_and]
    rw [List.set_append_right _ _ le_rfl, Nat.sub_self, List.drop_eq_getElem_cons hx,
      List.set_cons_zero, List.length_append, List.length_singleton]
    simp
  | inMem ro len =>
    simp only [Fits] at hf
    simp only [contents, List.length_take, List.length_drop] at hx
    simp only [overwrite, write, Heap.mk.injEq, and_true]
    rw [List.set_append_right _ _ (by simp only [List.length_append, List.length_take]; omega),
      List.length_append, List.length_take, min_eq_left (by omega), Nat.sub_self,
      List.drop_eq_getElem_cons (show ro + xs.length < mem.length by omega), List.set_cons_zero,
      List.length_append, List.length_singleton]
    simp [Nat.add_assoc]

theorem read_overwrite {array : Arg α} (hb : h.startsBelow array = false)
    (hx : xs.length ≤ h.contents.length) {j : Nat} (hj : xs.length ≤ j) :
    array.read (h.overwrite xs).mem j = array.read h.mem j := by
  obtain ⟨mem, recv⟩ := h
  cases array with
  | own values => rfl
  | shared off n =>
    cases recv with
    | moved _ => rfl
    | inMem ro len =>
      simp only [Fits] at hf
      simp only [contents, List.length_take, List.length_drop] at hx
      simp only [startsBelow, decide_eq_false_iff_not, not_lt] at hb
      simp only [overwrite, Arg.read]
      rw [List.getElem?_append_right (by simp only [List.length_append, List.length_take]; omega),
        List.getElem?_drop]
      congr 1
      simp only [List.length_append, List.length_take]
      omega

end

/-- The rounds from `len(xs)` on, once the first `len(xs)` elements are written: each reads
the argument's own element, since no earlier round wrote where a later one reads. -/
theorem replaceLoop_overwrite (array : Arg α) {h : Heap α} (hf : h.Fits)
    (hb : h.startsBelow array = false) (hw : array.within h.mem = true) :
    ∀ (k : Nat) (xs : List α), xs.length + k ≤ array.length →
      xs.length + k ≤ h.contents.length → xs = (array.contents h.mem).take xs.length →
      replaceLoop array k xs.length (h.overwrite xs) =
        some (h.overwrite ((array.contents h.mem).take (xs.length + k))) := by
  have hlen := Arg.length_contents hw
  intro k
  induction k with
  | zero =>
    intro xs _ _ hxs
    rw [Nat.add_zero, ← hxs]
    rfl
  | succ k ih =>
    intro xs ha hc hxs
    have hlt : xs.length < (array.contents h.mem).length := by omega
    have hread : array.read (h.overwrite xs).mem xs.length =
        some (array.contents h.mem)[xs.length] :=
      (read_overwrite hf hb (by omega) le_rfl).trans
        ((Arg.read_eq _ _ (by omega)).trans (List.getElem?_eq_getElem hlt))
    have e := ih (xs ++ [(array.contents h.mem)[xs.length]])
      (by simp only [List.length_append, List.length_singleton]; omega)
      (by simp only [List.length_append, List.length_singleton]; omega)
      (by simp only [List.length_append, List.length_singleton, ← List.take_concat_get' _ _ hlt,
        ← hxs])
    simp only [List.length_append, List.length_singleton,
      show xs.length + 1 + k = xs.length + (k + 1) by omega] at e
    simp only [replaceLoop, hread, Option.bind_eq_bind, Option.some_bind,
      write_overwrite hf (show xs.length < h.contents.length by omega), e]

/-- **`Replace` leaves what `copy` leaves**, unless its argument is a view that starts below
the receiver: the first `min(len(array), len(a.array))` elements of the argument, as they were
when the call started, over the front of the receiver's slice. -/
theorem replace_copies (h : Heap α) (array : Arg α) (hf : h.Fits)
    (hb : h.startsBelow array = false) (hw : array.within h.mem = true) :
    (h.replace array).map contents = some (goCopy h.contents (array.contents h.mem)) := by
  have hlen := Arg.length_contents hw
  set m := if array.length > h.contents.length then h.contents.length else array.length with hm
  have hm' : m = min (array.contents h.mem).length h.contents.length := by
    rw [hm, hlen]; split_ifs <;> omega
  have e := replaceLoop_overwrite array hf hb hw m [] (by simp only [List.length_nil]; omega)
    (by simp only [List.length_nil]; omega) rfl
  rw [List.length_nil, overwrite_nil, Nat.zero_add] at e
  have hlt : ((array.contents h.mem).take m).length = m := by rw [List.length_take]; omega
  rw [replace, ← hm, e, Option.map_some', contents_overwrite hf (by rw [hlt]; omega), hlt, goCopy]
  rcases le_total (array.contents h.mem).length h.contents.length with hl | hl
  · rw [hm', min_eq_left hl, List.take_of_length_le le_rfl, List.take_of_length_le hl]
  · rw [hm', min_eq_right hl, List.drop_of_length_le le_rfl, List.drop_of_length_le hl]

/-- `B := []int{1, 2, 3}`, `a := NewIntArrayFrom(B)` and `a.PopLeft()` leave `a.array` the
view `B[1:3]`. `a.Replace(B[0:2])` writes `1` over `B[1]` before it reads `B[1]`, and leaves
`[1, 1]` where `copy` leaves `[1, 2]`. -/
example : ((⟨[1, 2, 3], .inMem 1 2⟩ : Heap Int).replace (.shared 0 2)).map contents = some [1, 1] ∧
    goCopy [2, 3] [1, 2] = [1, 2] := by
  decide

theorem replace_copies_view :
    (⟨[1, 2, 3, 4], .inMem 0 2⟩ : Heap Int).Fits ∧
      (⟨[1, 2, 3, 4], .inMem 0 2⟩ : Heap Int).startsBelow (.shared 2 2) = false ∧
      (Arg.shared 2 2 : Arg Int).within [1, 2, 3, 4] = true ∧
      ((⟨[1, 2, 3, 4], .inMem 0 2⟩ : Heap Int).replace (.shared 2 2)).map contents =
        some (goCopy (⟨[1, 2, 3, 4], .inMem 0 2⟩ : Heap Int).contents
          ((Arg.shared 2 2 : Arg Int).contents [1, 2, 3, 4])) :=
  have hf : (⟨[1, 2, 3, 4], .inMem 0 2⟩ : Heap Int).Fits := by decide
  ⟨hf, rfl, rfl, replace_copies _ _ hf rfl rfl⟩

end Heap

namespace SortedStringArray

/-- A `SortedStringArray` whose slice lives in an allocation. -/
structure Backed where
  safe : Bool
  heap : Heap GoString
  unique : Bool
deriving DecidableEq

namespace Backed

/-- The state the value model sees. -/
def view (b : Backed) : SortedStringArray := ⟨b.safe, b.heap.contents, b.unique⟩

/-- `Add(values...)`. -/
def add (b : Backed) (values : Arg GoString) : Option Backed :=
  (b.heap.add b.unique values).map fun heap => { b with heap }

/-- `Merge(array)`: `Add` of the slice `gconv.Strings` (outside src/) returns. -/
def merge (b : Backed) (values : Arg GoString) : Option Backed := b.add values

/-- **With its values in storage of their own, `Add` refines the value model.** -/
theorem add_own_view (b : Backed) (values : List GoString) :
    (b.add (.own values)).map view = b.view.add values := by
  have e := Heap.add_own b.unique b.heap values
  simp only [add, SortedStringArray.add, view] at e ⊢
  generalize Heap.add b.unique b.heap (.own values) = x at e ⊢
  cases x <;> rw [← e] <;> rfl

/-- **`Add` and `Merge` of values in storage of their own**, on a sorted array: with the flag
off the array ends as the sorted permutation of its elements and the values; with the flag on
and a strictly increasing array it stays strictly increasing and gains exactly the values it
lacked. -/
theorem add_own_spec (b : Backed) (hs : b.view.array.Sorted (· ≤ ·)) (values : List GoString) :
    (b.unique = false → ∃ b', b.add (.own values) = some b' ∧ b.merge (.own values) = some b' ∧
      b'.view = { b.view with array := sortStrings (b.view.array ++ values) }) ∧
    (b.unique = true → b.view.array.Sorted (· < ·) → ∃ b', b.add (.own values) = some b' ∧
      b.merge (.own values) = some b' ∧ b'.safe = b.safe ∧ b'.unique = true ∧
      b'.view.array.Sorted (· < ·) ∧ ∀ x, x ∈ b'.view.array ↔ x ∈ b.view.array ∨ x ∈ values) := by
  have lift : ∀ s', b.view.add values = some s' →
      ∃ b', b.add (.own values) = some b' ∧ b'.view = s' := fun s' hs' =>
    Option.map_eq_some'.1 ((add_own_view b values).trans hs')
  obtain ⟨h₁, h₂⟩ := add_merge_spec b.view hs values
  refine ⟨fun hu => ?_, fun hu hst => ?_⟩
  · obtain ⟨s', hs', -, rfl⟩ := h₁ hu
    obtain ⟨b', hb', hv⟩ := lift _ hs'
    exact ⟨b', hb', hb', hv⟩
  · obtain ⟨s', hs', -, hsafe, huq, hstr, hmem⟩ := h₂ hu hst
    obtain ⟨b', hb', rfl⟩ := lift _ hs'
    exact ⟨b', hb', hb', hsafe, huq, hstr, hmem⟩

theorem add_own_spec_ac :
    (⟨true, ⟨[⟨[97]⟩, ⟨[99]⟩], .inMem 0 2⟩, false⟩ : Backed).view.array.Sorted (· ≤ ·) ∧
      ((⟨true, ⟨[⟨[97]⟩, ⟨[99]⟩], .inMem 0 2⟩, false⟩ : Backed).unique = false → ∃ b',
        (⟨true, ⟨[⟨[97]⟩, ⟨[99]⟩], .inMem 0 2⟩, false⟩ : Backed).add (.own [⟨[98]⟩, ⟨[97]⟩]) =
            some b' ∧
          (⟨true, ⟨[⟨[97]⟩, ⟨[99]⟩], .inMem 0 2⟩, false⟩ : Backed).merge (.own [⟨[98]⟩, ⟨[97]⟩]) =
            some b' ∧
          b'.view = { (⟨true, ⟨[⟨[97]⟩, ⟨[99]⟩], .inMem 0 2⟩, false⟩ : Backed).view with
            array := sortStrings ((⟨true, ⟨[⟨[97]⟩, ⟨[99]⟩], .inMem 0 2⟩, false⟩ : Backed).view.array ++
              [⟨[98]⟩, ⟨[97]⟩]) }) :=
  have hs : (⟨true, ⟨[⟨[97]⟩, ⟨[99]⟩], .inMem 0 2⟩, false⟩ : Backed).view.array.Sorted (· ≤ ·) := by
    decide
  ⟨hs, (add_own_spec _ hs [⟨[98]⟩, ⟨[97]⟩]).1⟩

/-- `NewSortedStringArraySize(4)` allocates four strings, and `Add("b")`, `Add("c")` append in
place: the slice is `[b, c]` with two spare slots. `Add(a.Chunk(2)[0]...)` hands `Add` the view
`a.array[0:2]`. Its first round splices `b` in at the front, which moves `c` out of the slot
the second round reads, and the second round adds `b` again: the array ends as
`[b, b, b, c]`, where the value model gives `[b, b, c, c]`. -/
theorem add_view_duplicates :
    ((⟨true, ⟨List.replicate 4 default, .inMem 0 0⟩, false⟩ : Backed).add (.own [⟨[98]⟩])).bind
        (·.add (.own [⟨[99]⟩])) =
      some ⟨true, ⟨[⟨[98]⟩, ⟨[99]⟩, default, default], .inMem 0 2⟩, false⟩ ∧
    ((⟨true, ⟨[⟨[98]⟩, ⟨[99]⟩, default, default], .inMem 0 2⟩, false⟩ : Backed).add
        (.shared 0 2)).map (·.view.array) = some [⟨[98]⟩, ⟨[98]⟩, ⟨[98]⟩, ⟨[99]⟩] ∧
    ((⟨true, ⟨[⟨[98]⟩, ⟨[99]⟩, default, default], .inMem 0 2⟩, false⟩ : Backed).view.add
        [⟨[98]⟩, ⟨[99]⟩]).map (·.array) = some [⟨[98]⟩, ⟨[98]⟩, ⟨[99]⟩, ⟨[99]⟩] := by
  decide

/-- **`Add` of values in storage of their own does not depend on how they are split or
ordered.** On a sorted array, strictly increasing when the flag is on, `Add(xs)` then
`Add(ys)` leaves what `Add(xs ++ ys)` leaves, and `Add` of any permutation of the values leaves
the same array. -/
theorem add_own_append_perm {b : Backed} (hs : b.view.array.Sorted (· ≤ ·))
    (hu : b.unique = true → b.view.array.Sorted (· < ·)) (xs ys : List GoString) :
    ((b.add (.own xs)).bind (·.add (.own ys))).map view = (b.add (.own (xs ++ ys))).map view ∧
      ∀ values, values.Perm xs → (b.add (.own values)).map view = (b.add (.own xs)).map view := by
  obtain ⟨happ, hperm⟩ := add_append_perm hs hu xs ys
  refine ⟨?_, fun values h => by rw [add_own_view, add_own_view, hperm values h]⟩
  rw [add_own_view, ← happ, ← add_own_view]
  cases b.add (.own xs) with
  | none => rfl
  | some b₁ => exact add_own_view b₁ ys

theorem add_own_append_perm_ac :
    (⟨true, ⟨[⟨[97]⟩, ⟨[99]⟩], .inMem 0 2⟩, true⟩ : Backed).view.array.Sorted (· ≤ ·) ∧
      ((⟨true, ⟨[⟨[97]⟩, ⟨[99]⟩], .inMem 0 2⟩, true⟩ : Backed).unique = true →
        (⟨true, ⟨[⟨[97]⟩, ⟨[99]⟩], .inMem 0 2⟩, true⟩ : Backed).view.array.Sorted (· < ·)) ∧
      ((((⟨true, ⟨[⟨[97]⟩, ⟨[99]⟩], .inMem 0 2⟩, true⟩ : Backed).add (.own [⟨[98]⟩])).bind
          (·.add (.own [⟨[97]⟩]))).map view =
        ((⟨true, ⟨[⟨[97]⟩, ⟨[99]⟩], .inMem 0 2⟩, true⟩ : Backed).add
          (.own ([⟨[98]⟩] ++ [⟨[97]⟩]))).map view ∧
        ∀ values, values.Perm [⟨[98]⟩] →
          ((⟨true, ⟨[⟨[97]⟩, ⟨[99]⟩], .inMem 0 2⟩, true⟩ : Backed).add (.own values)).map view =
            ((⟨true, ⟨[⟨[97]⟩, ⟨[99]⟩], .inMem 0 2⟩, true⟩ : Backed).add (.own [⟨[98]⟩])).map
              view) :=
  have hs : (⟨true, ⟨[⟨[97]⟩, ⟨[99]⟩], .inMem 0 2⟩, true⟩ : Backed).view.array.Sorted (· ≤ ·) := by
    decide
  have hu : (⟨true, ⟨[⟨[97]⟩, ⟨[99]⟩], .inMem 0 2⟩, true⟩ : Backed).unique = true →
      (⟨true, ⟨[⟨[97]⟩, ⟨[99]⟩], .inMem 0 2⟩, true⟩ : Backed).view.array.Sorted (· < ·) :=
    fun _ => by decide
  ⟨hs, hu, add_own_append_perm hs hu [⟨[98]⟩] [⟨[97]⟩]⟩

end Backed

end SortedStringArray

end Garray
