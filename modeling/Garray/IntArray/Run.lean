import Garray.IntArray.Methods
import Garray.FillPad
import Mathlib.Algebra.BigOperators.Group.List
/-!
# `IntArray` over whole runs

| here | there |
| --- | --- |
| `IntOp`, `IntRet`, `IntArray.step`, `IntArray.run` | one locked method call of `IntArray` as one step; a sequence of calls |
| `IntOp.inputs` | the values a call hands in: `Set`, `SetArray`, `Replace`, `InsertBefore`, `InsertAfter`, `PushLeft`, `PushRight`, `Append`, `Merge`, `Fill`, `Pad` |
| `Provenance` | what one call may leave |
| `IntOp.keeps`, `run_keeps_sum` | the calls that neither delete nor overwrite, and `Sum` along them |
| `run_insert_remove` | `InsertBefore`/`Remove`, `PushLeft`/`PopLeft`, `PushRight`/`PopRight` in sequence |

The slice of an `IntArray` is written by many loops: `Set`, `Replace`, `Fill` and `Pad`
assign, `InsertBefore` splices copies, `Shuffle` and `Reverse` swap, `Unique` deletes, and
`Pad` first fills a fresh `make([]int, n)`. None of them leaves anything but values of the
slice before the call or values the call was given (`step_provenance`), so along every run
the slice holds only values it started with or that some call handed in (`run_provenance`):
a zero of `make` never leaks into it, and no call changes the lock mode.
-/
namespace Garray

/-! ## Runs -/

/-- A call of one method of `IntArray`, with its arguments and random draws. -/
inductive IntOp where
  | get (index : GoInt)
  | set (index : GoInt) (value : Int)
  | setArray (array : List Int)
  | replace (array : List Int)
  | sum
  | sort
  /-- `Sort(true)`, ending as the permutation `perm` of the slice -/
  | sortReverse (perm : List Nat)
  /-- `SortFunc(less)`, ending as the permutation `perm` of the slice -/
  | sortFunc (perm : List Nat)
  | insertBefore (index : GoInt) (value : Int)
  | insertAfter (index : GoInt) (value : Int)
  | remove (index : GoInt)
  | pushLeft (values : List Int)
  | pushRight (values : List Int)
  | popLeft
  | popRight
  | popRand (draw : Nat)
  | popRands (size : GoInt) (draws : List Nat)
  | popLefts (size : GoInt)
  | popRights (size : GoInt)
  | range (start : GoInt) (endArg : Option GoInt)
  | subSlice (offset : GoInt) (length : Option GoInt)
  | append (values : List Int)
  | len
  | slice
  | clear
  | contains (value : Int)
  | search (value : Int)
  | unique
  | merge (values : List Int)
  | fill (startIndex num : GoInt) (value : Int)
  | chunk (size : GoInt)
  | pad (size : GoInt) (value : Int)
  | rand (draw : Nat)
  | rands (size : GoInt) (perm : List Nat)
  | shuffle (perm : List Nat)
  | reverse
  | countValues

/-- What a call of `IntArray` returns; `self` is the receiver, returned for chaining. -/
inductive IntRet where
  | self
  | value (v : Int)
  | values (vs : List Int)
  | chunks (vss : List (List Int))
  | int (n : Int)
  | flag (b : Bool)
  | length (n : Nat)
  | counts (m : List (Int × Int))
deriving DecidableEq, Repr

namespace IntArray

/-- One method call, under the lock; `none` where the call panics. -/
def step (a : IntArray) : IntOp → Option (IntArray × IntRet)
  | .get index => (a.get index).map fun v => (a, .value v)
  | .set index value => (a.set index value).map (·, .self)
  | .setArray array => some (a.setArray array, .self)
  | .replace array => (a.replace array).map (·, .self)
  | .sum => some (a, .int a.sum)
  | .sort => some (a.sort, .self)
  | .sortReverse perm | .sortFunc perm => (a.sortSlice perm).map (·, .self)
  | .insertBefore index value => (a.insertBefore index value).map (·, .self)
  | .insertAfter index value => (a.insertAfter index value).map (·, .self)
  | .remove index => (a.remove index).map fun (v, a) => (a, .value v)
  | .pushLeft values => some (a.pushLeft values, .self)
  | .pushRight values => some (a.pushRight values, .self)
  | .popLeft => a.popLeft.map fun (v, a) => (a, .value v)
  | .popRight => a.popRight.map fun (v, a) => (a, .value v)
  | .popRand draw => (a.popRand draw).map fun (v, a) => (a, .value v)
  | .popRands size draws => (a.popRands size draws).map fun (vs, a) => (a, .values vs)
  | .popLefts size => (a.popLefts size).map fun (vs, a) => (a, .values vs)
  | .popRights size => (a.popRights size).map fun (vs, a) => (a, .values vs)
  | .range start endArg => (a.range start endArg).map fun vs => (a, .values vs)
  | .subSlice offset length => (a.subSlice offset length).map fun vs => (a, .values vs)
  | .append values => some (a.append values, .self)
  | .len => some (a, .length a.len)
  | .slice => some (a, .values a.slice)
  | .clear => some (a.clear, .self)
  | .contains value => some (a, .flag (a.contains value))
  | .search value => some (a, .int (a.search value))
  | .unique => a.unique.map (·, .self)
  | .merge values => some (a.merge values, .self)
  | .fill startIndex num value => (a.fill startIndex num value).map (·, .self)
  | .chunk size => (a.chunk size).map fun vss => (a, .chunks vss)
  | .pad size value => (a.pad size value).map (·, .self)
  | .rand draw => (a.rand draw).map fun v => (a, .value v)
  | .rands size perm => (a.rands size perm).map fun vs => (a, .values vs)
  | .shuffle perm => (a.shuffle perm).map (·, .self)
  | .reverse => a.reverse.map (·, .self)
  | .countValues => some (a, .counts a.countValues)

/-- A sequence of calls: the final state and every call's return value. -/
def run (a : IntArray) : List IntOp → Option (IntArray × List IntRet)
  | [] => some (a, [])
  | op :: ops => do
    let (a, r) ← a.step op
    let (a, rs) ← run a ops
    return (a, r :: rs)

end IntArray

/-- The values a call hands in to be stored. `Merge(array)` hands in what `gconv.Ints`
(outside src/) makes of its argument, the list `IntOp.merge` carries: a `0` that `gconv.Ints`
makes of an element it cannot convert counts as handed in. -/
def IntOp.inputs : IntOp → List Int
  | .set _ value | .insertBefore _ value | .insertAfter _ value | .fill _ _ value
  | .pad _ value => [value]
  | .setArray array | .replace array => array
  | .pushLeft values | .pushRight values | .append values | .merge values => values
  | _ => []

/-! ## Where each element comes from -/

section
variable {α : Type} {l l' : List α} {x : α}

theorem mem_of_goSet {i : Int} {v : α} (h : goSet l i v = some l') (hx : x ∈ l') :
    x ∈ l ∨ x = v := by
  unfold goSet at h
  split at h
  · cases h; exact List.mem_or_eq_of_mem_set hx
  · cases h

theorem mem_of_goSlice {lo hi : Int} (h : goSlice l lo hi = some l') (hx : x ∈ l') : x ∈ l := by
  obtain ⟨-, rfl⟩ := goSlice_eq_some_iff.1 h
  exact List.mem_of_mem_take (List.mem_of_mem_drop hx)

/-- A swap that does not panic permutes the slice. -/
theorem perm_of_goSwap [DecidableEq α] {i j : Int} (h : goSwap l i j = some l') : l'.Perm l := by
  have hj : (goIndex l j).isSome := by
    cases hx : goIndex l j <;> simp_all [goSwap]
  have hi : (goIndex l i).isSome := by
    cases hx : goIndex l i <;> cases goIndex l j <;> simp_all [goSwap]
  obtain ⟨hi0, hil⟩ := goIndex_isSome_iff.1 hi
  obtain ⟨hj0, hjl⟩ := goIndex_isSome_iff.1 hj
  obtain ⟨i, rfl⟩ := Int.eq_ofNat_of_zero_le hi0
  obtain ⟨j, rfl⟩ := Int.eq_ofNat_of_zero_le hj0
  rw [goSwap_eq (by omega) (by omega), Option.some.injEq] at h
  exact h ▸ perm_swap _ _

/-- `Sort(true)` and `SortFunc` keep the lock mode and permute the slice. -/
theorem perm_of_sortSlice {a a' : IntArray} {perm : List Nat} (h : a.sortSlice perm = some a') :
    a'.safe = a.safe ∧ a'.array.Perm a.array := by
  unfold IntArray.sortSlice at h
  split_ifs at h with hp
  cases h
  refine ⟨rfl, (hp.map _).trans (.of_eq ?_)⟩
  refine List.ext_getElem (by simp) fun i _ hi => ?_
  simp [List.getElem?_eq_getElem hi]

/-- The loop of `Shuffle`, whenever it ends: a permutation of the slice it started from. -/
theorem perm_of_shuffleLoop : ∀ {perm : List Nat} {i : Nat} {cur r : List Int},
    shuffleLoop perm i cur = some r → r.Perm cur
  | [], _, _, _, h => by cases h; rfl
  | v :: perm, i, cur, r, h => by
    simp only [shuffleLoop, Option.bind_eq_bind, Option.bind_eq_some] at h
    obtain ⟨cur', hs, h⟩ := h
    exact (perm_of_shuffleLoop h).trans (perm_of_goSwap hs)

/-- The loop of `Reverse`, whenever it ends: a permutation of the slice it started from. -/
theorem perm_of_reverseLoop : ∀ {fuel : Nat} {i j : Int} {cur r : List Int},
    reverseLoop fuel i j cur = some r → r.Perm cur
  | 0, _, _, _, _, h => by cases h
  | fuel + 1, i, j, cur, r, h => by
    simp only [reverseLoop, Option.bind_eq_bind] at h
    split at h
    · rw [Option.bind_eq_some] at h
      obtain ⟨cur', hs, h⟩ := h
      exact (perm_of_reverseLoop h).trans (perm_of_goSwap hs)
    · cases h; rfl

/-- `InsertBefore` and `InsertAfter` store the slice's elements and `value`. -/
theorem mem_of_insertAt {array r : List Int} {index value x : Int}
    (h : insertAt array index value = some r) (hx : x ∈ r) : x ∈ array ∨ x = value := by
  simp only [insertAt, Option.bind_eq_bind, Option.bind_eq_some, Option.pure_def,
    Option.some.injEq] at h
  obtain ⟨rear, hrear, front, hfront, rfl⟩ := h
  simp only [List.append_assoc, List.singleton_append, List.mem_append, List.mem_cons] at hx
  rcases hx with hx | rfl | hx
  · exact .inl (mem_of_goSlice hfront hx)
  · exact .inr rfl
  · exact .inl (mem_of_goSlice hrear hx)

/-- The loop of `Replace`, whenever it ends: each element from the slice or from `array`. -/
theorem mem_of_replaceLoop {array : List Int} : ∀ {is : List Nat} {cur r : List Int} {x : Int},
    is.foldlM (fun acc (i : Nat) => do goSet acc i (← goIndex array i)) cur = some r →
      x ∈ r → x ∈ cur ∨ x ∈ array
  | [], _, _, _, h, hx => by cases h; exact .inl hx
  | i :: is, cur, r, x, h, hx => by
    simp only [List.foldlM_cons, Option.bind_eq_bind, Option.bind_eq_some] at h
    obtain ⟨cur', ⟨v, hv, hs⟩, h⟩ := h
    rcases mem_of_replaceLoop h hx with hx | hx
    · rcases mem_of_goSet hs hx with hx | rfl
      · exact .inl hx
      · unfold goIndex at hv; split at hv
        · exact .inr (List.getElem?_mem hv)
        · cases hv
    · exact .inr hx

end

/-- What a call may leave: the lock mode kept, and each element one of the slice before it or
one the call handed in. -/
def Provenance (inputs : List Int) (a a' : IntArray) : Prop :=
  a'.safe = a.safe ∧ ∀ x ∈ a'.array, x ∈ a.array ∨ x ∈ inputs

namespace IntArray

section
variable {a a' : IntArray} {inputs : List Int}

theorem provenance_of_subset (hs : a'.safe = a.safe) (h : a'.array ⊆ a.array) :
    Provenance inputs a a' :=
  ⟨hs, fun _ hx => .inl (h hx)⟩

theorem provenance_of_eq (h : a' = a) : Provenance inputs a a' :=
  provenance_of_subset (h ▸ rfl) (h ▸ fun _ => id)

/-- A call that only reads returns the receiver. -/
theorem eq_of_map_read {β : Type} {x : Option β} {g : β → IntRet} {r : IntRet}
    (h : x.map (fun v => (a, g v)) = some (a', r)) : a' = a := by
  obtain ⟨_, -, h⟩ := Option.map_eq_some'.1 h
  exact (Prod.mk.inj h).1.symm

/-- A call that returns the receiver for chaining. -/
theorem eq_of_map_self {x : Option IntArray} {r : IntRet} (h : x.map (·, IntRet.self) = some (a', r)) :
    x = some a' := by
  cases x <;> simp_all

/-- A method written `array ← …; return a with array`. -/
theorem eq_of_bind_array {x : Option (List Int)}
    (h : (do let array ← x; return { a with array }) = some a') :
    ∃ l, x = some l ∧ a' = { a with array := l } := by
  simp only [Option.bind_eq_bind, Option.bind_eq_some, Option.pure_def, Option.some.injEq] at h
  obtain ⟨l, hl, rfl⟩ := h
  exact ⟨l, hl, rfl⟩

theorem provenance_onArray {β : Type} {f : List Int → Option (β × List Int)} {g : β → IntRet}
    {r : IntRet} (hf : Shrinks f) (h : (a.onArray f).map (fun (v, a) => (a, g v)) = some (a', r)) :
    Provenance inputs a a' := by
  simp only [onArray, Option.map_map, Option.map_eq_some', Prod.exists, Function.comp_apply,
    Prod.mk.injEq] at h
  obtain ⟨v, l, hl, rfl, -⟩ := h
  exact provenance_of_subset rfl (hf _ _ _ hl).subset

/-- A method that stores only values of the slice and `value`. -/
theorem provenance_bind_array {x : Option (List Int)} {value : Int}
    (hx : ∀ l, x = some l → ∀ y ∈ l, y ∈ a.array ∨ y = value)
    (h : (do let array ← x; return { a with array }) = some a') : Provenance [value] a a' := by
  obtain ⟨l, hl, rfl⟩ := eq_of_bind_array h
  exact ⟨rfl, fun y hy => (hx l hl y hy).imp_right List.mem_singleton.2⟩

theorem provenance_pad {size : GoInt} {value : Int} (h : a.pad size value = some a') :
    Provenance [value] a a' := by
  have hrep : ∀ {k : Nat} {y : Int}, y ∈ List.replicate k value → y ∈ [value] :=
    fun hy => List.mem_singleton.2 (List.eq_of_mem_replicate hy)
  unfold IntArray.pad at h
  simp only [Option.bind_eq_bind, Option.pure_def, Option.some_bind, goMakeSlice_fill_bind] at h
  split_ifs at h <;> cases h
  · exact provenance_of_eq rfl
  all_goals exact ⟨rfl, fun y hy => by
    rcases List.mem_append.1 hy with hy | hy <;> first | exact .inl hy | exact .inr (hrep hy)⟩

theorem provenance_fill {startIndex num : GoInt} {value : Int}
    (h : a.fill startIndex num value = some a') : Provenance [value] a a' := by
  have hs : (if startIndex.val < 0 then 0 else startIndex.val) =
      ((max startIndex.val 0).toNat : Int) := by split_ifs <;> omega
  simp only [IntArray.fill, hs, fillLoop_eq, Option.bind_eq_bind, Option.some_bind,
    Option.pure_def, Option.some.injEq] at h
  subst h
  refine ⟨rfl, fun x hx => ?_⟩
  simp only [List.mem_append, List.mem_replicate, List.mem_singleton] at hx ⊢
  rcases hx with (hx | hx) | hx
  · exact .inl (List.mem_of_mem_take hx)
  · exact .inr hx.2
  · exact .inl (List.mem_of_mem_drop hx)

theorem provenance_unique (h : a.unique = some a') : Provenance inputs a a' := by
  obtain ⟨r, hr, hs, -⟩ := uniqueOuter_spec (a.array.length + 1) 0 a.array
    (List.Sublist.refl _) (fun _ => Iff.rfl) (by omega) (by omega)
  rw [Nat.cast_zero] at hr
  obtain ⟨l, hl, rfl⟩ := eq_of_bind_array h
  rw [hr, Option.some.injEq] at hl
  exact provenance_of_subset rfl (hl ▸ hs.subset)

end

/-- One step of a run, taken apart. -/
theorem run_cons_some {a a' : IntArray} {op : IntOp} {ops : List IntOp} {rs : List IntRet}
    (h : a.run (op :: ops) = some (a', rs)) :
    ∃ a₁ r rs', a.step op = some (a₁, r) ∧ a₁.run ops = some (a', rs') ∧ rs = r :: rs' := by
  simp only [run, Option.bind_eq_bind, Option.bind_eq_some, Option.pure_def,
    Option.some.injEq, Prod.exists, Prod.mk.injEq] at h
  obtain ⟨a₁, r, h₁, _, rs', h₂, rfl, rfl⟩ := h
  exact ⟨a₁, r, rs', h₁, h₂, rfl⟩

/-- **One call**: the lock mode stays, and every element of the slice after it is one of the
slice before it or one the call handed in. -/
theorem step_provenance {a a' : IntArray} {op : IntOp} {r : IntRet} (h : a.step op = some (a', r)) :
    Provenance op.inputs a a' := by
  cases op with
  | get _ | range _ _ | subSlice _ _ | chunk _ | rand _ | rands _ _ =>
    exact provenance_of_eq (eq_of_map_read h)
  | sum | len | slice | contains _ | search _ | countValues =>
    exact provenance_of_eq (Prod.mk.inj (Option.some.inj h)).1.symm
  | setArray array =>
    obtain ⟨rfl, -⟩ := Prod.mk.inj (Option.some.inj h)
    exact ⟨rfl, fun x hx => .inr hx⟩
  | pushLeft values =>
    obtain ⟨rfl, -⟩ := Prod.mk.inj (Option.some.inj h)
    exact ⟨rfl, fun x hx => (List.mem_append.1 hx).symm⟩
  | pushRight values | append values | merge values =>
    obtain ⟨rfl, -⟩ := Prod.mk.inj (Option.some.inj h)
    exact ⟨rfl, fun x hx => List.mem_append.1 hx⟩
  | sort =>
    obtain ⟨rfl, -⟩ := Prod.mk.inj (Option.some.inj h)
    exact provenance_of_subset rfl (List.perm_insertionSort _ _).subset
  | sortReverse _ | sortFunc _ =>
    obtain ⟨hs, hp⟩ := perm_of_sortSlice (eq_of_map_self h)
    exact provenance_of_subset hs hp.subset
  | clear =>
    obtain ⟨rfl, -⟩ := Prod.mk.inj (Option.some.inj h)
    refine provenance_of_subset rfl fun x hx => ?_
    simp only [IntArray.clear] at hx
    split at hx
    · cases hx
    · exact hx
  | remove _ => exact provenance_onArray (shrinks_remove _) h
  | popLeft => exact provenance_onArray shrinks_popLeft h
  | popRight => exact provenance_onArray shrinks_popRight h
  | popRand _ => exact provenance_onArray (shrinks_popRand _) h
  | popRands _ _ => exact provenance_onArray (shrinks_popRands _ _) h
  | popLefts _ => exact provenance_onArray (shrinks_popLefts _) h
  | popRights _ => exact provenance_onArray (shrinks_popRights _) h
  | set _ _ => exact provenance_bind_array (fun _ hl _ => mem_of_goSet hl) (eq_of_map_self h)
  | insertBefore _ _ | insertAfter _ _ =>
    exact provenance_bind_array (fun _ hl _ => mem_of_insertAt hl) (eq_of_map_self h)
  | replace array =>
    obtain ⟨l, hl, rfl⟩ := eq_of_bind_array (eq_of_map_self h)
    exact ⟨rfl, fun x hx => mem_of_replaceLoop hl hx⟩
  | unique => exact provenance_unique (eq_of_map_self h)
  | fill _ _ _ => exact provenance_fill (eq_of_map_self h)
  | pad _ _ => exact provenance_pad (eq_of_map_self h)
  | shuffle _ =>
    obtain ⟨l, hl, rfl⟩ := eq_of_bind_array (eq_of_map_self h)
    exact provenance_of_subset rfl (perm_of_shuffleLoop hl).subset
  | reverse =>
    obtain ⟨l, hl, rfl⟩ := eq_of_bind_array (eq_of_map_self h)
    exact provenance_of_subset rfl (perm_of_reverseLoop hl).subset

/-- **No call invents a value.** Along every run the lock mode stays, and every element of the
final slice is one of the first slice or one some call handed in: `make`'s zeros in `Pad`,
`Clone` and the copies never reach the slice. -/
theorem run_provenance {a a' : IntArray} {ops : List IntOp} {rs : List IntRet}
    (h : a.run ops = some (a', rs)) :
    a'.safe = a.safe ∧ ∀ x ∈ a'.array, x ∈ a.array ∨ ∃ op ∈ ops, x ∈ op.inputs := by
  induction ops generalizing a rs with
  | nil =>
    simp only [run, Option.some.injEq, Prod.mk.injEq] at h
    obtain ⟨rfl, -⟩ := h
    exact ⟨rfl, fun x hx => .inl hx⟩
  | cons op ops ih =>
    obtain ⟨a₁, r, rs', h₁, h₂, -⟩ := run_cons_some h
    obtain ⟨hs₁, hx₁⟩ := step_provenance h₁
    obtain ⟨hs₂, hx₂⟩ := ih h₂
    refine ⟨hs₂.trans hs₁, fun x hx => ?_⟩
    rcases hx₂ x hx with hx | ⟨o, ho, hx⟩
    · exact (hx₁ x hx).imp_right fun hx => ⟨op, List.mem_cons_self _ _, hx⟩
    · exact .inr ⟨o, List.mem_cons_of_mem _ ho, hx⟩

theorem run_provenance_pad :
    (newIntArrayFrom [3, 1] false).run [.pad 4 7, .reverse] =
        some (⟨true, [7, 7, 1, 3]⟩, [.self, .self]) ∧
      (⟨true, [7, 7, 1, 3]⟩ : IntArray).safe = (newIntArrayFrom [3, 1] false).safe ∧
      ∀ x ∈ (⟨true, [7, 7, 1, 3]⟩ : IntArray).array, x ∈ (newIntArrayFrom [3, 1] false).array ∨
        ∃ op ∈ [IntOp.pad 4 7, .reverse], x ∈ op.inputs :=
  have h : (newIntArrayFrom [3, 1] false).run [.pad 4 7, .reverse] =
      some (⟨true, [7, 7, 1, 3]⟩, [.self, .self]) := by decide
  ⟨h, run_provenance h⟩

end IntArray

/-! ## Calls that keep every element -/

/-- The calls that neither delete nor overwrite: each keeps every element of the slice and adds
the values it hands in. -/
def IntOp.keeps : IntOp → Bool
  | .set .. | .setArray _ | .replace _ | .remove _ | .popLeft | .popRight | .popRand _
  | .popRands .. | .popLefts _ | .popRights _ | .clear | .unique | .fill .. | .pad .. => false
  | _ => true

/-- `InsertBefore` and `InsertAfter`, when they do not panic, add `value` to the slice. -/
theorem perm_of_insertAt {array r : List Int} {index value : Int}
    (h : insertAt array index value = some r) : r.Perm (array ++ [value]) := by
  rw [insertAt_eq] at h
  split at h
  · cases h
    rw [insertIdx_eq_take_drop _ (by omega)]
    calc List.Perm _ (value :: (array.take index.toNat ++ array.drop index.toNat)) := List.perm_middle
      _ = value :: array := by rw [List.take_append_drop]
      List.Perm _ (array ++ [value]) := (List.perm_append_singleton _ _).symm
  · cases h

namespace IntArray

/-- **One call that keeps**: the slice after it is a permutation of the slice before it and the
values the call handed in. -/
theorem step_perm {a a' : IntArray} {op : IntOp} {r : IntRet} (hk : op.keeps = true)
    (h : a.step op = some (a', r)) : a'.array.Perm (a.array ++ op.inputs) := by
  cases op with
  | get _ | range _ _ | subSlice _ _ | chunk _ | rand _ | rands _ _ =>
    rw [eq_of_map_read h]; exact .of_eq (List.append_nil _).symm
  | sum | len | slice | contains _ | search _ | countValues =>
    obtain ⟨rfl, -⟩ := Prod.mk.inj (Option.some.inj h)
    exact .of_eq (List.append_nil _).symm
  | pushLeft values =>
    obtain ⟨rfl, -⟩ := Prod.mk.inj (Option.some.inj h)
    exact List.perm_append_comm
  | pushRight _ | append _ | merge _ =>
    obtain ⟨rfl, -⟩ := Prod.mk.inj (Option.some.inj h)
    exact .refl _
  | sort =>
    obtain ⟨rfl, -⟩ := Prod.mk.inj (Option.some.inj h)
    exact (List.perm_insertionSort _ _).trans (.of_eq (List.append_nil _).symm)
  | sortReverse _ | sortFunc _ =>
    exact (perm_of_sortSlice (eq_of_map_self h)).2.trans (.of_eq (List.append_nil _).symm)
  | insertBefore _ _ | insertAfter _ _ =>
    obtain ⟨l, hl, rfl⟩ := eq_of_bind_array (eq_of_map_self h)
    exact perm_of_insertAt hl
  | shuffle _ =>
    obtain ⟨l, hl, rfl⟩ := eq_of_bind_array (eq_of_map_self h)
    exact (perm_of_shuffleLoop hl).trans (.of_eq (List.append_nil _).symm)
  | reverse =>
    obtain ⟨l, hl, rfl⟩ := eq_of_bind_array (eq_of_map_self h)
    exact (perm_of_reverseLoop hl).trans (.of_eq (List.append_nil _).symm)
  | set _ _ | setArray _ | replace _ | remove _ | popLeft | popRight | popRand _ | popRands _ _
  | popLefts _ | popRights _ | clear | unique | fill _ _ _ | pad _ _ => cases hk

theorem run_perm {a a' : IntArray} {ops : List IntOp} {rs : List IntRet}
    (hk : ∀ op ∈ ops, op.keeps = true) (h : a.run ops = some (a', rs)) :
    a'.array.Perm (a.array ++ ops.flatMap IntOp.inputs) := by
  induction ops generalizing a rs with
  | nil =>
    obtain ⟨rfl, -⟩ := Prod.mk.inj (Option.some.inj h)
    exact .of_eq (List.append_nil _).symm
  | cons op ops ih =>
    obtain ⟨a₁, r, rs', h₁, h₂, -⟩ := run_cons_some h
    have hp₁ := step_perm (hk op (List.mem_cons_self _ _)) h₁
    have hp₂ := ih (fun o ho => hk o (List.mem_cons_of_mem _ ho)) h₂
    rw [List.flatMap_cons, ← List.append_assoc]
    exact hp₂.trans (hp₁.append_right _)

/-- **Calls that neither delete nor overwrite lose nothing.** Along every run of such calls
(`Get`, `Sum`, `Sort`, `Sort(true)`, `SortFunc`, `InsertBefore`, `InsertAfter`, `PushLeft`,
`PushRight`, `Append`, `Merge`, `Shuffle`, `Reverse` and the calls that only read) the final slice is a permutation of
the first one and of every value handed in, and `Sum` grows by the sum of those values, modulo
`2^64`. -/
theorem run_keeps_sum {a a' : IntArray} {ops : List IntOp} {rs : List IntRet}
    (hk : ∀ op ∈ ops, op.keeps = true) (h : a.run ops = some (a', rs)) :
    a'.array.Perm (a.array ++ ops.flatMap IntOp.inputs) ∧
      a'.sum = wrap (a.sum + (ops.flatMap IntOp.inputs).sum) := by
  have hp := run_perm hk h
  refine ⟨hp, ?_⟩
  rw [sum, sum, foldl_wrap_zero, foldl_wrap_zero, wrap_add_wrap, hp.sum_eq, List.sum_append]

theorem run_keeps_sum_sorted :
    (∀ op ∈ [IntOp.pushLeft [5], .insertAfter 0 9, .sort, .reverse], op.keeps = true) ∧
      (newIntArrayFrom [3, 1] false).run [.pushLeft [5], .insertAfter 0 9, .sort, .reverse] =
        some (⟨true, [9, 5, 3, 1]⟩, [.self, .self, .self, .self]) ∧
      (⟨true, [9, 5, 3, 1]⟩ : IntArray).array.Perm ([3, 1] ++
        [IntOp.pushLeft [5], .insertAfter 0 9, .sort, .reverse].flatMap IntOp.inputs) ∧
      (⟨true, [9, 5, 3, 1]⟩ : IntArray).sum = wrap ((newIntArrayFrom [3, 1] false).sum +
        ([IntOp.pushLeft [5], .insertAfter 0 9, .sort, .reverse].flatMap IntOp.inputs).sum) :=
  have h : (newIntArrayFrom [3, 1] false).run [.pushLeft [5], .insertAfter 0 9, .sort, .reverse] =
      some (⟨true, [9, 5, 3, 1]⟩, [.self, .self, .self, .self]) := by decide
  have hk : ∀ op ∈ [IntOp.pushLeft [5], .insertAfter 0 9, .sort, .reverse], op.keeps = true := by
    decide
  ⟨hk, h, run_keeps_sum hk h⟩

/-! ## Round trips -/

/-- **Each insertion is undone by the matching removal, which returns the inserted value**:
`Remove(index)` after `InsertBefore(index, value)` at every position of the slice, `PopLeft`
after `PushLeft(value)` and `PopRight` after `PushRight(value)`. -/
theorem run_insert_remove (a : IntArray) (index : GoInt) (value : Int)
    (h : 0 ≤ index.val ∧ index.val ≤ a.array.length) :
    a.run [.insertBefore index value, .remove index] = some (a, [.self, .value value]) ∧
      a.run [.pushLeft [value], .popLeft] = some (a, [.self, .value value]) ∧
      a.run [.pushRight [value], .popRight] = some (a, [.self, .value value]) := by
  obtain ⟨n, hn⟩ : ∃ n : Nat, index.val = n := ⟨index.val.toNat, by omega⟩
  have hle : n ≤ a.array.length := by omega
  have hi : insertAt a.array n value = some (a.array.insertIdx n value) := by
    rw [insertAt_eq, if_pos (hn ▸ h), Int.toNat_ofNat]
  have hl : n < (a.array.insertIdx n value).length := by
    rw [List.length_insertIdx _ _ hle]; omega
  have h₁ : a.step (.insertBefore index value) =
      some (⟨a.safe, a.array.insertIdx n value⟩, .self) := by
    show (a.insertBefore index value).map _ = _
    simp only [insertBefore, hn, hi, Option.bind_eq_bind, Option.some_bind, Option.pure_def,
      Option.map_some']
  have h₂ : (⟨a.safe, a.array.insertIdx n value⟩ : IntArray).step (.remove index) =
      some (a, .value value) := by
    show (IntArray.remove _ index).map _ = _
    simp only [IntArray.remove, onArray, hn, remove_of_lt hl, Option.map_some',
      List.getElem_insertIdx_self _ _ _ hle, List.eraseIdx_insertIdx]
  refine ⟨by simp only [run, h₁, h₂, Option.bind_eq_bind, Option.some_bind, Option.pure_def],
    ?_, ?_⟩
  · simp [run, step, pushLeft, IntArray.popLeft, onArray, popLeft_eq]
  · simp [run, step, pushRight, IntArray.popRight, onArray, popRight_eq]

theorem run_insert_remove_mid :
    (0 ≤ (1 : GoInt).val ∧ (1 : GoInt).val ≤ (newIntArrayFrom [1, 2, 3] false).array.length) ∧
      (newIntArrayFrom [1, 2, 3] false).run [.insertBefore 1 9, .remove 1] =
          some (newIntArrayFrom [1, 2, 3] false, [.self, .value 9]) ∧
        (newIntArrayFrom [1, 2, 3] false).run [.pushLeft [9], .popLeft] =
          some (newIntArrayFrom [1, 2, 3] false, [.self, .value 9]) ∧
        (newIntArrayFrom [1, 2, 3] false).run [.pushRight [9], .popRight] =
          some (newIntArrayFrom [1, 2, 3] false, [.self, .value 9]) :=
  ⟨by decide, run_insert_remove (newIntArrayFrom [1, 2, 3] false) 1 9 (by decide)⟩

end IntArray

end Garray
