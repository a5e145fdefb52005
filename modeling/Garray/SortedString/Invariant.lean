import Garray.SortedString.Array
import Mathlib.Data.List.Chain
/-!
# `SortedStringArray` over whole runs

The order invariant (`Reachable.sorted`): every constructor sorts, and every method keeps the
slice sorted: removals take a sublist (`step_shrinks`), `Add` inserts in order, `SetArray` and
`Sort` sort, `Unique` returns a strictly increasing list.

The unique flag's invariant (strictly increasing while the flag is on) is kept by every
method but one: `SetArray` installs the sorted caller slice whatever the flag says
(`step_strict`, `setArray_keeps_duplicates`).

`Clone` copies the slice and the lock mode; the flag comes from `NewSortedStringArrayFrom`,
which starts it off. A clone of a reachable state is the state with the flag cleared
(`clone_eq`), so with the flag on it takes in duplicates the original skips
(`clone_adds_duplicate`).
-/
namespace Garray
namespace SortedStringArray

/-! ## One lemma per kind of method -/

section
variable {s s' : SortedStringArray}

theorem onArray_eq_some {β : Type} {f : List GoString → Option (β × List GoString)} {v : β}
    (h : s.onArray f = some (v, s')) : ∃ a', f s.array = some (v, a') ∧ s' = { s with array := a' } := by
  simp only [onArray, Option.map_eq_some', Prod.exists, Prod.mk.injEq] at h
  obtain ⟨v', a', hf, rfl, rfl⟩ := h
  exact ⟨a', hf, rfl⟩

theorem add_eq_some (hs : s.array.Sorted (· ≤ ·)) (values : List GoString) :
    s.add values = some { s with array := values.foldl (insertValue s.unique) s.array } := by
  simp [add, addLoop_eq s.unique values hs]

theorem uniqueArray_strict {a r : List GoString} (hs : a.Sorted (· ≤ ·)) (h : uniqueArray a = some r) :
    r.Sorted (· < ·) ∧ ∀ x, x ∈ r ↔ x ∈ a := by
  by_cases hne : a = []
  · simp [hne, uniqueArray_nil] at h
  · obtain ⟨r', hr', hs', hm⟩ := uniqueArray_spec hs hne
    rw [hr', Option.some.injEq] at h
    exact h ▸ ⟨hs', hm⟩

theorem Unique_eq_some (h : s.Unique = some s') :
    uniqueArray s.array = some s'.array ∧ s'.unique = s.unique ∧ s'.safe = s.safe := by
  simp only [Unique, Option.bind_eq_bind, Option.bind_eq_some, Option.pure_def,
    Option.some.injEq] at h
  obtain ⟨a, ha, rfl⟩ := h
  exact ⟨ha, rfl, rfl⟩

/-- `SetUnique(unique)` sets the flag and deduplicates exactly when the flag goes from off
to on. -/
theorem setUnique_eq_some {b : Bool} (h : s.setUnique b = some s') :
    s'.unique = b ∧ s'.safe = s.safe ∧
      (b = true ∧ s.unique = false ∧ uniqueArray s.array = some s'.array ∨ s'.array = s.array) := by
  simp only [setUnique] at h
  split at h
  · rename_i hb
    obtain ⟨h1, h2, h3⟩ := Unique_eq_some h
    simp only [Bool.and_eq_true, bne_iff_ne, ne_eq] at hb
    obtain ⟨rfl, hu⟩ := hb
    exact ⟨h2, h3, .inl ⟨rfl, by simpa using hu, h1⟩⟩
  · cases h; exact ⟨rfl, rfl, .inr rfl⟩

end

end SortedStringArray

/-- The calls that only read the slice or remove from it. -/
def Op.Shrinking : Op → Prop
  | .add _ | .merge _ | .setArray _ | .sort | .setUnique _ | .unique => False
  | _ => True

namespace SortedStringArray

/-- **Removals and reads.** Such a call keeps the flags and leaves a sublist of the slice. -/
theorem step_shrinks {s s' : SortedStringArray} {op : Op} {r : Ret} (h : s.step op = some (s', r))
    (hop : op.Shrinking) : s'.array.Sublist s.array ∧ s'.unique = s.unique ∧ s'.safe = s.safe := by
  have key : ∀ {β : Type} {f : List GoString → Option (β × List GoString)}, Shrinks f →
      ∀ {g : β → Ret}, (s.onArray f).map (fun (v, s) => (s, g v)) = some (s', r) →
        s'.array.Sublist s.array ∧ s'.unique = s.unique ∧ s'.safe = s.safe := by
    intro β f hf g hm
    simp only [Option.map_eq_some', Prod.exists, Prod.mk.injEq] at hm
    obtain ⟨v, s'', ho, rfl, -⟩ := hm
    obtain ⟨a', hfa, rfl⟩ := onArray_eq_some ho
    exact ⟨hf _ _ _ hfa, rfl, rfl⟩
  cases op <;> simp only [Op.Shrinking] at hop
  · exact key (shrinks_remove _) h
  · exact key shrinks_popLeft h
  · exact key shrinks_popRight h
  · exact key (shrinks_popRand _) h
  · exact key (shrinks_popRands _ _) h
  · exact key (shrinks_popLefts _) h
  · exact key (shrinks_popRights _) h
  · simp only [step, Option.some.injEq, Prod.mk.injEq] at h
    exact h.1 ▸ ⟨List.nil_sublist _, rfl, rfl⟩
  all_goals
    have e : s' = s := by
      simp only [step, Option.map_eq_some', Option.some.injEq, Prod.mk.injEq] at h
      first | exact h.1.symm | exact (h.elim fun _ h => h.2.1).symm
    exact e ▸ ⟨List.Sublist.refl _, rfl, rfl⟩

/-! ## The order invariant -/

section
variable {s s' : SortedStringArray} {op : Op} {r : Ret}

theorem map_self_eq_some {x : Option SortedStringArray} (h : x.map (·, Ret.self) = some (s', r)) :
    x = some s' := by
  cases x <;> simp_all

/-- **Every call keeps the slice sorted.** -/
theorem step_sorted (hs : s.array.Sorted (· ≤ ·)) (h : s.step op = some (s', r)) :
    s'.array.Sorted (· ≤ ·) := by
  by_cases hop : op.Shrinking
  · exact hs.sublist (step_shrinks h hop).1
  -- what is left: `add`, `merge`, `setArray`, `sort`, `setUnique`, `unique`
  cases op <;> simp only [Op.Shrinking, not_true_eq_false] at hop <;>
    simp only [step, Option.some.injEq, Prod.mk.injEq] at h
  · cases (add_eq_some hs _).symm.trans (map_self_eq_some h)
    exact sorted_foldl_insertValue _ _ hs
  · cases (add_eq_some hs _).symm.trans (map_self_eq_some h)
    exact sorted_foldl_insertValue _ _ hs
  · exact h.1 ▸ sorted_sortStrings _
  · exact h.1 ▸ sorted_sortStrings _
  · obtain ⟨-, -, ⟨-, -, hu⟩ | he⟩ := setUnique_eq_some (map_self_eq_some h)
    · exact (uniqueArray_strict hs hu).1.le_of_lt
    · exact he ▸ hs
  · exact (uniqueArray_strict hs (Unique_eq_some (map_self_eq_some h)).1).1.le_of_lt

/-- **While the flag is on, every call but `SetArray` keeps the slice strictly increasing.** -/
theorem step_strict (hs : s.array.Sorted (· < ·)) (hu : s.unique = true)
    (hop : ∀ a, op ≠ .setArray a) (h : s.step op = some (s', r)) : s'.array.Sorted (· < ·) := by
  by_cases hsh : op.Shrinking
  · exact hs.sublist (step_shrinks h hsh).1
  -- what is left: `add`, `merge`, `setArray`, `sort`, `setUnique`, `unique`
  cases op <;> simp only [Op.Shrinking, not_true_eq_false] at hsh <;>
    simp only [step, Option.some.injEq, Prod.mk.injEq] at h
  · cases (add_eq_some hs.le_of_lt _).symm.trans (map_self_eq_some h)
    exact hu ▸ strict_foldl_insertValue_true _ hs
  · cases (add_eq_some hs.le_of_lt _).symm.trans (map_self_eq_some h)
    exact hu ▸ strict_foldl_insertValue_true _ hs
  · exact absurd rfl (hop _)
  · rw [← h.1, sort, sortStrings_of_sorted hs.le_of_lt]
    exact hs
  · obtain ⟨-, -, ⟨-, hf, -⟩ | he⟩ := setUnique_eq_some (map_self_eq_some h)
    · exact absurd (hu.symm.trans hf) Bool.noConfusion
    · exact he ▸ hs
  · exact (uniqueArray_strict hs.le_of_lt (Unique_eq_some (map_self_eq_some h)).1).1

theorem run_reachable (ops : List Op) {rs : List Ret} (hs : Reachable s)
    (h : s.run ops = some (s', rs)) : Reachable s' := by
  induction ops generalizing s rs with
  | nil => simp only [run, Option.some.injEq, Prod.mk.injEq] at h; exact h.1 ▸ hs
  | cons op ops ih =>
    simp only [run, Option.bind_eq_bind, Option.bind_eq_some, Option.pure_def,
      Option.some.injEq, Prod.exists, Prod.mk.injEq] at h
    obtain ⟨s₁, r₁, h₁, s₂, rs₂, h₂, rfl, -⟩ := h
    exact ih (.step hs h₁) h₂

end

end SortedStringArray

open SortedStringArray

/-- Every reachable state is sorted. -/
theorem Reachable.sorted {s : SortedStringArray} (h : Reachable s) : s.array.Sorted (· ≤ ·) := by
  induction h with
  | new => exact List.sorted_nil
  | newSize h =>
    simp only [newSortedStringArraySize] at h
    split at h <;> cases h
    exact List.sorted_nil
  | newFrom | newFromCopy | clone => exact sorted_sortStrings _
  | step _ h ih => exact step_sorted ih h

/-- **`SortedStringArray` is sorted in every reachable state**: each element compares
`<= 0` with the next under `strings.Compare`. -/
theorem reachable_chain_compare_le {s : SortedStringArray} (h : Reachable s) :
    s.array.Chain' fun x y => stringsCompare x y ≤ 0 := by
  have hc : s.array.Chain' (· ≤ ·) := List.chain'_iff_pairwise.2 h.sorted
  exact hc

theorem reachable_chain_compare_le_from :
    Reachable (newSortedStringArrayFrom [⟨[98]⟩, ⟨[97]⟩, ⟨[97, 98]⟩] false) ∧
      (newSortedStringArrayFrom [⟨[98]⟩, ⟨[97]⟩, ⟨[97, 98]⟩] false).array.Chain'
        fun x y => stringsCompare x y ≤ 0 :=
  ⟨.newFrom _ _, reachable_chain_compare_le (.newFrom _ _)⟩

/-! ## The unique flag -/

/-- `Add("a")`, `SetUnique(true)`, `SetArray(["b", "b"])` from an empty array: the flag is
on and the slice holds two equal neighbours. -/
theorem setArray_keeps_duplicates :
    (newSortedStringArray false).run [.add [⟨[97]⟩], .setUnique true, .setArray [⟨[98]⟩, ⟨[98]⟩]] =
      some (⟨true, [⟨[98]⟩, ⟨[98]⟩], true⟩, [.self, .self, .self]) ∧
    Reachable ⟨true, [⟨[98]⟩, ⟨[98]⟩], true⟩ ∧ stringsCompare ⟨[98]⟩ ⟨[98]⟩ = 0 := by
  have h : (newSortedStringArray false).run
      [.add [⟨[97]⟩], .setUnique true, .setArray [⟨[98]⟩, ⟨[98]⟩]] =
      some (⟨true, [⟨[98]⟩, ⟨[98]⟩], true⟩, [.self, .self, .self]) := by decide
  exact ⟨h, run_reachable _ (.new false) h, by decide⟩

namespace SortedStringArray

section
variable {s s' : SortedStringArray} {op : Op} {r : Ret} {ops : List Op} {rs : List Ret}

/-- Only `SetUnique` moves the flag. -/
theorem step_unique_flag (hs : s.array.Sorted (· ≤ ·)) (h : s.step op = some (s', r)) :
    s'.unique = s.unique ∨ ∃ b, op = .setUnique b := by
  by_cases hop : op.Shrinking
  · exact .inl (step_shrinks h hop).2.1
  cases op <;> simp only [Op.Shrinking, not_true_eq_false] at hop <;>
    simp only [step, Option.some.injEq, Prod.mk.injEq] at h
  · cases (add_eq_some hs _).symm.trans (map_self_eq_some h); exact .inl rfl
  · cases (add_eq_some hs _).symm.trans (map_self_eq_some h); exact .inl rfl
  · exact .inl (h.1 ▸ rfl)
  · exact .inl (h.1 ▸ rfl)
  · exact .inr ⟨_, rfl⟩
  · exact .inl (Unique_eq_some (map_self_eq_some h)).2.1

/-- Turning the flag on runs `Unique` on the slice. -/
theorem setUnique_true_of_false (hu : s.unique = false) (h : s.setUnique true = some s') :
    uniqueArray s.array = some s'.array := by
  simp only [setUnique, hu] at h
  exact (Unique_eq_some h).1

/-- **One call keeps the flag's promise**: from a sorted slice that is strictly increasing
whenever the flag is on, every call but `SetArray` leaves one that is too. -/
theorem step_flag_strict (hs : s.array.Sorted (· ≤ ·))
    (hu : s.unique = true → s.array.Sorted (· < ·)) (hop : ∀ a, op ≠ .setArray a)
    (h : s.step op = some (s', r)) : s'.unique = true → s'.array.Sorted (· < ·) := by
  intro hu'
  cases hsu : s.unique
  · rcases step_unique_flag hs h with he | ⟨b, rfl⟩
    · exact absurd (hu'.symm.trans (he.trans hsu)) Bool.noConfusion
    · obtain ⟨rfl, -⟩ := setUnique_eq_some (map_self_eq_some h)
      rw [hu'] at h
      exact (uniqueArray_strict hs (setUnique_true_of_false hsu (map_self_eq_some h))).1
  · exact step_strict (hu hsu) hsu hop h

/-- **The unique flag's promise holds along every run that avoids `SetArray`**: from a sorted
slice that is strictly increasing whenever the flag is on, every state the run passes through
has no two equal elements while the flag is on. -/
theorem run_unique_strict (hs : s.array.Sorted (· ≤ ·))
    (hu : s.unique = true → s.array.Sorted (· < ·)) (hops : ∀ a, Op.setArray a ∉ ops)
    (h : s.run ops = some (s', rs)) : s'.unique = true → s'.array.Sorted (· < ·) := by
  induction ops generalizing s rs with
  | nil => simp only [run, Option.some.injEq, Prod.mk.injEq] at h; exact h.1 ▸ hu
  | cons op ops ih =>
    simp only [run, Option.bind_eq_bind, Option.bind_eq_some, Option.pure_def,
      Option.some.injEq, Prod.exists, Prod.mk.injEq] at h
    obtain ⟨s₁, r₁, h₁, s₂, rs₂, h₂, rfl, -⟩ := h
    exact ih (step_sorted hs h₁)
      (step_flag_strict hs hu (fun a e => hops a (e ▸ List.mem_cons_self _ _)) h₁)
      (fun a ha => hops a (List.mem_cons_of_mem _ ha)) h₂

end

theorem run_unique_strict_dedup :
    (⟨true, [⟨[97]⟩, ⟨[97]⟩], false⟩ : SortedStringArray).array.Sorted (· ≤ ·) ∧
      ((⟨true, [⟨[97]⟩, ⟨[97]⟩], false⟩ : SortedStringArray).unique = true →
        (⟨true, [⟨[97]⟩, ⟨[97]⟩], false⟩ : SortedStringArray).array.Sorted (· < ·)) ∧
      (∀ a, Op.setArray a ∉ [.setUnique true, .add [⟨[97]⟩]]) ∧
      (⟨true, [⟨[97]⟩, ⟨[97]⟩], false⟩ : SortedStringArray).run [.setUnique true, .add [⟨[97]⟩]] =
        some (⟨true, [⟨[97]⟩], true⟩, [.self, .self]) ∧
      ((⟨true, [⟨[97]⟩], true⟩ : SortedStringArray).unique = true →
        (⟨true, [⟨[97]⟩], true⟩ : SortedStringArray).array.Sorted (· < ·)) :=
  have h : (⟨true, [⟨[97]⟩, ⟨[97]⟩], false⟩ : SortedStringArray).run
      [.setUnique true, .add [⟨[97]⟩]] = some (⟨true, [⟨[97]⟩], true⟩, [.self, .self]) := by
    decide
  ⟨by decide, by decide, by simp, h, run_unique_strict (by decide) (by decide) (by simp) h⟩

end SortedStringArray

/-! ## `Clone` -/

/-- `Clone` of a sorted state: the same slice and lock mode, the flag off. -/
theorem clone_eq_of_sorted {s : SortedStringArray} (hs : s.array.Sorted (· ≤ ·)) :
    s.clone = { s with unique := false } := by
  simp [clone, newSortedStringArrayFrom, sortStrings_of_sorted hs]

/-- **A clone of a reachable state is the state with its unique flag cleared**: the same
slice and lock mode, the flag off, so that under every later sequence of calls it returns and
leaves what the original with the flag off would. -/
theorem clone_eq {s : SortedStringArray} (h : Reachable s) : s.clone = { s with unique := false } :=
  clone_eq_of_sorted h.sorted

theorem clone_eq_from :
    Reachable (newSortedStringArrayFrom [⟨[98]⟩, ⟨[97]⟩] false) ∧
      (newSortedStringArrayFrom [⟨[98]⟩, ⟨[97]⟩] false).clone =
        { newSortedStringArrayFrom [⟨[98]⟩, ⟨[97]⟩] false with unique := false } :=
  ⟨.newFrom _ _, clone_eq (.newFrom _ _)⟩

/-- With the flag on, the clone takes in a duplicate that the original skips. -/
theorem clone_adds_duplicate :
    Reachable ⟨true, [⟨[97]⟩], true⟩ ∧
      (⟨true, [⟨[97]⟩], true⟩ : SortedStringArray).clone.run [.add [⟨[97]⟩]] =
        some (⟨true, [⟨[97]⟩, ⟨[97]⟩], false⟩, [.self]) ∧
      (⟨true, [⟨[97]⟩], true⟩ : SortedStringArray).run [.add [⟨[97]⟩]] =
        some (⟨true, [⟨[97]⟩], true⟩, [.self]) := by
  have h : (newSortedStringArray false).run [.add [⟨[97]⟩], .setUnique true] =
      some (⟨true, [⟨[97]⟩], true⟩, [.self, .self]) := by decide
  exact ⟨run_reachable _ (.new false) h, by decide, by decide⟩

end Garray
