import Garray.Common
import Garray.GoString
/-!
# `PopRand` between other threads' calls (garray_normal_int.go:220-223, garray_sorted_string.go:165-168)

`PopRand` is `a.Remove(grand.Intn(len(a.array)))`: it reads `len(a.array)` outside the lock,
draws the index, and only then takes the lock inside `Remove`. Every other method holds the
lock for its whole call (`PopRands` draws under it). Here every locked call is one atomic
step on the shared slice and `PopRand` is two: the draw and the locked `Remove(i)`. Both
array types run the same code (`Common`), so the model is over the element type.

| here | there |
| --- | --- |
| `PopRandPc` | where the `PopRand` call stands |
| `PopRandConfig` | the shared `a.array` and the `PopRand` call |
| `PopRandEvent.draw` | `len(a.array)` read and `grand.Intn` returning `i` |
| `PopRandEvent.remove` | the locked `Remove(i)` (`remove`) |
| `PopRandEvent.other` | another thread's locked call, through its effect on the slice |

A draw from an empty slice panics. Another thread may also shorten the slice between the
two steps; `Remove(i)` then finds `i` past the end of a slice that is not empty, and panics
(`popRand_interleaved_panics`). What does hold: every step keeps the elements, so that with
other calls that only add elements nothing is lost or duplicated (`run_conserves`); and when
no other call shortens the slice or panics, `PopRand` completes whenever its draw is in
range of the slice it reads (`run_completes`), and every interleaving ends where the other
calls followed by an uninterrupted `PopRand` end (`run_linearizable`).
-/
namespace Garray

/-- Where the `PopRand` call stands. -/
inductive PopRandPc (α : Type) where
  /-- before its read of `len(a.array)` -/
  | start
  /-- holds the drawn index, not the lock -/
  | drawn (i : Nat)
  | done (value : α)
  | panicked
deriving DecidableEq, Repr

/-- The shared slice and the `PopRand` call. -/
structure PopRandConfig (α : Type) where
  array : List α
  pc : PopRandPc α
deriving DecidableEq, Repr

/-- One atomic step. -/
inductive PopRandEvent (α : Type) where
  | draw (i : Nat)
  | remove
  | other (call : List α → Option (List α))

/-- Another thread's locked call of a method of `Common`; `none` where it panics. -/
def PopRandEvent.call {α β : Type} (f : List α → Option (β × List α)) : PopRandEvent α :=
  .other fun array => (f array).map Prod.snd

/-- What another thread's call adds to the slice, `call` adding `added call`. -/
def PopRandEvent.adds {α : Type} (added : (List α → Option (List α)) → List α) :
    PopRandEvent α → List α
  | .other call => added call
  | _ => []

namespace PopRandConfig

variable {α : Type}

/-- One step; `none` where the step cannot be taken. `grand.Intn(n)` (outside src/) only
returns `i < n`; on an empty slice there is no such `i`, `grand.Intn(0)` is taken to panic as
`rand.Intn(0)` does, and any index it returned would make `Remove` on the empty slice panic. -/
def step (c : PopRandConfig α) : PopRandEvent α → Option (PopRandConfig α)
  | .draw i =>
    match c.pc with
    | .start =>
      if i < c.array.length then some { c with pc := .drawn i }
      else if c.array.length = 0 then some { c with pc := .panicked }
      else none
    | _ => none
  | .remove =>
    match c.pc with
    | .drawn i =>
      match Garray.remove c.array i with
      | some (value, array) => some ⟨array, .done value⟩
      | none => some { c with pc := .panicked }
    | _ => none
  | .other call => (call c.array).map fun array => { c with array }

/-- An interleaving of steps. -/
def run (c : PopRandConfig α) : List (PopRandEvent α) → Option (PopRandConfig α)
  | [] => some c
  | e :: es => (c.step e).bind (run · es)

@[simp] theorem run_nil (c : PopRandConfig α) : c.run [] = some c := rfl

theorem run_cons (c : PopRandConfig α) (e : PopRandEvent α) (es : List (PopRandEvent α)) :
    c.run (e :: es) = (c.step e).bind (run · es) := rfl

/-! ## One step -/

/-- The locked `Remove(i)` takes out `array[i]` when `i` is still in range and panics, the
slice unchanged, when it is not. -/
theorem step_remove (array : List α) (i : Nat) :
    (⟨array, .drawn i⟩ : PopRandConfig α).step .remove =
      some (if h : i < array.length then ⟨array.eraseIdx i, .done array[i]⟩
        else ⟨array, .panicked⟩) := by
  by_cases hi : i < array.length
  · simp only [step, remove_of_lt hi, dif_pos hi]
  · simp only [step, remove_of_le (not_lt.1 hi), dif_neg hi]

/-- The draw from a slice that holds the index. -/
theorem step_draw (array : List α) {i : Nat} (hi : i < array.length) :
    (⟨array, .start⟩ : PopRandConfig α).step (.draw i) = some ⟨array, .drawn i⟩ := by
  simp only [step, if_pos hi]

/-- What the configuration holds: the slice, and the value `PopRand` has returned. -/
def held (c : PopRandConfig α) : List α :=
  match c.pc with
  | .done value => value :: c.array
  | _ => c.array

/-- The locked `Remove` keeps every element: the value it returns and the slice it leaves,
or on its panic the slice as it found it, are that slice. -/
theorem held_step_remove {array : List α} {i : Nat} {c' : PopRandConfig α}
    (h : (⟨array, .drawn i⟩ : PopRandConfig α).step .remove = some c') : c'.held.Perm array := by
  rw [step_remove] at h
  split_ifs at h with hi
  · cases h
    exact perm_cons_eraseIdx hi
  · cases h
    exact List.Perm.refl _

/-! ## Runs -/

theorem run_append (c : PopRandConfig α) (es fs : List (PopRandEvent α)) :
    c.run (es ++ fs) = (c.run es).bind (run · fs) := by
  induction es generalizing c with
  | nil => rfl
  | cons e es ih => simp only [List.cons_append, run_cons, Option.bind_assoc, ih]

/-- Other threads' calls one after another; `none` at the first that panics. -/
def applyCalls : List (List α → Option (List α)) → List α → Option (List α)
  | [], array => some array
  | call :: calls, array => (call array).bind (applyCalls calls)

/-- Other threads' calls change the slice only. -/
theorem run_others (c : PopRandConfig α) (calls : List (List α → Option (List α))) :
    c.run (calls.map .other) = (applyCalls calls c.array).map fun array => { c with array } := by
  induction calls generalizing c with
  | nil => rfl
  | cons call calls ih =>
    simp only [List.map_cons, run_cons, step, applyCalls]
    cases call c.array with
    | none => rfl
    | some array => exact ih _

/-! ## Nothing lost or duplicated -/

/-- A call that leaves the slice it finds, in some order, and `added`. -/
def Adds (call : List α → Option (List α)) (added : List α) : Prop :=
  ∀ array array', call array = some array' → array'.Perm (array ++ added)

/-- One step keeps what the configuration holds, and adds what another thread's call adds. -/
theorem step_conserves (added : (List α → Option (List α)) → List α) {c c' : PopRandConfig α}
    {e : PopRandEvent α} (hadd : ∀ call, e = .other call → Adds call (added call))
    (h : c.step e = some c') : c'.held.Perm (c.held ++ e.adds added) := by
  rcases c with ⟨array, pc⟩
  cases e with
  | draw i =>
    cases pc with
    | start =>
      simp only [step] at h
      split_ifs at h <;> cases h <;> simp [held, PopRandEvent.adds]
    | _ => cases h
  | remove =>
    cases pc with
    | drawn i => simpa [held, PopRandEvent.adds] using held_step_remove h
    | _ => cases h
  | other call =>
    simp only [step, Option.map_eq_some'] at h
    obtain ⟨array', hcall, rfl⟩ := h
    have hp : array'.Perm (array ++ added call) := hadd call rfl _ _ hcall
    cases pc with
    | done value => exact hp.cons value
    | _ => exact hp

/-- **Nothing is lost or duplicated**: in every interleaving of `PopRand`'s two steps with
other threads' calls that only add elements, the value `PopRand` returns and the final slice
are the first slice and everything those calls added, in some order. -/
theorem run_conserves (added : (List α → Option (List α)) → List α) {c c' : PopRandConfig α}
    {es : List (PopRandEvent α)} (hadd : ∀ call, .other call ∈ es → Adds call (added call))
    (h : c.run es = some c') : c'.held.Perm (c.held ++ es.flatMap (·.adds added)) := by
  induction es generalizing c with
  | nil => cases h; simp
  | cons e es ih =>
    rw [run_cons, Option.bind_eq_some] at h
    obtain ⟨c₁, h₁, h₂⟩ := h
    have hstep := step_conserves added (fun call he => hadd call (he ▸ List.mem_cons_self _ _)) h₁
    have hrun := ih (fun call hc => hadd call (List.mem_cons_of_mem _ hc)) h₂
    rw [List.flatMap_cons, ← List.append_assoc]
    exact hrun.trans (hstep.append_right _)

theorem run_conserves_append :
    (∀ call, PopRandEvent.other call ∈
        [.draw 2, .other fun a => some (a ++ [4]), (.remove : PopRandEvent Int)] →
          Adds call [4]) ∧
      (⟨[1, 2, 3], .start⟩ : PopRandConfig Int).run
          [.draw 2, .other fun a => some (a ++ [4]), .remove] = some ⟨[1, 2, 4], .done 3⟩ ∧
      (⟨[1, 2, 4], .done 3⟩ : PopRandConfig Int).held.Perm
        ((⟨[1, 2, 3], .start⟩ : PopRandConfig Int).held ++
          [.draw 2, .other fun a => some (a ++ [4]), (.remove : PopRandEvent Int)].flatMap
            (·.adds fun _ => [4])) :=
  have hadd : ∀ call, PopRandEvent.other call ∈
      [.draw 2, .other fun a => some (a ++ [4]), (.remove : PopRandEvent Int)] →
        Adds call [4] := by
    simp only [List.mem_cons, reduceCtorEq, PopRandEvent.other.injEq, false_or, List.mem_nil_iff,
      or_false]
    rintro _ rfl a a' h
    cases h
    exact List.Perm.refl _
  have h : (⟨[1, 2, 3], .start⟩ : PopRandConfig Int).run
      [.draw 2, .other fun a => some (a ++ [4]), .remove] = some ⟨[1, 2, 4], .done 3⟩ := by
    decide
  ⟨hadd, h, run_conserves (fun _ => [4]) hadd h⟩

/-! ## Runs whose other calls never shorten the slice -/

/-- A call that never shortens the slice (`PushLeft`, `PushRight`, `Add`, ...). -/
def Grows (call : List α → Option (List α)) : Prop :=
  ∀ array array', call array = some array' → array.length ≤ array'.length

/-- A call that never panics. -/
def Total (call : List α → Option (List α)) : Prop :=
  ∀ array, (call array).isSome

/-- Calls that never panic and never shorten the slice leave a slice at least as long. -/
theorem applyCalls_grows {calls : List (List α → Option (List α))}
    (hg : ∀ call ∈ calls, Grows call ∧ Total call) (array : List α) :
    ∃ array', applyCalls calls array = some array' ∧ array.length ≤ array'.length := by
  induction calls generalizing array with
  | nil => exact ⟨array, rfl, le_rfl⟩
  | cons call calls ih =>
    obtain ⟨hgrow, htotal⟩ := hg call (List.mem_cons_self _ _)
    obtain ⟨array₁, h₁⟩ := Option.isSome_iff_exists.1 (htotal array)
    obtain ⟨array', h', hl⟩ := ih (fun c hc => hg c (List.mem_cons_of_mem _ hc)) array₁
    exact ⟨array', by rw [applyCalls, h₁, Option.some_bind, h'], (hgrow _ _ h₁).trans hl⟩

/-- **`PopRand` completes when no other call shortens the slice or panics**: whatever those
calls do before its draw, between the draw and its `Remove`, and after, and whatever index
`grand.Intn` returns within the slice it reads, no step panics. On an empty slice no index is
in range, and the draw panics. -/
theorem run_completes {array : List α} {i : Nat} {pre mid post : List (List α → Option (List α))}
    (hg : ∀ call ∈ pre ++ mid ++ post, Grows call ∧ Total call)
    (hi : ∀ array₀, applyCalls pre array = some array₀ → i < array₀.length) :
    ∃ array' value, (⟨array, .start⟩ : PopRandConfig α).run
      (pre.map .other ++ (.draw i :: mid.map .other ++ [.remove]) ++ post.map .other) =
        some ⟨array', .done value⟩ := by
  obtain ⟨array₀, h₀, -⟩ :=
    applyCalls_grows (fun call (hc : call ∈ pre) => hg call (by simp [hc])) array
  obtain ⟨array₁, h₁, hl⟩ :=
    applyCalls_grows (fun call (hc : call ∈ mid) => hg call (by simp [hc])) array₀
  have hi₁ : i < array₁.length := (hi _ h₀).trans_le hl
  obtain ⟨array', h', -⟩ :=
    applyCalls_grows (fun call (hc : call ∈ post) => hg call (by simp [hc])) (array₁.eraseIdx i)
  refine ⟨array', array₁[i], ?_⟩
  simp only [run_append, run_others, h₀, h₁, h', Option.map_some', Option.some_bind, run_cons,
    List.cons_append, step_draw _ (hi _ h₀), step_remove, dif_pos hi₁, run_nil]

theorem run_completes_append :
    (∀ call ∈ [] ++ [fun a : List Int => some (a ++ [4])] ++ [], Grows call ∧ Total call) ∧
      (∀ array₀, applyCalls [] [(1 : Int), 2, 3] = some array₀ → 2 < array₀.length) ∧
      ∃ array' value, (⟨[1, 2, 3], .start⟩ : PopRandConfig Int).run
        (([] : List (List Int → Option (List Int))).map .other ++
          (.draw 2 :: [fun a : List Int => some (a ++ [4])].map .other ++ [.remove]) ++
            ([] : List (List Int → Option (List Int))).map .other) = some ⟨array', .done value⟩ :=
  have hg : ∀ call ∈ [] ++ [fun a : List Int => some (a ++ [4])] ++ [],
      Grows call ∧ Total call := by
    simp only [List.nil_append, List.append_nil, List.mem_singleton]
    rintro _ rfl
    refine ⟨fun a a' h => ?_, fun _ => rfl⟩
    cases h
    simp
  have hi : ∀ array₀, applyCalls [] [(1 : Int), 2, 3] = some array₀ → 2 < array₀.length := by
    rintro _ ⟨⟩
    decide
  ⟨hg, hi, run_completes hg hi⟩

/-! ## Linearizability -/

/-- A drawn index waits out other threads' calls that do not shorten the slice: the run ends
where the same calls followed by the draw and the `Remove` end. -/
theorem run_drawn_others {i : Nat} {calls : List (List α → Option (List α))}
    (hg : ∀ call ∈ calls, Grows call) : ∀ {array : List α}, i < array.length →
      (⟨array, .drawn i⟩ : PopRandConfig α).run (calls.map .other ++ [.remove]) =
        (⟨array, .start⟩ : PopRandConfig α).run (calls.map .other ++ [.draw i, .remove]) := by
  induction calls with
  | nil =>
    intro array hi
    simp only [List.map_nil, List.nil_append, run_cons, step_draw _ hi, Option.some_bind]
  | cons call calls ih =>
    intro array hi
    simp only [List.map_cons, List.cons_append, run_cons, step]
    cases hc : call array with
    | none => rfl
    | some array' =>
      exact ih (fun c hc' => hg c (List.mem_cons_of_mem _ hc'))
        (lt_of_lt_of_le hi (hg call (List.mem_cons_self _ _) _ _ hc))

/-- **`PopRand` is linearizable at its `Remove`** when no other call shortens the slice: an
interleaving of its draw, other threads' calls and its locked `Remove(i)` ends where those
calls followed by an uninterrupted `PopRand` drawing the same index end. -/
theorem run_linearizable {array : List α} {i : Nat} {calls : List (List α → Option (List α))}
    (hg : ∀ call ∈ calls, Grows call) (hi : i < array.length) :
    (⟨array, .start⟩ : PopRandConfig α).run (.draw i :: calls.map .other ++ [.remove]) =
      (⟨array, .start⟩ : PopRandConfig α).run (calls.map .other ++ [.draw i, .remove]) := by
  rw [List.cons_append, run_cons, step_draw _ hi, Option.some_bind]
  exact run_drawn_others hg hi

theorem run_linearizable_append :
    (∀ call ∈ [fun a : List Int => some (a ++ [4])], Grows call) ∧ 2 < [(1 : Int), 2, 3].length ∧
      (⟨[1, 2, 3], .start⟩ : PopRandConfig Int).run
          (.draw 2 :: [fun a : List Int => some (a ++ [4])].map .other ++ [.remove]) =
        (⟨[1, 2, 3], .start⟩ : PopRandConfig Int).run
          ([fun a : List Int => some (a ++ [4])].map .other ++ [.draw 2, .remove]) :=
  have hg : ∀ call ∈ [fun a : List Int => some (a ++ [4])], Grows call := by
    simp only [List.mem_singleton]
    rintro _ rfl a a' h
    simp only [Option.some.injEq] at h
    simp [← h]
  ⟨hg, by decide, run_linearizable hg (by decide)⟩

end PopRandConfig

/-- `PopRand` on `[1, 2, 3]` draws `2`; two `PopLeft` calls of another thread run before its
`Remove(2)`, which then finds the slice `[3]` and panics. The same for strings. -/
theorem popRand_interleaved_panics :
    (⟨[1, 2, 3], .start⟩ : PopRandConfig Int).run
        [.draw 2, .call popLeft, .call popLeft] = some ⟨[3], .drawn 2⟩ ∧
      (⟨[1, 2, 3], .start⟩ : PopRandConfig Int).run
        [.draw 2, .call popLeft, .call popLeft, .remove] = some ⟨[3], .panicked⟩ ∧
      (⟨[⟨[97]⟩, ⟨[98]⟩, ⟨[99]⟩], .start⟩ : PopRandConfig GoString).run
        [.draw 2, .call popLeft, .call popLeft, .remove] = some ⟨[⟨[99]⟩], .panicked⟩ := by
  decide

end Garray
