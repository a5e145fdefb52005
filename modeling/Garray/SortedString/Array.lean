import Garray.Common
import Garray.SortedString.Add
import Garray.SortedString.Unique
/-!
# `SortedStringArray` (garray_sorted_string.go)

| here | there |
| --- | --- |
| `SortedStringArray` | the struct (22-28): `mu` as its mode `safe` (`mu.IsSafe()`), `array`, `unique` |
| `newSortedStringArray…` | the constructors (30-68) |
| `setArray`, `sort` | 70-87 |
| `add`, `merge` | 89-113, 437-459 (`gconv.Strings` of the source is the argument) |
| `remove`, `popLeft` … `popRights` | 124-210, through `Common` |
| `range`, `subSlice` | 219-290, through `Common` |
| `chunk`, `rands` | 464-506, through `Common` |
| `search`, `contains` | 326-338 |
| `setUnique`, `Unique` | 372-400 |
| `clone`, `clear` | 402-419 |
| `get`, `rand`, `countValues` | 116-122, 484-489, 522-531 (`countValues` through `Common`) |
| `Op`, `step`, `run` | one locked method call as one step; a sequence of calls |
| `Reachable` | the states the constructors and `Clone` build and the methods reach |

The comparator field is `strings.Compare` in every constructor and nothing replaces it, so
it is not a field here. `rwmutex.New(unsafe...)` (outside `src/`) gives a safe lock unless
`unsafe` (here `unsafeMode`) is true. Random draws (`grand.Intn`) are arguments of the
operations. Writes made in `LockFunc` callbacks or through slices shared with a caller are
outside the model.
-/
namespace Garray

/-- A `SortedStringArray`. -/
structure SortedStringArray where
  safe : Bool
  array : List GoString
  unique : Bool
deriving DecidableEq, Repr

/-- `NewSortedStringArraySize(cap, unsafe...)`: `make([]string, 0, cap)` panics for a
negative `cap` and when `cap` strings of 16 bytes pass `maxAlloc`. -/
def newSortedStringArraySize (cap : Int) (unsafeMode : Bool) : Option SortedStringArray :=
  if 0 ≤ cap ∧ cap * 16 ≤ maxAlloc then some ⟨!unsafeMode, [], false⟩ else none

/-- `NewSortedStringArray(unsafe...)`. -/
def newSortedStringArray (unsafeMode : Bool) : SortedStringArray := ⟨!unsafeMode, [], false⟩

/-- `NewSortedStringArrayFrom(array, unsafe...)`: the caller's slice, sorted in place. -/
def newSortedStringArrayFrom (array : List GoString) (unsafeMode : Bool) : SortedStringArray :=
  ⟨!unsafeMode, sortStrings array, false⟩

/-- `NewSortedStringArrayFromCopy(array, unsafe...)`: the same on a copy. -/
def newSortedStringArrayFromCopy (array : List GoString) (unsafeMode : Bool) : SortedStringArray :=
  newSortedStringArrayFrom array unsafeMode

namespace SortedStringArray

variable (s : SortedStringArray)

/-- `SetArray(array)`. -/
def setArray (array : List GoString) : SortedStringArray := { s with array := sortStrings array }

/-- `Sort()`. -/
def sort : SortedStringArray := { s with array := sortStrings s.array }

/-- A method that replaces the backing slice and returns a value. -/
def onArray {β : Type} (f : List GoString → Option (β × List GoString)) :
    Option (β × SortedStringArray) :=
  (f s.array).map fun (value, array) => (value, { s with array })

/-- `Add(values...)`. -/
def add (values : List GoString) : Option SortedStringArray := do
  let array ← addLoop s.unique s.array values
  return { s with array }

/-- `Merge(array)`: `Add` of the source's elements converted by `gconv.Strings`. -/
def merge (values : List GoString) : Option SortedStringArray := s.add values

/-- `Remove(index)`. -/
def remove (index : GoInt) : Option (GoString × SortedStringArray) :=
  s.onArray (Garray.remove · index.val)

/-- `PopLeft()`. -/
def popLeft : Option (GoString × SortedStringArray) := s.onArray Garray.popLeft

/-- `PopRight()`. -/
def popRight : Option (GoString × SortedStringArray) := s.onArray Garray.popRight

/-- `PopRand()`, `draw` being what `grand.Intn` returned. -/
def popRand (draw : Nat) : Option (GoString × SortedStringArray) :=
  s.onArray (Garray.popRand · draw)

/-- `PopRands(size)`. -/
def popRands (size : GoInt) (draws : List Nat) : Option (List GoString × SortedStringArray) :=
  s.onArray (Garray.popRands · size.val draws)

/-- `PopLefts(size)`. -/
def popLefts (size : GoInt) : Option (List GoString × SortedStringArray) :=
  s.onArray (Garray.popLefts · size.val)

/-- `PopRights(size)`. -/
def popRights (size : GoInt) : Option (List GoString × SortedStringArray) :=
  s.onArray (Garray.popRights · size.val)

/-- `Range(start, end...)`. -/
def range (start : GoInt) (endArg : Option GoInt) : Option (List GoString) :=
  Garray.range s.safe s.array start.val (endArg.map GoInt.val)

/-- `SubSlice(offset, length...)`. -/
def subSlice (offset : GoInt) (length : Option GoInt) : Option (List GoString) :=
  Garray.subSlice 16 s.safe s.array offset.val (length.map GoInt.val)

/-- `Rands(size)`, `perm` being what `grand.Perm(len(a.array))` returned. -/
def rands (size : GoInt) (perm : List Nat) : Option (List GoString) :=
  Garray.rands s.array size.val perm

/-- `Chunk(size)`. -/
def chunk (size : GoInt) : Option (List (List GoString)) := Garray.chunk s.array size.val

/-- `Unique()`; named with its Go capital, `unique` being the flag. -/
def Unique : Option SortedStringArray := do
  let array ← uniqueArray s.array
  return { s with array }

/-- `SetUnique(unique)`: set the flag, and deduplicate when it goes from off to on. -/
def setUnique (unique : Bool) : Option SortedStringArray :=
  let oldUnique := s.unique
  let s := { s with unique }
  if unique && oldUnique != unique then s.Unique else some s

/-- `Clear()`. -/
def clear : SortedStringArray := { s with array := [] }

/-- `Clone()`: `NewSortedStringArrayFrom` of a copy, in the same lock mode. -/
def clone : SortedStringArray := newSortedStringArrayFrom s.array (!s.safe)

/-- `Search(value)`: the index of an exact match, else `-1`. -/
def search (value : GoString) : Option Int := do
  let (i, r) ← binSearch s.array value
  return if r = 0 then i else -1

/-- `Contains(value)`. -/
def contains (value : GoString) : Option Bool := do
  let i ← s.search value
  return i != -1

/-- `Get(index)`. -/
def get (index : GoInt) : Option GoString := goIndex s.array index.val

/-- `Rand()`, `draw` being what `grand.Intn(len(a.array))` returned. -/
def rand (draw : Nat) : Option GoString :=
  if draw < s.array.length then goIndex s.array draw else none

/-- `CountValues()`. -/
def countValues : List (GoString × Int) := Garray.countValues s.array

end SortedStringArray

/-! ## Runs -/

/-- A call of one method of `SortedStringArray`, with its arguments and random draws. -/
inductive Op where
  | add (values : List GoString)
  | merge (values : List GoString)
  | setArray (array : List GoString)
  | sort
  | remove (index : GoInt)
  | popLeft
  | popRight
  | popRand (draw : Nat)
  | popRands (size : GoInt) (draws : List Nat)
  | popLefts (size : GoInt)
  | popRights (size : GoInt)
  | setUnique (unique : Bool)
  | unique
  | clear
  | search (value : GoString)
  | contains (value : GoString)
  | range (start : GoInt) (endArg : Option GoInt)
  | subSlice (offset : GoInt) (length : Option GoInt)
  | slice
  | len
deriving DecidableEq

/-- What a call returns; `self` is the receiver, returned for chaining. -/
inductive Ret where
  | self
  | value (v : GoString)
  | values (vs : List GoString)
  | index (i : Int)
  | flag (b : Bool)
  | length (n : Nat)
deriving DecidableEq, Repr

namespace SortedStringArray

/-- One method call, under the lock; `none` where the call panics. -/
def step (s : SortedStringArray) : Op → Option (SortedStringArray × Ret)
  | .add values => (s.add values).map (·, .self)
  | .merge values => (s.merge values).map (·, .self)
  | .setArray array => some (s.setArray array, .self)
  | .sort => some (s.sort, .self)
  | .remove index => (s.remove index).map fun (v, s) => (s, .value v)
  | .popLeft => s.popLeft.map fun (v, s) => (s, .value v)
  | .popRight => s.popRight.map fun (v, s) => (s, .value v)
  | .popRand draw => (s.popRand draw).map fun (v, s) => (s, .value v)
  | .popRands size draws => (s.popRands size draws).map fun (vs, s) => (s, .values vs)
  | .popLefts size => (s.popLefts size).map fun (vs, s) => (s, .values vs)
  | .popRights size => (s.popRights size).map fun (vs, s) => (s, .values vs)
  | .setUnique unique => (s.setUnique unique).map (·, .self)
  | .unique => s.Unique.map (·, .self)
  | .clear => some (s.clear, .self)
  | .search value => (s.search value).map fun i => (s, .index i)
  | .contains value => (s.contains value).map fun b => (s, .flag b)
  | .range start endArg => (s.range start endArg).map fun vs => (s, .values vs)
  | .subSlice offset length => (s.subSlice offset length).map fun vs => (s, .values vs)
  | .slice => some (s, .values s.array)
  | .len => some (s, .length s.array.length)

/-- A sequence of calls: the final state and every call's return value. -/
def run (s : SortedStringArray) : List Op → Option (SortedStringArray × List Ret)
  | [] => some (s, [])
  | op :: ops => do
    let (s, r) ← s.step op
    let (s, rs) ← run s ops
    return (s, r :: rs)

end SortedStringArray

open SortedStringArray in
/-- The states a program can build: a constructor, `Clone`, then any method calls. -/
inductive Reachable : SortedStringArray → Prop
  | new (unsafeMode : Bool) : Reachable (newSortedStringArray unsafeMode)
  | newSize {cap : Int} {unsafeMode : Bool} {s : SortedStringArray} :
      newSortedStringArraySize cap unsafeMode = some s → Reachable s
  | newFrom (array : List GoString) (unsafeMode : Bool) :
      Reachable (newSortedStringArrayFrom array unsafeMode)
  | newFromCopy (array : List GoString) (unsafeMode : Bool) :
      Reachable (newSortedStringArrayFromCopy array unsafeMode)
  | clone {s : SortedStringArray} : Reachable s → Reachable s.clone
  | step {s s' : SortedStringArray} {op : Op} {r : Ret} :
      Reachable s → s.step op = some (s', r) → Reachable s'

end Garray
