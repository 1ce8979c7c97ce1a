import Caf.Bytes.Checked
import Caf.Spec.Requests

/-!
# How long the values of the pool live

`clear` destroys the values that `_values` owns. A `PoolRun` is a pool that remembers which objects it has destroyed,
so that a pointer to one of them is seen to dangle: addresses are not used again.
-/

namespace Caf

/-- A call of a public operation of `ObjectPool`, or of `CreateValue`, for any value. -/
inductive PoolCall where
  | request (op : PoolOp)
  | createValue (v : Value)

/-- A string or an integer that has a place in a table: at most ten bytes, or from -100 to 399. -/
def PoolOp.Tabled : PoolOp → Prop
  | get (.string s) => s.length ≤ maxStringLenInTable
  | get (.integer value) => -100 ≤ value.toInt ∧ value.toInt < 400
  | _ => False

/-- The documentation of `clear` says that the value is not deleted. -/
def PoolOp.Promised : PoolOp → Prop
  | get .undefined => True
  | get .null => True
  | get (.boolean _) => False
  | get (.function _) => True
  | get (.float x) => x.isNaN = true ∨ x.isInf = true
  | getPlaceholder _ => True
  | op => op.Tabled

namespace PoolCall

/-- The object returned, if there is one, and the pool afterwards. -/
def apply (p : ObjectPool) : PoolCall → Option Addr × ObjectPool
  | request op => op.apply p
  | createValue v => (some (p.createValue v).1, (p.createValue v).2)

/-- The objects that a call destroys. -/
def destroys (p : ObjectPool) : PoolCall → List Addr
  | request .clear => p.values
  | _ => []

end PoolCall

/-- A pool, and the objects that it has destroyed. -/
structure PoolRun where
  pool : ObjectPool
  destroyed : List Addr

namespace PoolRun

def new : PoolRun := ⟨.new, []⟩

def step (r : PoolRun) (call : PoolCall) : PoolRun :=
  ⟨(call.apply r.pool).2, r.destroyed ++ call.destroys r.pool⟩

def run (r : PoolRun) (calls : List PoolCall) : PoolRun := calls.foldl step r

/-- The pointer designates a live object, and the object holds `v`. -/
def Designates (r : PoolRun) (a : Addr) (v : Value) : Prop := a ∉ r.destroyed ∧ r.pool.heap[a]? = some v

end PoolRun

/-- **`clear` keeps its promises**: a pointer that was returned for a promised value still designates the value, with
the same content, when there has been a `clear` since. -/
def KeepsPromises (calls : List PoolCall) : Prop :=
  ∀ before op after, calls = before ++ .request op :: after → op.Promised → .request .clear ∈ after →
    ∃ a v, (op.apply (PoolRun.new.run before).pool).1 = some a ∧
      (PoolRun.new.run (before ++ [.request op])).Designates a v ∧ (PoolRun.new.run calls).Designates a v

/-- Nothing that has a place in a table is asked for before a `clear`. -/
def NoneTabled (calls : List PoolCall) : Prop :=
  ∀ before op after, calls = before ++ .request op :: after → .request .clear ∈ after → ¬ op.Tabled

/-- The index that `GetOrCreateIntegerValue` computes, if it is in the table, with the operations of `int32_t` and the
conversion to `size_t`. -/
def tableIndex (value : Int32) : Option (Option ℕ) := do
  let limit ← Checked.sub Int32.maxValue (Int32.ofInt integerBias)
  if value.toInt ≤ limit.toInt then
    let sum ← Checked.add value (Int32.ofInt integerBias)
    let index := (sum.toInt % 2 ^ 64).toNat
    return if index < integerTableSize then some index else none
  else return none

/-- **The tables hold live, canonical entries**: those of the values that the pool owns. -/
structure TablesLive (r : PoolRun) : Prop where
  intTable : ∀ i a, r.pool.intTable i = some a → i < integerTableSize ∧ a ∈ r.pool.values ∧
    r.Designates a (.literal (.integer (Int32.ofInt (i - integerBias))))
  strToValue : ∀ s a, r.pool.strToValue s = some a → s.length ≤ maxStringLenInTable ∧ a ∈ r.pool.values ∧
    r.Designates a (.literal (.string s))

/-- **The table of integers is used right**: the index is computed without overflow, it is in the table just if the
integer has a place there, and the entry is the object that is returned; other integers get an object of their own. -/
structure IndexedRight (p : ObjectPool) (value : Int32) : Prop where
  index : tableIndex value =
    some (if -100 ≤ value.toInt ∧ value.toInt < 400 then some (value.toInt + 100).toNat else none)
  inTable : -100 ≤ value.toInt ∧ value.toInt < 400 → (value.toInt + 100).toNat < integerTableSize ∧
    (p.getOrCreateIntegerValue value).2.intTable (value.toInt + 100).toNat = some (p.getOrCreateIntegerValue value).1
  outside : ¬ (-100 ≤ value.toInt ∧ value.toInt < 400) →
    p.getOrCreateIntegerValue value = p.createValue (.literal (.integer value))

end Caf
