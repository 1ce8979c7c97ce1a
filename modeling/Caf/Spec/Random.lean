import Caf.Run.Ensures
import Caf.Spec.ObjectPool
import Caf.Spec.Store

/-!
# Random choices

The generator and the mutator draw from a `Random<>` and create values in an `ObjectPool`. A random
number generator is the stream of the raw numbers that it will yield, so every sequence of random
choices is the one of some stream.
-/

namespace Caf

/-- What `TestCaseGenerator` and `TestCaseMutator` change: their pool and their random number
generator. -/
structure Fuzzer where
  pool : ObjectPool
  rnd : ℕ → ℕ

/-- The heap of the pool. -/
abbrev Fuzzer.heap (s : Fuzzer) : Heap := s.pool.heap

/-- A program of the fuzzer. -/
abbrev FuzzM := StateT Fuzzer (Except Error)

/-- Ask the pool for a value. -/
def givePool (f : ObjectPool → Addr × ObjectPool) : FuzzM Addr := fun s =>
  .ok ((f s.pool).1, { s with pool := (f s.pool).2 })

/-- Read the object at `a`. -/
def readValue (a : Addr) : FuzzM Value := fun s =>
  match s.heap[a]? with
  | some v => .ok (v, s)
  | none => .error .badPointer

/-- `size() - 1`, which wraps around. -/
def lastIndex (size : ℕ) : ℕ := if size = 0 then 2 ^ 64 - 1 else size - 1

namespace Random

/-- One raw number. -/
def draw : FuzzM ℕ := fun s => .ok (s.rnd 0, { s with rnd := fun n => s.rnd (n + 1) })

/-- `Next<size_t>(min, max)`, which is undefined for an empty range. -/
def next (min max : ℕ) : FuzzM ℕ :=
  if min ≤ max then return min + (← draw) % (max - min + 1) else throw .emptyRange

/-- `Next<int32_t>(min, max)`. -/
def nextInt (min max : Int) : FuzzM Int :=
  if min ≤ max then return min + ((← draw) % (max - min + 1).toNat : ℕ) else throw .emptyRange

/-- The bits of `1.0`. -/
def one : Double := 0x3ff0000000000000

/-- A real number in [0, `max`], for a `max` that is not negative: there, doubles are ordered as
their bits are. -/
def nextReal (max : Double) : FuzzM Double :=
  return UInt64.ofNat ((← draw) % (max.toNat + 1))

/-- `Next<double>()`. -/
def nextDouble : FuzzM Double := nextReal one

/-- `Next<double>(-max, max)`. -/
def nextSigned (max : Double) : FuzzM Double := do
  let negative := (← draw) % 2 = 1
  let x ← nextReal max
  return if negative then x ||| 0x8000000000000000 else x

/-- `WithProbability`, for a `p` that is not negative. -/
def withProbability (p : Double) : FuzzM Bool :=
  if p = 0 then return false
  else if one ≤ p then return true
  else return (← nextDouble) < p

/-- `Select`, which is undefined for an empty container. -/
def select {α : Type} (l : List α) : FuzzM α :=
  if l.isEmpty then throw .emptyRange else do
    match l[← next 0 (lastIndex l.length)]? with
    | some a => return a
    | none => throw .outOfRange

/-- `Index`. -/
def index {α : Type} (l : List α) : FuzzM ℕ :=
  if l.isEmpty then throw .emptyRange else next 0 (lastIndex l.length)

/-- `NextString(minLength, maxLength, charset)`. -/
def nextString (minLength maxLength : ℕ) (charset : StdString) : FuzzM StdString := do
  let length ← next minLength maxLength
  (List.replicate length ()).mapM fun _ => select charset

/-! ### What is drawn -/

/-- A number from a range that is not empty. -/
theorem next_ok {min max : ℕ} (s : Fuzzer) (h : min ≤ max) :
    ∃ n rnd, min ≤ n ∧ n ≤ max ∧ next min max s = .ok (n, { s with rnd := rnd }) := by
  have hlt : s.rnd 0 % (max - min + 1) < max - min + 1 := Nat.mod_lt _ (Nat.succ_pos _)
  refine ⟨min + s.rnd 0 % (max - min + 1), fun n => s.rnd (n + 1), Nat.le_add_right _ _, by omega, ?_⟩
  unfold next
  rw [if_pos h]
  rfl

theorem lastIndex_lt {size : ℕ} (h : size ≠ 0) {n : ℕ} (hn : n ≤ lastIndex size) : n < size := by
  unfold lastIndex at hn
  rw [if_neg h] at hn
  omega

/-- **An element** of a container that is not empty. -/
theorem select_mem {α : Type} {l : List α} (s : Fuzzer) (h : l ≠ []) :
    ∃ a rnd, a ∈ l ∧ select l s = .ok (a, { s with rnd := rnd }) := by
  have hlen : l.length ≠ 0 := fun h₀ => h (List.length_eq_zero_iff.1 h₀)
  obtain ⟨n, rnd, -, hn, hnext⟩ := next_ok s (Nat.zero_le (lastIndex l.length))
  have hlt := lastIndex_lt hlen hn
  refine ⟨l[n], rnd, List.getElem_mem hlt, ?_⟩
  unfold select
  rw [if_neg (by simpa using h)]
  show (next 0 (lastIndex l.length) s >>= fun p => _) = _
  rw [hnext]
  simp only [bind, Except.bind, List.getElem?_eq_getElem hlt]
  rfl

end Random

/-- `ObjectPool::SelectValue`. -/
def ObjectPool.selectValue : FuzzM Addr := fun s => Random.select s.pool.values s

namespace CAFStore

/-- `GetEntry`. -/
def entryAt (store : CAFStore) (index : ℕ) : FuzzM Entry := fun s => (store.getEntry index).map (·, s)

/-- `Entry::SelectDescendent`. -/
def selectDescendent (entry : Entry) : FuzzM ℕ := Random.select entry.descendents

/-- `GetEntry(rootEntryIndex)->SelectDescendent(rnd)->GetFunction().id()`. -/
def selectFunction (store : CAFStore) (rootEntryIndex : ℕ) : FuzzM FunctionIdType := do
  let entry ← store.entryAt rootEntryIndex
  let descendent ← store.entryAt (← selectDescendent entry)
  let f ← (fun s => descendent.getFunction.map (·, s) : FuzzM Function)
  return f.id

end CAFStore

end Caf
