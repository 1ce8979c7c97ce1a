import Caf.Spec.Mutator
import Caf.Spec.Requests
import Caf.Spec.Retargeted
import Caf.Spec.Serializer

/-!
# Runs of the fuzzer

A fuzzer generates a test case and mutates it any number of times. In between, other values may be created, and
another pool may be used: the objects of all pools are in one memory.

* `Fuzzed`: the test cases that it can come to.
* `TreeShaped`: no array occurs twice.
* `WritesNoArrayReference`: no back reference to an array is written.
-/

namespace Caf

open ObjectGraph

/-- The entry leads to functions only, and to at least one. -/
def CAFStore.HasFunctions (store : CAFStore) (root : ℕ) : Prop :=
  store.descendents root ≠ [] ∧ ∀ d ∈ store.descendents root, (store.func d).isSome

/-- The id of a function that is held in the subtree of an entry. -/
def CAFStore.HeldIn (store : CAFStore) (root : ℕ) (id : FunctionIdType) : Prop :=
  ∃ d, store.InSubtree root d ∧ ∃ f, store.func d = some f ∧ f.id = id

/-- A pool after some operations, in a memory with other objects, and with any elements written into arrays in
between. -/
inductive ObjectPool.InMemory : ObjectPool → Prop
  | new : InMemory .new
  | op {p} (op : PoolOp) : InMemory p → InMemory (op.apply p).2
  | setArray {p a es} (es' : List Addr) : InMemory p → p.heap[a]? = some (.array es) →
      InMemory { p with heap := p.heap.set a (.array es') }
  | other {p} (v : Value) : InMemory p → InMemory { p with heap := p.heap ++ [v] }

/-- **Any number of mutations**, from a test case in a pool to another. -/
inductive Mutations (gen : TestCaseGenerator) (pool₀ : ObjectPool) (tc₀ : TestCase) : ObjectPool → TestCase → Prop
  | start : Mutations gen pool₀ tc₀ pool₀ tc₀
  | mutate {pool rnd tc tc' s} : Mutations gen pool₀ tc₀ pool tc →
      TestCaseMutator.mutate gen tc ⟨pool, rnd⟩ = .ok (tc', s) → Mutations gen pool₀ tc₀ s.pool tc'
  | create {pool pool' tc} : Mutations gen pool₀ tc₀ pool tc → pool'.InMemory → pool.heap <+: pool'.heap →
      Mutations gen pool₀ tc₀ pool' tc

/-- **A test case of a fuzzer**: generated from the root entry, and mutated. -/
def Fuzzed (gen : TestCaseGenerator) (root : ℕ) (pool : ObjectPool) (tc : TestCase) : Prop :=
  ∃ (pool₀ : ObjectPool) (rnd : ℕ → ℕ) (tc₀ : TestCase) (s₀ : Fuzzer), pool₀.InMemory ∧
    gen.generateTestCase root ⟨pool₀, rnd⟩ = .ok (tc₀, s₀) ∧ Mutations gen s₀.pool tc₀ pool tc

/-! ## Positions -/

/-- The object at the end of a path of indexes of elements. -/
def Heap.follow (h : Heap) : List ℕ → Addr → Option Addr
  | [], a => some a
  | i :: path, a =>
    match h[a]? with
    | some (.array es) => es[i]?.bind (h.follow path)
    | _ => none

/-- A position in a test case: a call, one of its values, and a path into this value. -/
structure Position where
  call : ℕ
  root : ℕ
  path : List ℕ

/-- The object at a position. -/
def TestCase.object (tc : TestCase) (h : Heap) (p : Position) : Option Addr :=
  tc.calls[p.call]?.bind fun call => call.roots[p.root]?.bind (h.follow p.path)

/-- **No array occurs at two positions, and none reaches itself.** -/
structure TreeShaped (h : Heap) (tc : TestCase) : Prop where
  once : ∀ p q a, tc.object h p = some a → tc.object h q = some a → IsArray h a → p = q
  acyclic : ∀ a, tc.Reaches h a → ¬ Relation.TransGen (Succ h.graph) a a

/-! ## References -/

/-- **Every back reference that is written** for the test case has the number of a return value, and not of an
array. -/
def WritesNoArrayReference (h : Heap) (tc : TestCase) : Prop :=
  ∃ Fs out, TestCaseSerializer.serialize h tc = .ok out ∧ out.out = encodeTestCase tc.storeRootEntryIndex Fs ∧
    ∀ st ∈ Fs, ∀ k ∈ st.head.backs ++ st.args.backs,
      (∃ i, out.context.retValueIndexes i = some k) ∧ ∀ a, out.context.valueIndexes a ≠ some k

end Caf
