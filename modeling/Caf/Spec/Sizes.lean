import Caf.Spec.Fuzzing

/-!
# Sizes

The bounds that the options set: on the nesting of values, on strings and arrays, and on calls and arguments.

* `LevelsLE`: how deep a value nests.
* `WithinBounds`: the bounds of a generated value.
* `TestCase.WithinLimits`: the bounds of a test case.
-/

namespace Caf

open ObjectGraph

/-- The value at `a` has at most `n` levels. An array has one more than its elements, and no value has none. -/
inductive LevelsLE (h : Heap) : ℕ → Addr → Prop
  | flat {n a v} : h[a]? = some v → (∀ es, v ≠ .array es) → LevelsLE h (n + 1) a
  | array {n a es} : h[a]? = some (.array es) → (∀ e ∈ es, LevelsLE h n e) → LevelsLE h (n + 1) a

/-- The bounds on a string or an array. -/
def Sized (o : Options) (v : Value) : Prop :=
  (∀ s, v = .literal (.string s) → s.length ≤ o.maxStringLength) ∧
    ∀ es, v = .array es → es.length ≤ o.maxArrayLength

/-- The strings that can be chosen from the pool are no longer than `n`. -/
def ObjectPool.StringsWithin (p : ObjectPool) (n : ℕ) : Prop :=
  ∀ (a : Addr) s, a ∈ p.values → p.heap[a]? = some (.literal (.string s)) → s.length ≤ n

/-- **The bounds of a generated value**, made from the pool `p` for call `n`: its levels, the sizes of its strings and
arrays, and the indexes of its placeholders; its arrays are new, and none occurs twice. -/
structure WithinBounds (o : Options) (n : ℕ) (p : ObjectPool) (a : Addr) (q : ObjectPool) : Prop where
  levels : LevelsLE q.heap (max 1 o.maxDepth) a
  objects : ∀ b, Reach q.heap.graph a b → ∃ v, q.heap[b]? = some v ∧ Sized o v ∧ ∀ j, v = .placeholder j → j < n
  fresh : ∀ b, Reach q.heap.graph a b → IsArray q.heap b → p.heap.length ≤ b
  once : ∀ path path' b, q.heap.follow path a = some b → q.heap.follow path' a = some b → IsArray q.heap b →
    path = path'

/-- **The bounds of a test case.** -/
def TestCase.WithinLimits (o : Options) (tc : TestCase) : Prop :=
  1 ≤ tc.calls.length ∧ tc.calls.length ≤ o.maxCalls ∧ ∀ call ∈ tc.calls, call.args.length ≤ o.maxArguments

/-- The operators of strings and arrays have something to do: an empty string may grow, and so may an empty array. -/
def Workable (o : Options) (v : Value) : Prop :=
  (v = .literal (.string []) → o.maxStringLength ≠ 0) ∧ (v = .array [] → o.maxArrayLength ≠ 0)

/-- **Mutation stays within the depth**: whatever is drawn, there is a mutated value, and it has no more levels than
allowed. -/
def MutatesWithinDepth (gen : TestCaseGenerator) (root n : ℕ) (pool : ObjectPool) (a : Addr) : Prop :=
  ∀ rnd, ∃ a' s', TestCaseMutator.mutateValue gen root n a ⟨pool, rnd⟩ = .ok (a', s') ∧
    LevelsLE s'.heap gen.options.maxDepth a'

/-- No value of the test case has more than `n` levels. -/
def TestCase.LevelsWithin (n : ℕ) (h : Heap) (tc : TestCase) : Prop :=
  ∀ call ∈ tc.calls, ∀ a ∈ call.roots, LevelsLE h n a

end Caf
