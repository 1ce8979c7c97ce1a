import Caf.Spec.Mutator

/-!
# Retargeted references

What a test case becomes when a call is inserted or removed: placeholders are replaced, in the positions of
calls and in arrays, and everything else stays where it is. Arrays are written to in place, so they are still
shared as before.

* `Retargets`: what a value becomes.
* `Retargeted`: the values in all calls, and the arrays that can be reached from them.
-/

namespace Caf

open ObjectGraph

/-- What may take the place of the placeholder with this index in this call, in a heap. -/
abbrev Replacement := ℕ → ℕ → Heap → Addr → Prop

/-- There is an array at `a`. -/
def IsArray (h : Heap) (a : Addr) : Prop := ∃ es, h[a]? = some (.array es)

/-- **What the value at `a` becomes** in call `k`: a placeholder is replaced, and everything else has the same
address as before. -/
inductive Retargets (R : Replacement) (k : ℕ) (h h' : Heap) : Addr → Addr → Prop
  | literal {a l} : h[a]? = some (.literal l) → Retargets R k h h' a a
  | array {a} : IsArray h a → Retargets R k h h' a a
  | placeholder {a j a'} : h[a]? = some (.placeholder j) → R k j h' a' → Retargets R k h h' a a'

/-- **What a call becomes**: the values in its positions are retargeted. -/
structure RetargetedCall (R : Replacement) (k : ℕ) (h h' : Heap) (call call' : FunctionCall) : Prop where
  funcId : call'.funcId = call.funcId
  thisValue : List.Forall₂ (Retargets R k h h') call.thisValue.toList call'.thisValue.toList
  ctor : call'.ctor = call.ctor
  args : List.Forall₂ (Retargets R k h h') call.args call'.args

/-- Call `n` leads to the object at `b`. -/
def CallReaches (h : Heap) (calls : List FunctionCall) (n : ℕ) (b : Addr) : Prop :=
  ∃ call, calls[n]? = some call ∧ ∃ a ∈ call.roots, Reach h.graph a b

/-- Call `n` is the first that leads to the object at `b`. -/
def FirstReaches (h : Heap) (calls : List FunctionCall) (n : ℕ) (b : Addr) : Prop :=
  CallReaches h calls n b ∧ ∀ m < n, ¬ CallReaches h calls m b

/-- **What the calls become.** The elements of an array are replaced once, for the first call that leads
to it. -/
structure Retargeted (R : Replacement) (h : Heap) (calls : List FunctionCall) (h' : Heap)
    (calls' : List FunctionCall) : Prop where
  length : calls'.length = calls.length
  call : ∀ (n : ℕ) call call', calls[n]? = some call → calls'[n]? = some call' → RetargetedCall R n h h' call call'
  array : ∀ (n : ℕ) b es, CallReaches h calls n b → h[b]? = some (.array es) →
    ∃ m es', FirstReaches h calls m b ∧ h'[b]? = some (.array es') ∧ List.Forall₂ (Retargets R m h h') es es'
  flat : ∀ (b : Addr) v, h[b]? = some v → (∀ es, v ≠ .array es) → h'[b]? = some v
  rest : ∀ (b : Addr) v, h[b]? = some v → (∀ n, ¬ CallReaches h calls n b) → h'[b]? = some v

end Caf
