import Caf.Spec.Correspondence
import Caf.Spec.Fuzzing

/-!
# What a mutation leaves alone

Five operators of the mutator write to one call. Everything else should look the same as before, although arrays can
be shared between calls.

* `SameStructure`: two values look the same, as deep as one looks.
* `LeavesAlone`: what an operator should leave alone.
-/

namespace Caf

/-- **The same structure**: kinds, contents and elements, through any number of arrays. -/
def SameStructure (h : Heap) (a : Addr) (h' : Heap) (a' : Addr) : Prop :=
  ∃ R : Addr → Addr → Prop, SameValue Eq h h' R a a' ∧
    ∀ b b' es es', R b b' → h[b]? = some (.array es) → h'[b']? = some (.array es') →
      List.Forall₂ (SameValue Eq h h' R) es es'

/-- The operators that write to one call. -/
inductive CallOperator where
  | mutateThis | mutateCtor | addArgument | removeArgument | mutateArgument

namespace CallOperator

def run (gen : TestCaseGenerator) : CallOperator → TestCase → FuzzM TestCase
  | mutateThis => TestCaseMutator.mutateThis gen
  | mutateCtor => TestCaseMutator.mutateCtor
  | addArgument => TestCaseMutator.addArgument gen
  | removeArgument => TestCaseMutator.removeArgument
  | mutateArgument => TestCaseMutator.mutateArgument gen

/-- **What the operator may do to the chosen call**: all but one position keep their objects. -/
def Edits (call call' : FunctionCall) : CallOperator → Prop
  | mutateThis => ∃ a, call' = { call with thisValue := some a }
  | mutateCtor => call' = { call with ctor := !call.ctor }
  | addArgument => ∃ a, call' = { call with args := call.args ++ [a] }
  | removeArgument => ∃ i < call.args.length, call' = { call with args := call.args.eraseIdx i }
  | mutateArgument => ∃ i < call.args.length, ∃ a, call' = { call with args := call.args.set i a }

end CallOperator

/-- **Everything else is left alone**: the other calls, the other positions of the chosen call, the structure of all
values that were there, and the elements of all arrays that were there. -/
structure LeavesAlone (op : CallOperator) (h : Heap) (tc : TestCase) (h' : Heap) (tc' : TestCase) : Prop where
  root : tc'.storeRootEntryIndex = tc.storeRootEntryIndex
  length : tc'.calls.length = tc.calls.length
  calls : ∃ (n : ℕ) (call call' : FunctionCall), tc.calls[n]? = some call ∧ tc'.calls[n]? = some call' ∧ op.Edits call call' ∧
    ∀ m : ℕ, m ≠ n → tc'.calls[m]? = tc.calls[m]?
  values : ∀ call ∈ tc.calls, ∀ a ∈ call.roots, SameStructure h a h' a
  arrays : ∀ (b : Addr) es, h[b]? = some (.array es) → h'[b]? = some (.array es)

end Caf
