import Caf.Spec.Correspondence
import Caf.Spec.ObjectPool

/-!
# Sequences of requests to the pool

The public operations of `ObjectPool`, what their answers should stand for, and the pools that
they lead to.
-/

namespace Caf

/-- An operation of `ObjectPool`. `get` is the one of `GetUndefinedValue`, `GetNullValue`,
`GetFunctionValue`, `GetBooleanValue`, `GetOrCreateStringValue`, `GetOrCreateIntegerValue` and
`GetOrCreateFloatValue` that is meant for the literal. -/
inductive PoolOp where
  | get (l : Literal)
  | createArray
  | getPlaceholder (index : ℕ)
  | clear

namespace PoolOp

/-- The object returned, if there is one, and the pool afterwards. -/
def apply (p : ObjectPool) : PoolOp → Option Addr × ObjectPool
  | get l => (some (p.getLiteral l).1, (p.getLiteral l).2)
  | createArray => (some p.createArrayValue.1, p.createArrayValue.2)
  | getPlaceholder index => (some (p.getPlaceholderValue index).1, (p.getPlaceholderValue index).2)
  | clear => (none, p.clear)

/-- The object stands for what was asked for: a NaN for any NaN, and everything else for itself. -/
def Represents : PoolOp → Value → Prop
  | get l, v => ∃ l', v = .literal l' ∧ SameLiteral l l'
  | createArray, v => v = .array []
  | getPlaceholder index, v => v = .placeholder index
  | clear, _ => False

/-- The infinity that is asked for, if one is. -/
def infinity? : PoolOp → Option Double
  | get (.float x) => if x.isInf then some x else none
  | _ => none

end PoolOp

namespace ObjectPool

/-- The pool after a sequence of operations. -/
def run (p : ObjectPool) (ops : List PoolOp) : ObjectPool := ops.foldl (fun p op => (op.apply p).2) p

/-- **The operation returns an object that stands for what was asked for.** -/
def Answers (p : ObjectPool) (op : PoolOp) : Prop :=
  ∀ a, (op.apply p).1 = some a → ∃ v, (op.apply p).2.heap[a]? = some v ∧ op.Represents v

/-- A pool after some operations, with any elements written into its arrays in between. -/
inductive Reachable : ObjectPool → Prop
  | new : Reachable new
  | op {p} (op : PoolOp) : Reachable p → Reachable (op.apply p).2
  | setArray {p a es} (es' : List Addr) : Reachable p → p.heap[a]? = some (.array es) →
      Reachable { p with heap := p.heap.set a (.array es') }

end ObjectPool

/-- The infinity that was asked for first. -/
def firstInfinity (ops : List PoolOp) : Option Double := ops.findSome? PoolOp.infinity?

end Caf
