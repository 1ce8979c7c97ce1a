import Mathlib.Logic.Function.Basic
import Caf.Spec.Format

/-!
# The serializer

`TestCaseSerializer` with its `SerializationContext`, which hands out the slot ids. The
contexts after each encoded value and each call are kept in `trace`; nothing reads them.
-/

namespace Caf

open LittleEndian

structure SerializationContext where
  valueIndexes : Addr → Option ℕ
  retValueIndexes : ℕ → Option ℕ
  indexAlloc : ℕ

namespace SerializationContext

/-- A fresh context. -/
def new : SerializationContext := ⟨fun _ => none, fun _ => none, 0⟩

def setNextValue (c : SerializationContext) (value : Addr) : SerializationContext :=
  { c with
    valueIndexes := Function.update c.valueIndexes value (some c.indexAlloc)
    indexAlloc := c.indexAlloc + 1 }

def setNextValueAsReturnValue (c : SerializationContext) (funcIndex : ℕ) : SerializationContext :=
  { c with
    retValueIndexes := Function.update c.retValueIndexes funcIndex (some c.indexAlloc)
    indexAlloc := c.indexAlloc + 1 }

/-- `_valueIndexes.at(value)`. -/
def getValueIndex (c : SerializationContext) (value : Addr) : Except Error ℕ :=
  match c.valueIndexes value with
  | some k => .ok k
  | none => .error .outOfRange

/-- `_retValueIndexes.at(funcIndex)`. -/
def getReturnValueIndex (c : SerializationContext) (funcIndex : ℕ) : Except Error ℕ :=
  match c.retValueIndexes funcIndex with
  | some k => .ok k
  | none => .error .outOfRange

/-- The value that is written for the object `value` at `a`: the local `pv` when the object is
a placeholder or has a slot. No context knows the address of `pv`. -/
def substitute (c : SerializationContext) (a : Addr) (value : Value) : Except Error Value :=
  match value with
  | .placeholder i => .placeholder <$> c.getReturnValueIndex i
  | value => if (c.valueIndexes a).isSome then .placeholder <$> c.getValueIndex a else .ok value

end SerializationContext

structure TestCaseSerializer where
  out : List UInt8
  context : SerializationContext
  trace : List SerializationContext

namespace TestCaseSerializer

/-- A serializer at the start of a stream, with a fresh context. -/
def new : TestCaseSerializer := ⟨[], .new, []⟩

/-- `_out.Write`. -/
def write (s : TestCaseSerializer) (bytes : List UInt8) : TestCaseSerializer :=
  { s with out := s.out ++ bytes }

/-- `WriteInt<Size>`. -/
def writeInt (s : TestCaseSerializer) (size value : ℕ) : TestCaseSerializer :=
  s.write (toBytes size value)

def writeKind (s : TestCaseSerializer) (kind : ValueKind) : TestCaseSerializer :=
  s.write [kind.toByte]

/-- Keep the context for the record. -/
def record (s : TestCaseSerializer) : TestCaseSerializer := { s with trace := s.trace ++ [s.context] }

/-- The cases of `Serialize(const Value*, …)` without elements. -/
def writeLiteral (s : TestCaseSerializer) (l : Literal) : TestCaseSerializer :=
  let s := s.writeKind l.kind
  match l with
  | .undefined => s
  | .null => s
  | .function funcId => s.writeInt 4 funcId.toNat
  | .boolean value => s.writeInt 1 value.toNat
  | .string str => (s.writeInt 4 str.length).write str
  | .integer value => s.writeInt 4 value.toUInt32.toNat
  | .float value => s.write (toBytes 8 value.toNat)

/-- `Serialize(const Value*, SerializationContext&)`. -/
def serializeValue (h : Heap) : ℕ → Addr → TestCaseSerializer → Except Error TestCaseSerializer
  | 0, _, _ => .error .outOfFuel
  | fuel + 1, a, s =>
    match h[a]? with
    | none => .error .badPointer
    | some value => do
      match ← s.context.substitute a value with
      | .literal l => return (s.writeLiteral l).record
      | .placeholder index => return ((s.writeKind .placeholder).writeInt 4 index).record
      | .array elements =>
        let s := { s with context := s.context.setNextValue a }
        let s := ((s.writeKind .array).writeInt 4 elements.length).record
        elements.foldlM (fun s element => serializeValue h fuel element s) s

/-- The receiver: `this`, or the local `undefined`, which no context knows either. -/
def serializeThis (h : Heap) (fuel : ℕ) (call : FunctionCall) (s : TestCaseSerializer) :
    Except Error TestCaseSerializer :=
  match call.thisValue with
  | some thisValue => serializeValue h fuel thisValue s
  | none => .ok (s.writeLiteral .undefined).record

/-- `Serialize(const FunctionCall&, SerializationContext&)`. -/
def serializeFunctionCall (h : Heap) (fuel : ℕ) (call : FunctionCall) (s : TestCaseSerializer) :
    Except Error TestCaseSerializer := do
  let s := s.writeInt 4 call.funcId.toNat
  let s ← serializeThis h fuel call s
  let s := s.writeInt 1 call.ctor.toNat
  let s := s.writeInt 4 call.args.length
  call.args.foldlM (fun s arg => serializeValue h fuel arg s) s

/-- The loop over the calls, from call `i` on. -/
def serializeCalls (h : Heap) (fuel : ℕ) :
    ℕ → List FunctionCall → TestCaseSerializer → Except Error TestCaseSerializer
  | _, [], s => .ok s
  | i, call :: calls, s => do
    let s ← serializeFunctionCall h fuel call s
    serializeCalls h fuel (i + 1) calls
      { s with context := s.context.setNextValueAsReturnValue i }.record

/-- `Serialize(const TestCase&)`. Array visits nest no deeper than there are objects. -/
def serialize (h : Heap) (tc : TestCase) : Except Error TestCaseSerializer :=
  let s := (new.writeInt 4 tc.storeRootEntryIndex).writeInt 4 tc.calls.length
  serializeCalls h (h.length + 1) 0 tc.calls s

end TestCaseSerializer

end Caf
