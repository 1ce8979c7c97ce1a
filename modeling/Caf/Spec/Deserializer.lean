import Caf.Spec.Format
import Caf.Spec.ObjectPool
import Caf.Spec.Stream

/-!
# The deserializer

`TestCaseDeserializer` with its `DeserializationContext`. As for the serializer, the contexts
after each value and each call are kept in `trace`.
-/

namespace Caf

structure DeserializationContext where
  pool : List (Option Addr)
  retValueIndex : ℕ → Option ℕ

namespace DeserializationContext

/-- A fresh context. -/
def new : DeserializationContext := ⟨[], fun _ => none⟩

def setNextValue (c : DeserializationContext) (value : Addr) : DeserializationContext :=
  { c with pool := c.pool ++ [some value] }

def setNextValueAsReturnValue (c : DeserializationContext) (funcIndex : ℕ) : DeserializationContext :=
  { pool := c.pool ++ [none]
    retValueIndex := Function.update c.retValueIndex c.pool.length (some funcIndex) }

/-- `_pool.at(index)`. Null pointers stand at the indexes of return values only. -/
def getValue (c : DeserializationContext) (index : ℕ) : Except Error Addr :=
  match c.pool[index]? with
  | some (some a) => .ok a
  | some none => .error .badPointer
  | none => .error .outOfRange

def getReturnValueIndex (c : DeserializationContext) (index : ℕ) : Except Error ℕ :=
  match c.retValueIndex index with
  | some i => .ok i
  | none => .error .outOfRange

def isReturnValueIndex (c : DeserializationContext) (index : ℕ) : Bool :=
  (c.retValueIndex index).isSome

end DeserializationContext

structure TestCaseDeserializer where
  input : MemoryInputStream
  pool : ObjectPool
  context : DeserializationContext
  trace : List DeserializationContext

namespace TestCaseDeserializer

/-- A deserializer at the start of a stream, with a fresh context. -/
def new (input : MemoryInputStream) (pool : ObjectPool) : TestCaseDeserializer :=
  ⟨input, pool, .new, []⟩

/-- Keep the context for the record. -/
def record (s : TestCaseDeserializer) : TestCaseDeserializer :=
  { s with trace := s.trace ++ [s.context] }

/-- Return what the pool gives. -/
def give (s : TestCaseDeserializer) (input : MemoryInputStream) (r : Addr × ObjectPool) :
    Except Error (Addr × TestCaseDeserializer) :=
  .ok (r.1, { s with input := input, pool := r.2 }.record)

/-- `arrayValue->Push(element)`. -/
def pushElement (array element : Addr) (s : TestCaseDeserializer) : TestCaseDeserializer :=
  { s with pool := s.pool.push array element }

/-- `DeserializeValue`. -/
def deserializeValue : ℕ → TestCaseDeserializer → Except Error (Addr × TestCaseDeserializer)
  | 0, _ => .error .outOfFuel
  | fuel + 1, s =>
    let (kind, input) := s.input.readByte
    match ValueKind.ofByte? kind with
    | some .undefined => s.give input s.pool.getUndefinedValue
    | some .null => s.give input s.pool.getNullValue
    | some .function =>
      let (funcId, input) := input.readInt 4
      s.give input (s.pool.getFunctionValue (UInt32.ofNat funcId))
    | some .boolean =>
      let (value, input) := input.readByte
      s.give input (s.pool.getBooleanValue (value != 0))
    | some .string =>
      let (len, input) := input.readInt 4
      let (str, input) := input.readBytes len
      s.give input (s.pool.getOrCreateStringValue str)
    | some .integer =>
      let (value, input) := input.readInt32
      s.give input (s.pool.getOrCreateIntegerValue value)
    | some .float =>
      let (value, input) := input.readFloat
      s.give input (s.pool.getOrCreateFloatValue value)
    | some .array => do
      let (arrayValue, pool) := s.pool.createArrayValue
      let context := s.context.setNextValue arrayValue
      let (size, input) := input.readInt 4
      let s := { s with input := input, pool := pool, context := context }.record
      let (_, s) ← readEach (deserializeValue fuel) (pushElement arrayValue) size s
      return (arrayValue, s)
    | some .placeholder =>
      let (index, input) := input.readInt 4
      if s.context.isReturnValueIndex index then do
        let index ← s.context.getReturnValueIndex index
        s.give input (s.pool.getPlaceholderValue index)
      else do
        let value ← s.context.getValue index
        s.give input (value, s.pool)
    | none => .error .unreachable

/-- `DeserializeFunctionCall`. -/
def deserializeFunctionCall (fuel : ℕ) (s : TestCaseDeserializer) :
    Except Error (FunctionCall × TestCaseDeserializer) := do
  let (funcId, input) := s.input.readInt 4
  let (thisValue, s) ← deserializeValue fuel { s with input := input }
  let (isCtor, input) := s.input.readByte
  let (argsCount, input) := input.readInt 4
  let (args, s) ← readEach (deserializeValue fuel) (fun _ s => s) argsCount { s with input := input }
  return (⟨UInt32.ofNat funcId, some thisValue, isCtor != 0, args⟩, s)

/-- The loop over the calls, from call `i` on. -/
def deserializeCalls (fuel : ℕ) :
    ℕ → ℕ → TestCaseDeserializer → Except Error (List FunctionCall × TestCaseDeserializer)
  | 0, _, s => .ok ([], s)
  | callsCount + 1, i, s => do
    let (call, s) ← deserializeFunctionCall fuel s
    let s := { s with context := s.context.setNextValueAsReturnValue i }.record
    let (calls, s) ← deserializeCalls fuel callsCount (i + 1) s
    return (call :: calls, s)

/-- `Deserialize`. -/
def deserialize (fuel : ℕ) (s : TestCaseDeserializer) :
    Except Error (TestCase × TestCaseDeserializer) := do
  let (storeRootEntryIndex, input) := s.input.readInt 4
  let (callsCount, input) := input.readInt 4
  let (calls, s) ← deserializeCalls fuel callsCount 0 { s with input := input }
  return (⟨storeRootEntryIndex, calls⟩, s)

end TestCaseDeserializer

end Caf
