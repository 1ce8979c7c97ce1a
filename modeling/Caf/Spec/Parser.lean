import Caf.Graph.Steps
import Caf.Spec.Format
import Caf.Spec.Stream

/-!
# The test case parser of a target

`TestCaseParser` builds the values of a test case with a target's value factory and runs its
calls with the target's executor. A `Target` is any implementation of these interfaces, over
any type of values; its state is threaded through explicitly, so it may keep a log of what it
was asked to do. The value pools after each value and each call are kept in `trace`.
-/

namespace Caf

open ObjectGraph

universe u

/-- A value factory, an executor and a function database. An array builder is represented by the
array under construction. -/
structure Target (σ V : Type u) where
  createUndefined : σ → V × σ
  createNull : σ → V × σ
  createBoolean : Bool → σ → V × σ
  createString : StdString → σ → V × σ
  createFunction : FunctionIdType → σ → V × σ
  createInteger : Int32 → σ → V × σ
  createFloat : Double → σ → V × σ
  startBuildArray : ℕ → σ → V × σ
  pushElement : V → V → σ → σ
  getFunction : FunctionIdType → Option V
  invoke : V → V → Bool → List V → σ → V × σ

/-- `TestCaseParser`. -/
structure TestCaseParser (σ V : Type u) where
  input : MemoryInputStream
  target : σ
  pool : List V
  trace : List (List V)

namespace TestCaseParser

variable {σ V : Type u}

/-- A parser at the start of a stream. -/
def new (input : MemoryInputStream) (target : σ) : TestCaseParser σ V := ⟨input, target, [], []⟩

/-- Keep the pool for the record. -/
def record (p : TestCaseParser σ V) : TestCaseParser σ V := { p with trace := p.trace ++ [p.pool] }

/-- Return what the factory creates. -/
def give (p : TestCaseParser σ V) (input : MemoryInputStream) (r : V × σ) :
    Except Error (V × TestCaseParser σ V) :=
  .ok (r.1, { p with input := input, target := r.2 }.record)

/-- `arrayBuilder.PushElement(element)`. -/
def pushElement (T : Target σ V) (array element : V) (p : TestCaseParser σ V) : TestCaseParser σ V :=
  { p with target := T.pushElement array element p.target }

/-- `ParseValue`, with the functions it calls for each kind. -/
def parseValue (T : Target σ V) : ℕ → TestCaseParser σ V → Except Error (V × TestCaseParser σ V)
  | 0, _ => .error .outOfFuel
  | fuel + 1, p =>
    let (kind, input) := p.input.readByte
    match ValueKind.ofByte? kind with
    | some .undefined => p.give input (T.createUndefined p.target)
    | some .null => p.give input (T.createNull p.target)
    | some .boolean =>
      let (value, input) := input.readByte
      if value = 0 ∨ value = 1 then p.give input (T.createBoolean (value != 0) p.target)
      else .error .assertion
    | some .string =>
      let (size, input) := input.readInt 4
      let (buffer, input) := input.read size
      p.give input (T.createString buffer p.target)
    | some .function =>
      let (funcId, input) := input.readInt 4
      p.give input (T.createFunction (UInt32.ofNat funcId) p.target)
    | some .integer =>
      let (value, input) := input.readInt32
      p.give input (T.createInteger value p.target)
    | some .float =>
      let (value, input) := input.readFloat
      p.give input (T.createFloat value p.target)
    | some .array => do
      let (size, input) := input.readInt 4
      let (array, target) := T.startBuildArray size p.target
      let p := { p with input := input, target := target, pool := p.pool ++ [array] }.record
      let (_, p) ← readEach (parseValue T fuel) (pushElement T array) size p
      return (array, p)
    | some .placeholder =>
      let (index, input) := input.readInt 4
      match p.pool[index]? with
      | some value => p.give input (value, p.target)
      | none => .error .outOfRange
    | none => .error .unreachable

/-- `ParseCall`. -/
def parseCall (T : Target σ V) (fuel : ℕ) (p : TestCaseParser σ V) : Except Error (TestCaseParser σ V) := do
  let (funcId, input) := p.input.readInt 4
  let (thisValue, p) ← parseValue T fuel { p with input := input }
  let (isCtorCall, input) := p.input.readByte
  let (argsCount, input) := input.readInt 4
  let (args, p) ← readEach (parseValue T fuel) (fun _ p => p) argsCount { p with input := input }
  match T.getFunction (UInt32.ofNat funcId) with
  | none => .error .exit
  | some function =>
    let (ret, target) := T.invoke function thisValue (isCtorCall != 0) args p.target
    return { p with target := target, pool := p.pool ++ [ret] }.record

/-- `while (callsCount--) ParseCall();` -/
def parseCalls (T : Target σ V) (fuel : ℕ) : ℕ → TestCaseParser σ V → Except Error (TestCaseParser σ V)
  | 0, p => .ok p
  | callsCount + 1, p => do
    let p ← parseCall T fuel p
    parseCalls T fuel callsCount p

/-- `ParseAndRun`. -/
def parseAndRun (T : Target σ V) (fuel : ℕ) (p : TestCaseParser σ V) : Except Error (TestCaseParser σ V) :=
  let (callsCount, input) := p.input.readInt 4
  parseCalls T fuel callsCount { p with input := input, pool := [] }

end TestCaseParser

/-! ## The reference evaluation -/

namespace Target

variable {σ V : Type u}

/-- How a target builds values. -/
def interp (T : Target σ V) : Interp Literal σ V where
  leaf
    | .undefined => T.createUndefined
    | .null => T.createNull
    | .boolean b => T.createBoolean b
    | .string s => T.createString s
    | .function id => T.createFunction id
    | .integer i => T.createInteger i
    | .float x => T.createFloat x
  node := T.startBuildArray
  push := T.pushElement

/-- How a target runs a call. Every call has a receiver and a function. -/
def perform (T : Target σ V) (op : CallOp) (receiver args : List V) (s : σ) : V × σ :=
  match T.getFunction op.1, receiver with
  | some function, thisValue :: _ => T.invoke function thisValue op.2 args s
  | _, _ => T.createUndefined s

end Target

end Caf
