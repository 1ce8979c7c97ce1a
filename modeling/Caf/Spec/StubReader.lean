import Caf.Spec.Caflib

/-!
# What the generated program does with its input

A direct reading of the standard input, without blocks, registers and memory: a number of calls, and for each of them a
function id, the receiver, the number of the arguments and the arguments.

* `readStubValue`: `caf_dispatch_malloc_value_of_type`.
* `readCall`: `__caf_dispatch_api`.
* `readTestCase`: `__caf_main`.
-/

namespace Caf

open Ir LittleEndian

variable {σ H : Type}

namespace StubProcess

/-- `getchar()` for `n` times, where the end of the input gives `255`. -/
def getchars (n : ℕ) (s : StubProcess σ H) : List UInt8 × StubProcess σ H :=
  ((List.range n).map fun i => (s.input[i]?).getD 255, { s with input := s.input.drop n })

/-- `scanf("%c", …)` for `n` times, where the end of the input gives nothing. -/
def scan (n : ℕ) (s : StubProcess σ H) : List (Option UInt8) × StubProcess σ H :=
  ((List.range n).map fun i => s.input[i]?, { s with input := s.input.drop n })

/-- `inputIntTo`. -/
def readInt (s : StubProcess σ H) : Int32 × StubProcess σ H :=
  let (bs, s) := s.getchars 4
  ((UInt32.ofNat (ofBytes bs)).toInt32, s)

/-- `inputDoubleTo`. -/
def readDouble (s : StubProcess σ H) : Double × StubProcess σ H :=
  let (bs, s) := s.getchars 8
  (UInt64.ofNat (ofBytes bs), s)

/-- The byte of a kind, which is `0` at the end of the input. -/
def readKind (s : StubProcess σ H) : UInt8 × StubProcess σ H :=
  ((s.input[0]?).getD 0, { s with input := s.input.drop 1 })

/-- V8 makes a value. -/
def give (f : σ → Option (H × σ)) (s : StubProcess σ H) : Except Fault (H × StubProcess σ H) := do
  let (h, v8) ← hostResult (f s.v8)
  return (h, { s with v8 := v8 })

/-- V8 does something. -/
def act (f : σ → Option σ) (s : StubProcess σ H) : Except Fault (StubProcess σ H) := do
  let v8 ← hostResult (f s.v8)
  return { s with v8 := v8 }

/-- The object at an index, or null. -/
def object (index : Int32) (s : StubProcess σ H) : Option H :=
  if 0 ≤ index then s.objects[index.toNatClampNeg]? else none

end StubProcess

/-- What reads a part of the input, and may go wrong. -/
abbrev StubReader (σ H α : Type) : Type := StubProcess σ H → Except Fault (α × StubProcess σ H)

variable (L : V8Lib σ H)

/-- What `create` makes. -/
def createValue (create : σ → Option (H × σ)) : StubReader σ H (Option H) := fun s => do
  let (h, s) ← s.give create
  return (some h, s)

/-- What `create` makes is shown. -/
def createAndShow (create : σ → Option (H × σ)) (showValue : H → σ → Option σ) :
    StubReader σ H (Option H) := fun s => do
  let (h, s) ← s.give create
  return (some h, ← s.act (showValue h))

/-- A string: its length and its bytes. The first byte is printed, and an empty string has none. -/
def readString : StubReader σ H (Option H) := fun s =>
  let (n, s) := s.readInt
  let (bytes, s) := s.scan n.toNatClampNeg
  let buffer := bytes ++ List.replicate (n.toUInt32.toNat - n.toNatClampNeg) none
  if n = 0 then .error .undefined else createAndShow (L.createString buffer) L.showString s

/-- Values, one after another. -/
def readValues (read : StubReader σ H (Option H)) : ℕ → StubReader σ H (List (Option H))
  | 0, s => .ok ([], s)
  | n + 1, s => do
    let (v, s) ← read s
    let (vs, s) ← readValues read n s
    return (v :: vs, s)

/-- An array is saved to the object list after its elements. -/
def readArray (read : StubReader σ H (Option H)) : StubReader σ H (Option H) := fun s => do
  let (n, s) := s.readInt
  let (vs, s) ← readValues read n.toNatClampNeg s
  let (h, s) ← s.give (L.createArray vs n)
  return (some h, saveToObjectList h s)

/-- A function, which must be one of the `functions` API functions. -/
def readFunction (functions : ℕ) : StubReader σ H (Option H) := fun s =>
  let (id, s) := s.readInt
  if 0 ≤ id ∧ id.toInt < functions then createValue (L.createFunction id.toNatClampNeg) s else .error .undefined

/-- **A value.** A kind that is not known is Undefined. -/
def readStubValue (functions : ℕ) : ℕ → StubReader σ H (Option H)
  | 0, _ => .error .outOfFuel
  | fuel + 1, s =>
    let (kind, s) := s.readKind
    match kind.toNat with
    | 1 => createValue L.createNull s
    | 2 =>
      let (b, s) := s.scan 1
      createAndShow (L.createBoolean (b.head?.join)) L.showBoolean s
    | 3 => readString L s
    | 4 => readFunction L functions s
    | 5 =>
      let (n, s) := s.readInt
      createAndShow (L.createInteger n) L.showInteger s
    | 6 =>
      let (x, s) := s.readDouble
      createAndShow (L.createNumber x) L.showNumber s
    | 7 => readArray L (readStubValue functions fuel) s
    | 8 =>
      let (index, s) := s.readInt
      .ok (s.object index, s)
    | _ => createValue L.createUndefined s

/-- A value from the input. Values nest no deeper than the input is long. -/
def readInput (functions : ℕ) : StubReader σ H (Option H) := fun s =>
  readStubValue L functions (s.input.length + 1) s

/-- An API function is called, and what it returns is saved. -/
def callApi (index : ℕ) (thisArg : Option H) (args : List (Option H)) (n : Int32) (s : StubProcess σ H) :
    Except Fault (StubProcess σ H) := do
  let (info, s) ← s.give (L.createFunctionCallbackInfo thisArg args n)
  let s ← s.act (L.invoke index info)
  let (h, s) ← s.give (L.getRetValue info)
  return saveToObjectList h s

/-- **A call**: the receiver and the arguments are read. A function id that is not known does nothing. -/
def readCall (functions : ℕ) (id : Int32) (s : StubProcess σ H) : Except Fault (StubProcess σ H) :=
  if 0 ≤ id ∧ id.toInt < functions then do
    let (thisArg, s) ← readInput L functions s
    let (n, s) := s.readInt
    let (args, s) ← readValues (readInput L functions) n.toNatClampNeg s
    callApi L id.toNatClampNeg thisArg args n s
  else .ok s

/-- Calls, one after another. -/
def readCalls (functions : ℕ) : ℕ → StubProcess σ H → Except Fault (StubProcess σ H)
  | 0, s => .ok s
  | n + 1, s => do
    let (id, s) := s.readInt
    readCalls functions n (← readCall L functions id s)

/-- **A test case.** -/
def readTestCase (functions : ℕ) (s : StubProcess σ H) : Except Fault (StubProcess σ H) :=
  let (n, s) := s.readInt
  readCalls L functions n.toNatClampNeg s

end Caf
