import Caf.Spec.NodejsCodeGenerator

/-!
# What the generated functions run on

`caflib.h` reads the standard input and keeps the object list. The library `caf_v8lib` and the API functions are not in
the repository: `V8Lib` says what they do with the values that they are given, which are V8 values or null. What
`printf` writes is not kept.
-/

namespace Caf

open Ir LittleEndian

/-- `caf_v8lib` and the API functions, which need not return. An absent value is null, and an absent byte is undefined.
The bytes of a string are those from its address to the end of its object: there is no NUL behind them. -/
structure V8Lib (σ H : Type) where
  createUndefined : σ → Option (H × σ)
  createNull : σ → Option (H × σ)
  createBoolean : Option UInt8 → σ → Option (H × σ)
  createString : List (Option UInt8) → σ → Option (H × σ)
  createInteger : Int32 → σ → Option (H × σ)
  createNumber : Double → σ → Option (H × σ)
  createFunction : ℕ → σ → Option (H × σ)
  createArray : List (Option H) → Int32 → σ → Option (H × σ)
  showBoolean : H → σ → Option σ
  showString : H → σ → Option σ
  showInteger : H → σ → Option σ
  showNumber : H → σ → Option σ
  createFunctionCallbackInfo : Option H → List (Option H) → Int32 → σ → Option (H × σ)
  getRetValue : H → σ → Option (H × σ)
  /-- An API function. -/
  invoke : ℕ → H → σ → Option σ

/-- What is left of the standard input, `__caf_object_list`, and the state of V8. -/
structure StubProcess (σ H : Type) where
  input : List UInt8
  objects : List H
  v8 : σ

variable {σ H : Type}

abbrev StubVal (H : Type) := Val Symbol H

abbrev StubMachine (σ H : Type) := Ir.Machine Symbol H (StubProcess σ H)

abbrev StubResult (σ H : Type) := Result Symbol H (StubProcess σ H)

/-- The address of a V8 value. -/
def StubVal.ofValue : Option H → StubVal H
  | some h => .ptr (.handle h)
  | none => .ptr .null

/-- The V8 value at an address. -/
def StubVal.value : StubVal H → Except Fault (Option H)
  | .ptr (.handle h) => .ok (some h)
  | .ptr .null => .ok none
  | _ => .error .undefined

/-- The V8 value at an address that is not null. -/
def StubVal.handle : StubVal H → Except Fault H
  | .ptr (.handle h) => .ok h
  | _ => .error .undefined

namespace StubProcess

/-- `getchar()`, cut to an `unsigned char`. -/
def getchar (s : StubProcess σ H) : UInt8 × StubProcess σ H :=
  match s.input with
  | [] => (255, s)
  | b :: input => (b, { s with input := input })

end StubProcess

/-- `for (int i = 0; i < size; i++) destBuffer[i] = getchar();`, from `i` on. -/
def inputChars (dest : Ptr Symbol H) : ℕ → ℕ → StubMachine σ H → Except Fault (StubMachine σ H)
  | _, 0, m => .ok m
  | i, size + 1, m => do
    let (cur, host) := m.host.getchar
    let p ← dest.element .i8 (Int32.ofNat i)
    inputChars dest (i + 1) size { memory := ← m.memory.write p [cur], host := host }

/-- `for (int i = 0; i < size; i++) scanf("%c", dest + i);`, from `i` on. At the end of the input, nothing is stored. -/
def scanChars (dest : Ptr Symbol H) : ℕ → ℕ → StubMachine σ H → Except Fault (StubMachine σ H)
  | _, 0, m => .ok m
  | i, size + 1, m =>
    match m.host.input with
    | [] => scanChars dest (i + 1) size m
    | b :: input => do
      let p ← dest.element .i8 (Int32.ofNat i)
      scanChars dest (i + 1) size { memory := ← m.memory.write p [b], host := { m.host with input := input } }

/-- `saveToObjectList`. -/
def saveToObjectList (h : H) (s : StubProcess σ H) : StubProcess σ H := { s with objects := s.objects ++ [h] }

/-- `getFromObjectList`. The index is converted to an unsigned number before it is compared. -/
def getFromObjectList (objIdx : Int32) (s : StubProcess σ H) : StubVal H :=
  if 0 ≤ objIdx then
    match s.objects[objIdx.toNatClampNeg]? with
    | some h => .ptr (.handle h)
    | none => .i64 0
  else .i64 0

/-- A function that returns a V8 value. -/
def giveHandle (m : StubMachine σ H) (f : σ → Option (H × σ)) : Except Fault (StubResult σ H) := do
  let (h, v8) ← hostResult (f m.host.v8)
  return (.ptr (.handle h), { m with host := { m.host with v8 := v8 } })

/-- A function that returns nothing. -/
def giveVoid (m : StubMachine σ H) (f : σ → Option σ) : Except Fault (StubResult σ H) := do
  let v8 ← hostResult (f m.host.v8)
  return (.undefined, { m with host := { m.host with v8 := v8 } })

/-- **A call of a function that is not generated.** -/
def callHost (L : V8Lib σ H) (callee : Symbol) (args : List (StubVal H)) (m : StubMachine σ H) :
    Except Fault (StubResult σ H) :=
  match callee, args with
  | .inputIntTo, [.ptr dest] => do return (.undefined, ← inputChars dest 0 4 m)
  | .inputDoubleTo, [.ptr dest] => do return (.undefined, ← inputChars dest 0 8 m)
  | .inputBytesTo, [.ptr dest, .i32 size] => do return (.undefined, ← scanChars dest 0 size.toNatClampNeg m)
  | .saveToObjectList, [v] => do
    let h ← StubVal.handle v
    return (.undefined, { m with host := saveToObjectList h m.host })
  | .getFromObjectList, [.i32 objIdx] => .ok (getFromObjectList objIdx m.host, m)
  | .printf, _ => .ok (.undefined, m)
  | .createUndefined, [] => giveHandle m L.createUndefined
  | .createNull, [] => giveHandle m L.createNull
  | .createBoolean, [.i8 b] => giveHandle m (L.createBoolean (some b))
  | .createBoolean, [.undefined] => giveHandle m (L.createBoolean none)
  | .createString, [.ptr s] => do giveHandle m (L.createString (← m.memory.readBytes s))
  | .createInteger, [.i32 n] => giveHandle m (L.createInteger n)
  | .createNumber, [.double x] => giveHandle m (L.createNumber x)
  | .createFunction, [.ptr (.function (.api index))] => giveHandle m (L.createFunction index)
  | .createArray, [.ptr elements, .i32 size] => do
    let vs ← (← m.memory.readWords elements size.toNatClampNeg).mapM StubVal.value
    giveHandle m (L.createArray vs size)
  | .showBoolean, [v] => do giveVoid m (L.showBoolean (← StubVal.handle v))
  | .showString, [v] => do giveVoid m (L.showString (← StubVal.handle v))
  | .showInteger, [v] => do giveVoid m (L.showInteger (← StubVal.handle v))
  | .showNumber, [v] => do giveVoid m (L.showNumber (← StubVal.handle v))
  | .createFunctionCallbackInfo, [.ptr implicitArgs, .ptr values, .i32 length] => do
    let thisArg ← StubVal.value (← m.memory.load .pointer implicitArgs)
    let vs ← (← m.memory.readWords values length.toNatClampNeg).mapM StubVal.value
    giveHandle m (L.createFunctionCallbackInfo thisArg vs length)
  | .api index, [v] => do giveVoid m (L.invoke index (← StubVal.handle v))
  | .getRetValue, [v] => do giveHandle m (L.getRetValue (← StubVal.handle v))
  | _, _ => .error .undefined

/-- The module of a target with the API functions of the given names, after the generator has run. -/
def stubProgram (L : V8Lib σ H) (names : List StdString) : Program Symbol H (StubProcess σ H) :=
  ⟨CAFCodeGeneratorForNodejs.generateStub names, callHost L⟩

/-- The machine at the start: `callbackfunc_candidates` is filled with zeros. -/
def StubMachine.start (names : List StdString) (s : StubProcess σ H) : StubMachine σ H :=
  ⟨[.words names.length fun _ => .i64 0], s⟩

/-- **A run of `__caf_main`.** -/
def runCafMain (L : V8Lib σ H) (names : List StdString) (fuel : ℕ) (s : StubProcess σ H) :
    Except Fault (StubProcess σ H) := do
  let P := stubProgram L names
  let (_, m) ← P.call (P.runBlock fuel) .cafMain [] (StubMachine.start names s)
  return m.host

/-- A library whose values are numbers, handed out one after another. -/
def countingLib : V8Lib ℕ ℕ :=
  let next := fun n => some (n, n + 1)
  { createUndefined := next
    createNull := next
    createBoolean := fun _ => next
    createString := fun _ => next
    createInteger := fun _ => next
    createNumber := fun _ => next
    createFunction := fun _ => next
    createArray := fun _ _ => next
    showBoolean := fun _ => some
    showString := fun _ => some
    showInteger := fun _ => some
    showNumber := fun _ => some
    createFunctionCallbackInfo := fun _ _ _ => next
    getRetValue := fun _ => next
    invoke := fun _ _ => some }

end Caf
