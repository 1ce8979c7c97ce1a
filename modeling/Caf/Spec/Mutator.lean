import Caf.Spec.Generator

/-!
# The mutator

`TestCaseMutator` changes one thing about a test case. Calls that are inserted or removed shift
the references to later calls; `PlaceholderFixer` writes the new ones into the arrays in place.
-/

namespace Caf

open Caf.Random

/-! ## Placeholders -/

namespace PlaceholderFixer

/-- The function given to `Fix`: what takes the place of a placeholder with this index in this
call. -/
abbrev Fixer := ℕ → ℕ → FuzzM Addr

/-- `array->SetElement(i, value)`. -/
def setElement (array i : ℕ) (value : Addr) : FuzzM Unit := fun s =>
  match s.heap[array]? with
  | some (.array es) =>
    if i < es.length then
      .ok ((), { s with pool := { s.pool with heap := s.heap.set array (.array (es.set i value)) } })
    else .error .outOfRange
  | _ => .error .badPointer

/-- `array->GetElement(i)`. -/
def getElement (array i : ℕ) : FuzzM Addr := do
  match ← readValue array with
  | .array es =>
    match es[i]? with
    | some e => return e
    | none => throw .outOfRange
  | _ => throw .badPointer

/-- The loop over the elements `is` of `array`, with the set of fixed values. -/
def fixElements (fixValue : Addr → List Addr → FuzzM (Addr × List Addr)) (array : Addr) :
    List ℕ → List Addr → FuzzM (List Addr)
  | [], fixed => return fixed
  | i :: is, fixed => do
    let (value, fixed) ← fixValue (← getElement array i) fixed
    setElement array i value
    fixElements fixValue array is fixed

/-- `FixValue`. Fixing changes no array's size. -/
def fixValue (fixer : Fixer) (callIndex : ℕ) : ℕ → Addr → List Addr → FuzzM (Addr × List Addr)
  | 0, _, _ => throw .outOfFuel
  | fuel + 1, oldValue, fixed => do
    match ← readValue oldValue with
    | .placeholder index => return (← fixer callIndex index, fixed)
    | .array es =>
      if oldValue ∈ fixed then return (oldValue, fixed)
      else
        let fixed ← fixElements (fixValue fixer callIndex fuel) oldValue (List.range es.length) (oldValue :: fixed)
        return (oldValue, fixed)
    | .literal _ => return (oldValue, fixed)

/-- The values in the positions of a call. -/
def fixValues (fixer : Fixer) (callIndex fuel : ℕ) : List Addr → List Addr → FuzzM (List Addr × List Addr)
  | [], fixed => return ([], fixed)
  | value :: values, fixed => do
    let (value, fixed) ← fixValue fixer callIndex fuel value fixed
    let (values, fixed) ← fixValues fixer callIndex fuel values fixed
    return (value :: values, fixed)

/-- The body of the loop over the calls. -/
def fixCall (fixer : Fixer) (callIndex fuel : ℕ) (call : FunctionCall) (fixed : List Addr) :
    FuzzM (FunctionCall × List Addr) := do
  let (thisValue, fixed) ← fixValues fixer callIndex fuel call.thisValue.toList fixed
  let (args, fixed) ← fixValues fixer callIndex fuel call.args fixed
  return ({ call with thisValue := thisValue.head?, args := args }, fixed)

/-- The loop over the calls, from call `i` on. -/
def fixCalls (fixer : Fixer) (fuel : ℕ) : ℕ → List FunctionCall → List Addr → FuzzM (List FunctionCall)
  | _, [], _ => return []
  | i, call :: calls, fixed => do
    let (call, fixed) ← fixCall fixer i fuel call fixed
    return call :: (← fixCalls fixer fuel (i + 1) calls fixed)

/-- `Fix`. Array visits nest no deeper than there are objects. -/
def fix (fixer : Fixer) (startCallIndex : ℕ) (testCase : TestCase) : FuzzM TestCase := do
  let s ← get
  let calls ← fixCalls fixer (s.heap.length + 1) startCallIndex (testCase.calls.drop startCallIndex) []
  return { testCase with calls := testCase.calls.take startCallIndex ++ calls }

end PlaceholderFixer

/-! ## Values -/

/-- `GENERATE_NEW_VALUE_PROB`, 0.1. -/
def generateNewValueProb : Double := 0x3fb999999999999a

/-- `MUTATE_TYPE_PROB`, 0.2. -/
def mutateTypeProb : Double := 0x3fc999999999999a

/-- `INTEGER_MAX_INCREMENT`; the minimum is its negation. -/
def integerMaxIncrement : Int := 10

/-- `FLOAT_MAX_INCREMENT`, 100; the minimum is its negation. -/
def floatMaxIncrement : Double := 0x4059000000000000

/-- `-value` on `int`, which overflows for the least one. -/
def negated (value : Int32) : Option Int32 := if value = Int32.minValue then none else some (-value)

/-- `MaskLengths`. -/
def maskLengths : List ℕ := [1, 2, 4, 8, 16, 32]

/-- `IntegerValue::BitLength`. -/
def bitLength : ℕ := 32

/-- `value ^ (((1 << maskLen) - 1) << startOffset)`, which shifts an `int` too far for the longest
mask. -/
def bitflipped (value : Int32) (maskLen startOffset : ℕ) : Option Int32 :=
  if maskLen < bitLength then
    some (value ^^^ (((1 <<< Int32.ofNat maskLen) - 1) <<< Int32.ofNat startOffset))
  else none

/-- The sum of two doubles. -/
def Double.add (x y : Double) : Double := (Float.ofBits x + Float.ofBits y).toBits

/-- `-x`. -/
def Double.neg (x : Double) : Double := x ^^^ 0x8000000000000000

namespace TestCaseMutator

variable (gen : TestCaseGenerator)

/-- The result of an operation on `int`; where the language leaves it open, it is any number. -/
def orUndefined : Option Int32 → FuzzM Int32
  | some value => return value
  | none => return Int32.ofNat (← draw)

def insertCharacter (s : StdString) : FuzzM Addr := do
  let pos ← next 0 s.length
  let ch ← TestCaseGenerator.generateStringCharacter
  givePool (·.getOrCreateStringValue (s.take pos ++ [ch] ++ s.drop pos))

def removeCharacter (s : StdString) : FuzzM Addr := do
  let pos ← index s
  givePool (·.getOrCreateStringValue (s.eraseIdx pos))

def changeCharacter (s : StdString) : FuzzM Addr := do
  let pos ← index s
  let ch ← TestCaseGenerator.generateStringCharacter
  givePool (·.getOrCreateStringValue (s.set pos ch))

/-- Exchange the elements at two indexes. -/
def swapped {α : Type} (l : List α) (pos₁ pos₂ : ℕ) : FuzzM (List α) :=
  match l[pos₁]?, l[pos₂]? with
  | some x, some y => return (l.set pos₁ y).set pos₂ x
  | _, _ => throw .outOfRange

def exchangeCharacters (s : StdString) : FuzzM Addr := do
  let pos₁ ← next 0 (s.length - 2)
  let pos₂ ← next (pos₁ + 1) (lastIndex s.length)
  let s ← swapped s pos₁ pos₂
  givePool (·.getOrCreateStringValue s)

/-- The operators that `MutateString` can choose. -/
def stringMutators (value : StdString) : List (StdString → FuzzM Addr) :=
  (if value.length < gen.options.maxStringLength then [insertCharacter] else []) ++
  (if 0 < value.length then [removeCharacter] else []) ++
  (if 0 < value.length then [changeCharacter] else []) ++
  (if 2 ≤ value.length then [exchangeCharacters] else [])

def mutateString (value : StdString) : FuzzM Addr :=
  if (stringMutators gen value).isEmpty then throw .assertion
  else do (← select (stringMutators gen value)) value

def incrementInteger (value : Int32) : FuzzM Addr := do
  let inc ← nextInt (-integerMaxIncrement) integerMaxIncrement
  givePool (·.getOrCreateIntegerValue (value + Int32.ofInt inc))

def negateInteger (value : Int32) : FuzzM Addr := do
  let newValue ← orUndefined (negated value)
  givePool (·.getOrCreateIntegerValue newValue)

def bitflip (value : Int32) : FuzzM Addr := do
  let maskLen ← select maskLengths
  let startOffset ← next 0 (bitLength - maskLen)
  let newValue ← orUndefined (bitflipped value maskLen startOffset)
  givePool (·.getOrCreateIntegerValue newValue)

def mutateInteger (value : Int32) : FuzzM Addr := do
  (← select [incrementInteger, negateInteger, bitflip]) value

def incrementFloat (value : Double) : FuzzM Addr := do
  let inc ← nextSigned floatMaxIncrement
  givePool (·.getOrCreateFloatValue (value.add inc))

def negateFloat (value : Double) : FuzzM Addr :=
  givePool (·.getOrCreateFloatValue value.neg)

/-- `MutateFloat` of the object at `a`. -/
def mutateFloat (a : Addr) (value : Double) : FuzzM Addr := do
  if value.isNaN then return a
  else (← select [incrementFloat, negateFloat]) value

/-- A new array with the elements `es`. -/
def createArray (es : List Addr) : FuzzM Addr := do
  let newValue ← givePool (·.createArrayValue)
  forM es fun e => TestCaseGenerator.pushElement newValue e
  return newValue

def pushElement (rootEntryIndex callIndex : ℕ) (_ : Addr → FuzzM Addr) (es : List Addr) : FuzzM Addr := do
  let element ← gen.generateValue rootEntryIndex ⟨callIndex⟩
  createArray (es ++ [element])

def removeElement (_ : Addr → FuzzM Addr) (es : List Addr) : FuzzM Addr := do
  let pos ← next 0 (lastIndex es.length)
  createArray (es.take pos ++ es.drop (pos + 1))

/-- `MutateElement`, where `mutate` is `Mutate` one level deeper. -/
def mutateElement (mutate : Addr → FuzzM Addr) (es : List Addr) : FuzzM Addr := do
  let pos ← next 0 (lastIndex es.length)
  match es[pos]? with
  | some e => do
    let mutatedElement ← mutate e
    createArray (es.take pos ++ [mutatedElement] ++ es.drop (pos + 1))
  | none => throw .outOfRange

def exchangeElements (_ : Addr → FuzzM Addr) (es : List Addr) : FuzzM Addr := do
  let pos₁ ← next 0 (es.length - 2)
  let pos₂ ← next (pos₁ + 1) (lastIndex es.length)
  createArray (← swapped es pos₁ pos₂)

/-- The operators that `MutateArray` can choose. -/
def arrayMutators (rootEntryIndex callIndex : ℕ) (es : List Addr) :
    List ((Addr → FuzzM Addr) → List Addr → FuzzM Addr) :=
  (if es.length < gen.options.maxArrayLength then [pushElement gen rootEntryIndex callIndex] else []) ++
  (if 0 < es.length then [removeElement] else []) ++
  (if 0 < es.length then [mutateElement] else []) ++
  (if 2 ≤ es.length then [exchangeElements] else [])

/-- `MutateArray` of an array with the elements `es`. The array itself is not written to. -/
def mutateArray (rootEntryIndex callIndex : ℕ) (mutate : Addr → FuzzM Addr) (es : List Addr) : FuzzM Addr :=
  if (arrayMutators gen rootEntryIndex callIndex es).isEmpty then throw .assertion
  else do (← select (arrayMutators gen rootEntryIndex callIndex es)) mutate es

/-- Whether to generate a new value. -/
def generateNew (depth : ℕ) : FuzzM Bool :=
  if gen.options.maxDepth < depth then return true else withProbability generateNewValueProb

/-- The second `switch` of `Mutate`, for the object `v` at `value`; `mutate` is `Mutate` one level
deeper. -/
def mutateKind (rootEntryIndex callIndex : ℕ) (mutate : Addr → FuzzM Addr) (value : Addr) : Value → FuzzM Addr
  | .literal .undefined => throw .unreachable
  | .literal .null => throw .unreachable
  | .literal (.function _) => gen.generateFunctionValue rootEntryIndex
  | .literal (.boolean b) => givePool (·.getBooleanValue !b)
  | .literal (.string s) => mutateString gen s
  | .literal (.integer i) => mutateInteger i
  | .literal (.float x) => mutateFloat value x
  | .array es => mutateArray gen rootEntryIndex callIndex mutate es
  | .placeholder _ => gen.generateValue rootEntryIndex ⟨callIndex⟩

/-- `Mutate(value, rootEntryIndex, callIndex, depth)`. -/
def mutateValueAt (rootEntryIndex callIndex : ℕ) : ℕ → Addr → ℕ → FuzzM Addr
  | 0, _, _ => throw .outOfFuel
  | fuel + 1, value, depth => do
    if ← generateNew gen depth then gen.generateValue rootEntryIndex ⟨callIndex⟩ else
    match ← readValue value with
    | .literal .undefined => gen.generateValue rootEntryIndex ⟨callIndex⟩
    | .literal .null => gen.generateValue rootEntryIndex ⟨callIndex⟩
    | v => do
      if ← withProbability mutateTypeProb then gen.generateValue rootEntryIndex ⟨callIndex⟩
      else
        mutateKind gen rootEntryIndex callIndex
          (fun element => mutateValueAt rootEntryIndex callIndex fuel element (depth + 1)) value v

/-- `Mutate(value, rootEntryIndex, callIndex, DEPTH_TOP)`. The depth stops at `MaxDepth`. -/
def mutateValue (rootEntryIndex callIndex : ℕ) (value : Addr) : FuzzM Addr :=
  mutateValueAt gen rootEntryIndex callIndex (gen.options.maxDepth + 1) value 1

/-! ## Test cases -/

/-- `testCase.GetFunctionCall(index)`. -/
def getFunctionCall (testCase : TestCase) (index : ℕ) : FuzzM FunctionCall :=
  match testCase.calls[index]? with
  | some call => return call
  | none => throw .outOfRange

/-- Change a call in place. -/
def setFunctionCall (testCase : TestCase) (index : ℕ) (call : FunctionCall) : TestCase :=
  { testCase with calls := testCase.calls.set index call }

/-- `testCase.InsertFunctionCall(index, call)`. -/
def insertFunctionCall (testCase : TestCase) (index : ℕ) (call : FunctionCall) : FuzzM TestCase :=
  if index ≤ testCase.calls.length then return { testCase with calls := testCase.calls.insertIdx index call }
  else throw .assertion

/-- `testCase.RemoveFunctionCall(index)`. -/
def eraseFunctionCall (testCase : TestCase) (index : ℕ) : FuzzM TestCase :=
  if index < testCase.calls.length then return { testCase with calls := testCase.calls.eraseIdx index }
  else throw .assertion

/-- What `AddFunctionCall` makes of a placeholder. -/
def fixAdded (index : ℕ) : PlaceholderFixer.Fixer := fun _ placeholderIndex =>
  givePool (·.getPlaceholderValue (if index ≤ placeholderIndex then placeholderIndex + 1 else placeholderIndex))

def addFunctionCall (testCase : TestCase) : FuzzM TestCase := do
  let index ← next 0 testCase.calls.length
  let call ← gen.generateFunctionCall index testCase.storeRootEntryIndex
  let testCase ← insertFunctionCall testCase index call
  PlaceholderFixer.fix (fixAdded index) (index + 1) testCase

/-- What `RemoveFunctionCall` makes of a placeholder. -/
def fixRemoved (rootEntryIndex index : ℕ) : PlaceholderFixer.Fixer := fun callIndex placeholderIndex =>
  if placeholderIndex = index then gen.generateValue rootEntryIndex ⟨callIndex⟩
  else givePool (·.getPlaceholderValue (if index < placeholderIndex then placeholderIndex - 1 else placeholderIndex))

def removeFunctionCall (testCase : TestCase) : FuzzM TestCase := do
  let index ← next 0 (lastIndex testCase.calls.length)
  let testCase ← eraseFunctionCall testCase index
  PlaceholderFixer.fix (fixRemoved gen testCase.storeRootEntryIndex index) index testCase

/-- The new `this` object of a call. -/
def mutateReceiver (rootEntryIndex callIndex : ℕ) : Option Addr → FuzzM Addr
  | some thisValue => mutateValue gen rootEntryIndex callIndex thisValue
  | none => gen.generateValue rootEntryIndex ⟨callIndex⟩

def mutateThis (testCase : TestCase) : FuzzM TestCase := do
  let callIndex ← next 0 (lastIndex testCase.calls.length)
  let call ← getFunctionCall testCase callIndex
  let thisValue ← mutateReceiver gen testCase.storeRootEntryIndex callIndex call.thisValue
  return setFunctionCall testCase callIndex { call with thisValue := some thisValue }

def mutateCtor (testCase : TestCase) : FuzzM TestCase := do
  let callIndex ← next 0 (lastIndex testCase.calls.length)
  let call ← getFunctionCall testCase callIndex
  return setFunctionCall testCase callIndex { call with ctor := !call.ctor }

/-- The calls that an operator can choose, by their number of arguments. -/
def candidates (testCase : TestCase) (p : ℕ → Bool) : List ℕ :=
  (List.range testCase.calls.length).filter fun i => testCase.calls[i]?.any fun call => p call.args.length

/-- Collect the candidates and choose one. -/
def selectCandidate (testCase : TestCase) (p : ℕ → Bool) : FuzzM ℕ :=
  let candidates := candidates testCase p
  if candidates.isEmpty then throw .assertion else select candidates

def addArgument (testCase : TestCase) : FuzzM TestCase := do
  let callIndex ← selectCandidate testCase (· < gen.options.maxArguments)
  let call ← getFunctionCall testCase callIndex
  let arg ← gen.generateValue testCase.storeRootEntryIndex ⟨callIndex⟩
  return setFunctionCall testCase callIndex { call with args := call.args ++ [arg] }

def removeArgument (testCase : TestCase) : FuzzM TestCase := do
  let callIndex ← selectCandidate testCase (0 < ·)
  let call ← getFunctionCall testCase callIndex
  let removeIndex ← next 0 (lastIndex call.args.length)
  return setFunctionCall testCase callIndex { call with args := call.args.eraseIdx removeIndex }

def mutateArgument (testCase : TestCase) : FuzzM TestCase := do
  let callIndex ← selectCandidate testCase (0 < ·)
  let call ← getFunctionCall testCase callIndex
  let mutateIndex ← next 0 (lastIndex call.args.length)
  match call.args[mutateIndex]? with
  | some arg => do
    let arg ← mutateValue gen testCase.storeRootEntryIndex callIndex arg
    return setFunctionCall testCase callIndex { call with args := call.args.set mutateIndex arg }
  | none => throw .outOfRange

/-- The operators that `Mutate` can choose. -/
def mutators (testCase : TestCase) : List (TestCase → FuzzM TestCase) :=
  (if testCase.calls.length < gen.options.maxCalls then [addFunctionCall gen] else []) ++
  (if 1 < testCase.calls.length then [removeFunctionCall gen] else []) ++
  [mutateThis gen, mutateCtor] ++
  (if testCase.calls.any (·.args.length < gen.options.maxArguments) then [addArgument gen] else []) ++
  (if testCase.calls.any (1 ≤ ·.args.length) then [removeArgument] else []) ++
  (if testCase.calls.any (1 ≤ ·.args.length) then [mutateArgument gen] else [])

/-- `Mutate(testCase)`. -/
def mutate (testCase : TestCase) : FuzzM TestCase :=
  if (mutators gen testCase).isEmpty then throw .assertion
  else do (← select (mutators gen testCase)) testCase

end TestCaseMutator

end Caf
