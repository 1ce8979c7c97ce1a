import Caf.Spec.Random

/-!
# The generator

`TestCaseGenerator` makes test cases, calls and values from the functions of a root entry.
-/

namespace Caf

open Caf.Random

/-- `TestCaseGenerator::Options`. -/
structure Options where
  maxCalls : ℕ := 5
  maxStringLength : ℕ := 10
  maxArrayLength : ℕ := 5
  maxArguments : ℕ := 5
  maxDepth : ℕ := 3

/-- `GENERATE_THIS_PROB`, 0.5. -/
def generateThisProb : Double := 0x3fe0000000000000

/-- `GENERATE_CTOR_PROB`, 0.2. -/
def generateCtorProb : Double := 0x3fc999999999999a

/-- `GENERATE_DICT_INT_PROB`, 0.6. -/
def generateDictIntProb : Double := 0x3fe3333333333333

/-- `CHOOSE_EXISTING_PROB`, 0.2. -/
def chooseExistingProb : Double := 0x3fc999999999999a

/-- `GENERATE_DICT_FLOAT_PROB`, 0.2. -/
def generateDictFloatProb : Double := 0x3fc999999999999a

/-- `IntegerDictionary`. -/
def integerDictionary : List Int32 :=
  [-1, 0, 1, 2, 3, 4, 7, 8, 9, 15, 16, 17, 31, 32, 33, 63, 64, 65, 127, 128, 129, 255, 256, 257,
    511, 512, 513, 1023, 1024, 1025, 4095, 4096, 4097, 32767, 32768, 32769, 65535, 65536, 65537,
    -128, -32768, -2147483648, 2147483647]

/-- `FloatDictionary`: 0.0, -0.0, 1.0, -1.0, the epsilon, both infinities and the quiet NaN. -/
def floatDictionary : List Double :=
  [0, 0x8000000000000000, 0x3ff0000000000000, 0xbff0000000000000, 0x3cb0000000000000,
    .infinity, .negInfinity, .quietNaN]

/-- `CharacterSet`. -/
def characterSet : StdString :=
  text "abcdefghijklmnopqrstuvwxyz" ++
  text "ABCDEFGHIJKLMNOPQRSTUVWXYZ" ++
  text "0123456789" ++
  text "~!@#$%^&*()-=_+" ++
  text "`[]\\\x7b\x7d|;':\",./<>?" ++
  text " \n\t\r"

/-- `GeneratePlaceholderValueParams`. -/
structure GeneratePlaceholderValueParams where
  currCallIndex : ℕ := 0

namespace GeneratePlaceholderValueParams

def shouldGenerate (p : GeneratePlaceholderValueParams) : Bool := p.currCallIndex != 0

def setCurrentCallIndex (_ : GeneratePlaceholderValueParams) (index : ℕ) : GeneratePlaceholderValueParams :=
  ⟨index⟩

end GeneratePlaceholderValueParams

/-- `TestCaseGenerator`, but for the pool and the random numbers, which are the state. -/
structure TestCaseGenerator where
  store : CAFStore
  options : Options

namespace TestCaseGenerator

variable (gen : TestCaseGenerator)

def generateStringCharacter : FuzzM UInt8 := select characterSet

def generateArgumentsCount : FuzzM ℕ := next 0 5

def generateValueKind (generateArrayKind generatePlaceholderKind : Bool) : FuzzM ValueKind :=
  let candidates : List ValueKind := [.undefined, .null, .boolean, .string, .function, .integer, .float]
  let candidates := if generateArrayKind then candidates ++ [.array] else candidates
  let candidates := if generatePlaceholderKind then candidates ++ [.placeholder] else candidates
  select candidates

/-- `GenerateFunctionValue`. -/
def generateFunctionValue (rootEntryIndex : ℕ) : FuzzM Addr := do
  let funcId ← gen.store.selectFunction rootEntryIndex
  givePool (·.getFunctionValue funcId)

/-- The case `Integer` of `GenerateValue`. -/
def generateInteger : FuzzM Addr := do
  if ← withProbability generateDictIntProb then
    let value ← select integerDictionary
    givePool (·.getOrCreateIntegerValue value)
  else
    let value ← nextInt (-2147483648) 2147483647
    givePool (·.getOrCreateIntegerValue (Int32.ofInt value))

/-- The case `Float` of `GenerateValue`. -/
def generateFloat : FuzzM Addr := do
  if ← withProbability generateDictFloatProb then
    let value ← select floatDictionary
    givePool (·.getOrCreateFloatValue value)
  else
    let value ← nextDouble
    givePool (·.getOrCreateFloatValue value)

/-- `value->Push(element)`. -/
def pushElement (value element : Addr) : FuzzM Unit := fun s =>
  .ok ((), { s with pool := s.pool.push value element })

/-- The kinds of `GenerateValue` without elements. -/
def generateScalar (rootEntryIndex : ℕ) (params : GeneratePlaceholderValueParams) : ValueKind → FuzzM Addr
  | .undefined => givePool (·.getUndefinedValue)
  | .null => givePool (·.getNullValue)
  | .function => gen.generateFunctionValue rootEntryIndex
  | .boolean => do
    let value ← next 0 1
    givePool (·.getBooleanValue (value != 0))
  | .string => do
    let s ← nextString 0 gen.options.maxStringLength characterSet
    givePool (·.getOrCreateStringValue s)
  | .integer => generateInteger
  | .float => generateFloat
  | .placeholder => do
    let index ← next 0 (lastIndex params.currCallIndex)
    givePool (·.getPlaceholderValue index)
  | .array => throw .unreachable

/-- `!pool.empty() && _rnd.WithProbability(CHOOSE_EXISTING_PROB)`. -/
def chooseExisting : FuzzM Bool := fun s =>
  if s.pool.values.isEmpty then .ok (false, s) else withProbability chooseExistingProb s

/-- `GenerateValue(rootEntryIndex, params, depth)`. -/
def generateValueAt : ℕ → ℕ → GeneratePlaceholderValueParams → ℕ → FuzzM Addr
  | 0, _, _, _ => throw .outOfFuel
  | fuel + 1, rootEntryIndex, params, depth => do
    if ← chooseExisting then ObjectPool.selectValue else do
      let kind ← generateValueKind (depth < gen.options.maxDepth) params.shouldGenerate
      if kind = .array then do
        let size ← next 0 gen.options.maxArrayLength
        let value ← givePool (·.createArrayValue)
        forM (List.range size) fun _ => do
          let element ← generateValueAt fuel rootEntryIndex params (depth + 1)
          pushElement value element
        return value
      else
        gen.generateScalar rootEntryIndex params kind

/-- `GenerateValue(rootEntryIndex, params)`. Values nest no deeper than `MaxDepth` levels, and they
have at least one. -/
def generateValue (rootEntryIndex : ℕ) (params : GeneratePlaceholderValueParams) : FuzzM Addr :=
  gen.generateValueAt (gen.options.maxDepth + 1) rootEntryIndex params 1

/-- The `this` object of a call, if there is to be one. -/
def generateThis (rootEntryIndex : ℕ) (params : GeneratePlaceholderValueParams) : FuzzM (Option Addr) := do
  if ← withProbability generateThisProb then some <$> gen.generateValue rootEntryIndex params
  else return none

/-- `GenerateFunctionCall`. -/
def generateFunctionCall (index rootEntryIndex : ℕ) : FuzzM FunctionCall := do
  let calleeId ← gen.store.selectFunction rootEntryIndex
  let params : GeneratePlaceholderValueParams := {}
  let params := if index ≠ 0 then params.setCurrentCallIndex index else params
  let thisValue ← gen.generateThis rootEntryIndex params
  let ctor ← withProbability generateCtorProb
  let argsCount ← generateArgumentsCount
  let args ← (List.range argsCount).mapM fun _ => gen.generateValue rootEntryIndex params
  return ⟨calleeId, thisValue, ctor, args⟩

/-- `GenerateTestCase(rootEntryIndex)`. -/
def generateTestCase (rootEntryIndex : ℕ) : FuzzM TestCase := do
  let callsCount ← next 1 gen.options.maxCalls
  let calls ← (List.range callsCount).mapM fun i => gen.generateFunctionCall i rootEntryIndex
  return ⟨rootEntryIndex, calls⟩

/-- `GenerateTestCase()`. -/
def generateAnyTestCase : FuzzM TestCase := do
  gen.generateTestCase (← next 0 (lastIndex gen.store.entries.length))

end TestCaseGenerator

end Caf
