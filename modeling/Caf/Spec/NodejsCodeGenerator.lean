import Caf.Ir.Builder
import Caf.Spec.Value

/-!
# The code generator for Node.js

`CAFCodeGeneratorForNodejs` adds functions to the module of the target, which read a test case from the standard input
and call the API functions. An API function is designated by its index in the list that the extractor made, which is
its function id.
-/

namespace Caf

open Ir Ir.Builder

/-- The functions in the module of the target: the generated ones, those of `caflib.h`, and those of other libraries. -/
inductive Symbol where
  /-- `__caf_main` -/
  | cafMain
  /-- `__caf_dispatch_api` -/
  | dispatchApi
  /-- `caf_dispatch_malloc_value_of_type` -/
  | dispatchMallocValueOfType
  /-- `__caf_dispatch_callbackfuncarr` -/
  | dispatchCallbackFuncArr
  | inputIntTo | inputDoubleTo | inputBytesTo | saveToObjectList | getFromObjectList
  | printf
  | createUndefined | createNull | createBoolean | createString | createInteger | createNumber | createFunction
  | createArray | createFunctionCallbackInfo | getRetValue
  | showBoolean | showString | showInteger | showNumber
  /-- An API function. -/
  | api (index : ℕ)
  deriving DecidableEq

namespace CAFCodeGeneratorForNodejs

abbrev IRBuilder := Builder Symbol

abbrev LlvmValue := Operand Symbol

/-- The global array `callbackfunc_candidates`. -/
def callbackFuncArray : LlvmValue := .global 0

/-- `ConstantDataArray::getString`, with the terminating null character. -/
def getString (s : StdString) : List UInt8 := s ++ [0]

def createInputIntToCall (dest : LlvmValue) : IRBuilder Unit := do
  let destToInt32Ptr ← createBitCast dest
  discard (createCall .inputIntTo [destToInt32Ptr])

def createInputDoubleToCall (dest : LlvmValue) : IRBuilder Unit := do
  let destToDoublePtr ← createBitCast dest
  discard (createCall .inputDoubleTo [destToDoublePtr])

def createInputBytesToCall (dest size : LlvmValue) : IRBuilder Unit := do
  let destToInt8Ptr ← createBitCast dest
  discard (createCall .inputBytesTo [destToInt8Ptr, size])

/-- The argument is an `i64`, so the cast to it does nothing. -/
def createSaveToObjectListCall (objPtr : LlvmValue) : IRBuilder Unit := do
  discard (createCall .saveToObjectList [objPtr])

/-- The argument is an `i32`, so the cast to it does nothing. -/
def createGetFromObjectListCall (objIdx : LlvmValue) : IRBuilder LlvmValue :=
  createCall .getFromObjectList [objIdx]

/-- Both functions `CreatePrintfCall`: with a value to print, or without. -/
def createPrintfCall (format : StdString) (values : List LlvmValue) : IRBuilder Unit := do
  let stringConstant := getString format
  let stringVar ← insert (.allocaArray .i8 stringConstant.length)
  discard (insert (.storeBytes stringConstant stringVar))
  let formatStr ← createBitCast stringVar
  discard (createCall .printf (formatStr :: values))

def mallocUndefinedType : IRBuilder LlvmValue := createCall .createUndefined []

def mallocNullType : IRBuilder LlvmValue := createCall .createNull []

def mallocStringType : IRBuilder LlvmValue := do
  let inputStringLength ← createAlloca .i32 (.i32 1)
  createInputIntToCall inputStringLength
  let inputStringLengthValue ← createLoad .i32 inputStringLength
  createPrintfCall (text "input_string_length = %d\n") [inputStringLengthValue]
  let valueAddr ← createAlloca .i8 inputStringLengthValue
  createInputBytesToCall valueAddr inputStringLengthValue
  createPrintfCall (text "input value = %d\n") [← createLoad .i8 valueAddr]
  let stringPtr ← createCall .createString [valueAddr]
  discard (createCall .showString [stringPtr])
  return stringPtr

def mallocIntegerType : IRBuilder LlvmValue := do
  let inputInteger ← createAlloca .i32 (.i32 1)
  createInputIntToCall inputInteger
  let inputIntegerValue ← createLoad .i32 inputInteger
  createPrintfCall (text "input integer = %d\n") [inputIntegerValue]
  let integerPtr ← createCall .createInteger [inputIntegerValue]
  discard (createCall .showInteger [integerPtr])
  return integerPtr

def mallocBooleanType : IRBuilder LlvmValue := do
  let inputBoolean ← createAlloca .i8 (.i32 1)
  createInputBytesToCall inputBoolean (.i32 1)
  let inputBooleanValue ← createLoad .i8 inputBoolean
  createPrintfCall (text "input boolean = %hhx\n") [inputBooleanValue]
  let booleanPtr ← createCall .createBoolean [inputBooleanValue]
  discard (createCall .showBoolean [booleanPtr])
  return booleanPtr

def mallocFloatingPointerType : IRBuilder LlvmValue := do
  let inputDouble ← createAlloca .double (.i32 1)
  createInputDoubleToCall inputDouble
  let inputDoubleValue ← createLoad .double inputDouble
  createPrintfCall (text "input double = %lf\n") [inputDoubleValue]
  let doublePtr ← createCall .createNumber [inputDoubleValue]
  discard (createCall .showNumber [doublePtr])
  return doublePtr

def mallocPlaceholderType : IRBuilder LlvmValue := do
  let placeholderIndex ← createAlloca .i32 (.i32 1)
  createInputIntToCall placeholderIndex
  let placeholderIndexValue ← createLoad .i32 placeholderIndex
  createPrintfCall (text "placeholder_index= %d\n") [placeholderIndexValue]
  let placeholder ← createGetFromObjectListCall placeholderIndexValue
  createIntToPtr placeholder

def mallocFunctionType : IRBuilder LlvmValue := do
  let funcId ← createAlloca .i32 (.i32 1)
  createInputIntToCall funcId
  let funcIdValue ← createLoad .i32 funcId
  createPrintfCall (text "func_id = %d\n") [funcIdValue]
  let funcAddrToLoad ← createGEP .i64 callbackFuncArray funcIdValue
  let funcAsInt64 ← createLoad .i64 funcAddrToLoad
  let func ← createIntToPtr funcAsInt64
  createCall .createFunction [func]

/-- The loop `for (cur = 0; cur < count; ++cur) array[cur] = caf_dispatch_malloc_value_of_type();`. The builder is at
`loopEnd` afterwards. -/
def createMallocValuesLoop (cur count array : LlvmValue) (whileCond whileBody loopEnd : ℕ) : IRBuilder Unit := do
  createBr whileCond
  setInsertPoint whileCond
  let curValue ← createLoad .i32 cur
  let cond ← insert (.icmp .slt curValue count)
  createCondBr cond whileBody loopEnd
  setInsertPoint whileBody
  let curValue ← createLoad .i32 cur
  let element ← createCall .dispatchMallocValueOfType []
  let elementToInt8Ptr ← createBitCast element
  let curAddr ← createGEP .pointer array curValue
  createStore elementToInt8Ptr curAddr
  let curValueAddOne ← insert (.add curValue (.i32 1))
  createStore curValueAddOne cur
  createBr whileCond
  setInsertPoint loopEnd

def mallocArrayType : IRBuilder LlvmValue := do
  let inputArraySize ← createAlloca .i32 (.i32 1)
  createInputIntToCall inputArraySize
  let inputArraySizeValue ← createLoad .i32 inputArraySize
  createPrintfCall (text "input_arraysize = %d\n") [inputArraySizeValue]
  let arrayElements ← createAlloca .pointer inputArraySizeValue
  let whileCond ← createBlock "malloc.array.while.cond"
  let whileBody ← createBlock "malloc.array.while.body"
  let mallocArrayEnd ← createBlock "malloc.array.end"
  let curIndex ← createAlloca .i32 (.i32 1)
  createStore (.i32 0) curIndex
  createMallocValuesLoop curIndex inputArraySizeValue arrayElements whileCond whileBody mallocArrayEnd
  let arrayValue ← createCall .createArray [arrayElements, inputArraySizeValue]
  createSaveToObjectListCall (← createPtrToInt arrayValue)
  return arrayValue

/-- One case of `CreateDispatchMallocValueOfType`: a block that returns the value of a kind. -/
def createMallocCase (name : String) (malloc : IRBuilder LlvmValue) : IRBuilder ℕ := do
  let block ← createBlock name
  setInsertPoint block
  let value ← malloc
  let valueToInt8Ptr ← createBitCast value
  createRet valueToInt8Ptr
  return block

def createDispatchMallocValueOfType : IRBuilder Unit := do
  let dispatchFuncEntry ← createBlock "caf.malloc.entry"
  let mallocUndefined ← createMallocCase "caf.malloc.undefine" mallocUndefinedType
  let mallocNull ← createMallocCase "caf.malloc.null" mallocNullType
  let mallocBoolean ← createMallocCase "caf.malloc.boolean" mallocBooleanType
  let mallocString ← createMallocCase "caf.malloc.string" mallocStringType
  let mallocFunction ← createMallocCase "caf.malloc.function" mallocFunctionType
  let mallocInteger ← createMallocCase "caf.malloc.integer" mallocIntegerType
  let mallocFloatingPointer ← createMallocCase "caf.malloc.float" mallocFloatingPointerType
  let mallocArray ← createMallocCase "caf.malloc.array" mallocArrayType
  let mallocPlaceholder ← createMallocCase "caf.malloc.placeholder" mallocPlaceholderType
  setInsertPoint dispatchFuncEntry
  let inputKind ← createAlloca .i32 (.i32 1)
  createStore (.i32 0) inputKind
  createInputBytesToCall inputKind (.i32 1)
  let inputKindValue ← createLoad .i32 inputKind
  createPrintfCall (text "\ninput_kind = %x\n") [inputKindValue]
  createSwitch inputKindValue mallocUndefined
    [(0, mallocUndefined), (1, mallocNull), (2, mallocBoolean), (3, mallocString), (4, mallocFunction),
      (5, mallocInteger), (6, mallocFloatingPointer), (7, mallocArray), (8, mallocPlaceholder)]

/-- `CreateCallApiCase`. `name` is the demangled name of the API function `caseCounter`. -/
def createCallApiCase (name : StdString) (caseCounter : ℕ) : IRBuilder (Int32 × ℕ) := do
  let invokeApiCase ← createBlock ("invoke.case." ++ toString caseCounter)
  setInsertPoint invokeApiCase
  createPrintfCall (name ++ text "\n") []
  let thisArg ← createBitCast (← createCall .dispatchMallocValueOfType [])
  let argsCount ← createAlloca .i32 (.i32 1)
  createInputIntToCall argsCount
  let argsCountValue ← createLoad .i32 argsCount
  createPrintfCall (text "args_count = %d\n") [argsCountValue]
  let implicitArgs ← createAlloca .pointer (.i32 6)
  let values ← createAlloca .pointer argsCountValue
  let curAddr ← createGEP .pointer implicitArgs (.i32 0)
  createStore thisArg curAddr
  let whileCond ← createBlock "malloc.args.while.cond"
  let whileBody ← createBlock "malloc.args.while.body"
  let mallocArgsEnd ← createBlock "malloc.args.end"
  let curArgsNum ← createAlloca .i32 (.i32 1)
  createStore (.i32 0) curArgsNum
  createMallocValuesLoop curArgsNum argsCountValue values whileCond whileBody mallocArgsEnd
  let functionCallbackInfoValue ← createCall .createFunctionCallbackInfo [implicitArgs, values, argsCountValue]
  discard (createCall (.api caseCounter) [functionCallbackInfoValue])
  let returnValue ← createCall .getRetValue [functionCallbackInfoValue]
  createPrintfCall (text "retType:\tsave to object list.\n") []
  createSaveToObjectListCall (← createPtrToInt returnValue)
  createRetVoid
  return (Int32.ofNat caseCounter, invokeApiCase)

/-- The loop over the API functions, from the function `caseCounter` on. -/
def createCallApiCases : ℕ → List StdString → IRBuilder (List (Int32 × ℕ))
  | _, [] => return []
  | caseCounter, name :: names => do
    let c ← createCallApiCase name caseCounter
    let cases ← createCallApiCases (caseCounter + 1) names
    return c :: cases

def createDispatchFunctionForApi (names : List StdString) : IRBuilder Unit := do
  let invokeApiEntry ← createBlock "caf.dispatch.entry"
  let cases ← createCallApiCases 0 names
  if cases.isEmpty then
    setInsertPoint invokeApiEntry
    createRetVoid
  else
    let invokeApiDefault ← createBlock "api.invoke.defualt"
    let invokeApiEnd ← createBlock "api.invoke.end"
    setInsertPoint invokeApiEntry
    createSwitch (.arg 0) invokeApiDefault cases
    setInsertPoint invokeApiDefault
    createBr invokeApiEnd
    setInsertPoint invokeApiEnd
    createRetVoid

/-- The body of the loop over the candidates. -/
def createStoreCandidate (functionId : ℕ) : IRBuilder Unit := do
  let funcToStore ← createPtrToInt (.function (.api functionId))
  let curAddrToStore ← createGEP .i64 callbackFuncArray (.i32 (Int32.ofNat functionId))
  createStore funcToStore curAddrToStore

/-- The function that `GenerateCallbackFunctionCandidateArray` makes. -/
def generateCallbackFunctionCandidateArray (candidates : ℕ) : IRBuilder Unit := do
  let entryBlock ← createBlock "entry"
  let endBlock ← createBlock "end"
  setInsertPoint entryBlock
  (List.range candidates).forM createStoreCandidate
  createBr endBlock
  setInsertPoint endBlock
  createRetVoid

/-- The function `__caf_main` that `GenerateStub` makes. -/
def createCafMain : IRBuilder Unit := do
  let mainEntry ← createBlock "main.entry"
  let mainWhileCond ← createBlock "main.while.cond"
  let mainWhileBody ← createBlock "main.while.body"
  let mainEnd ← createBlock "main.end"
  setInsertPoint mainEntry
  createPrintfCall (text "__caf_main runnning...\n\n") []
  discard (createCall .dispatchCallbackFuncArr [])
  let testCaseSize ← createAlloca .i32 (.i32 1)
  createInputIntToCall testCaseSize
  createBr mainWhileCond
  setInsertPoint mainWhileCond
  let loadTestCaseSize ← createLoad .i32 testCaseSize
  let scanfCond ← insert (.icmp .sgt loadTestCaseSize (.i32 0))
  createCondBr scanfCond mainWhileBody mainEnd
  setInsertPoint mainWhileBody
  let loadTestCaseSize ← createLoad .i32 testCaseSize
  createPrintfCall (text "testcase num = %d\n") [loadTestCaseSize]
  let testcaseSubone ← insert (.sub loadTestCaseSize (.i32 1))
  createStore testcaseSubone testCaseSize
  let apiId ← createAlloca .i32 (.i32 1)
  createInputIntToCall apiId
  let loadApiId ← createLoad .i32 apiId
  createPrintfCall (text "api_id = %d\n") [loadApiId]
  discard (createCall .dispatchApi [loadApiId])
  createBr mainWhileCond
  setInsertPoint mainEnd
  createRetVoid

/-- **`GenerateStub`**, for the API functions with the given demangled names. -/
def generateStub (names : List StdString) : List (Symbol × Ir.Function Symbol) :=
  [(.dispatchCallbackFuncArr, build (generateCallbackFunctionCandidateArray names.length)),
    (.dispatchMallocValueOfType, build createDispatchMallocValueOfType),
    (.dispatchApi, build (createDispatchFunctionForApi names)),
    (.cafMain, build createCafMain)]

end CAFCodeGeneratorForNodejs

end Caf
