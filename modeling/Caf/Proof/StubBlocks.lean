import Caf.Proof.StubLoop

/-!
# The blocks of the generated functions

What the functions of the code generator insert, from the function that inserts a call of `printf` to the functions that
make a whole function.

* `run_createPrintfCall`, `run_createMallocValuesLoop` and the like: what is inserted, from any state of the builder.
* `build_createDispatchMallocValueOfType`: the blocks of `caf_dispatch_malloc_value_of_type`.
-/

namespace Caf

open Ir Ir.Builder CAFCodeGeneratorForNodejs

/-! ## Instructions -/

@[simp] theorem length_printfInsts (k : ℕ) (format : StdString) (values : List LlvmValue) :
    (printfInsts k format values).length = 4 := rfl

@[simp] theorem length_readInsts (ty : Ty) (callee : Symbol) (k : ℕ) : (readInsts ty callee k).length = 4 := rfl

@[simp] theorem length_scanInsts (k : ℕ) (count : LlvmValue) : (scanInsts k count).length = 4 := rfl

@[simp] theorem length_loopCondInsts (k cur count body loopEnd : ℕ) :
    (loopCondInsts k cur count body loopEnd).length = 3 := rfl

@[simp] theorem length_loopBodyInsts (k cur array cond : ℕ) : (loopBodyInsts k cur array cond).length = 8 := rfl

section Run

variable (s : BuilderState Symbol)

@[simp] theorem run_createPrintfCall (format : StdString) (values : List LlvmValue) :
    (createPrintfCall format values).run s = pure ((), s.emit (printfInsts s.next format values)) := by
  simp -implicitDefEqProofs [createPrintfCall, printfInsts, createBitCast, createCall]

@[simp] theorem run_createMallocValuesLoop (cur count array cond body loopEnd : ℕ) :
    (createMallocValuesLoop (.reg cur) (.reg count) (.reg array) cond body loopEnd).run s = pure ((),
      let s := s.emit [⟨s.next, .br cond⟩]
      let s := { s with insertBlock := cond }.emit (loopCondInsts s.next cur count body loopEnd)
      let s := { s with insertBlock := body }.emit (loopBodyInsts (s.next - 3) cur array cond)
      { s with insertBlock := loopEnd }) := by
  simp -implicitDefEqProofs [createMallocValuesLoop, createBr, createLoad, createCondBr, createCall, createBitCast,
    createGEP, createStore, loopCondInsts, loopBodyInsts, loopStoreInsts]

/-- A value is made by `create` and shown. -/
def createShownInsts (k : ℕ) (create showValue : Symbol) (arg : LlvmValue) : List (Inst Symbol) :=
  [⟨k, .call create [arg]⟩, ⟨k + 1, .call showValue [.reg k]⟩]

/-- The end of a case. -/
def returnInsts (k : ℕ) (value : LlvmValue) : List (Inst Symbol) :=
  [⟨k, .bitCast value⟩, ⟨k + 1, .ret (some (.reg k))⟩]

/-- What a `Malloc` function without a loop inserts, from the register `k` on, and the value that it gives. -/
structure MallocCode where
  value : ℕ → LlvmValue
  insts : ℕ → List (Inst Symbol)

/-- The blocks of a case without a loop, which is one. -/
def MallocCode.blocks (c : MallocCode) (name : String) (_j k : ℕ) : List (Block Symbol) :=
  [⟨name, c.insts k ++ returnInsts (k + (c.insts k).length) (c.value k)⟩]

def mallocUndefined : MallocCode where
  value k := .reg k
  insts k := [⟨k, .call .createUndefined []⟩]

def mallocNull : MallocCode where
  value k := .reg k
  insts k := [⟨k, .call .createNull []⟩]

def mallocBoolean : MallocCode where
  value k := .reg (k + 8)
  insts k := scanInsts k (.i32 1) ++ printfInsts (k + 4) (text "input boolean = %hhx\n") [.reg (k + 3)] ++
    createShownInsts (k + 8) .createBoolean .showBoolean (.reg (k + 3))

def mallocString : MallocCode where
  value k := .reg (k + 16)
  insts k :=
    readInsts .i32 .inputIntTo k ++ printfInsts (k + 4) (text "input_string_length = %d\n") [.reg (k + 3)] ++
    scanInsts (k + 8) (.reg (k + 3)) ++ printfInsts (k + 12) (text "input value = %d\n") [.reg (k + 11)] ++
    createShownInsts (k + 16) .createString .showString (.reg (k + 8))

def mallocFunction : MallocCode where
  value k := .reg (k + 11)
  insts k := readInsts .i32 .inputIntTo k ++ printfInsts (k + 4) (text "func_id = %d\n") [.reg (k + 3)] ++
    [⟨k + 8, .gep .i64 (.global 0) (.reg (k + 3))⟩, ⟨k + 9, .load .i64 (.reg (k + 8))⟩,
      ⟨k + 10, .intToPtr (.reg (k + 9))⟩, ⟨k + 11, .call .createFunction [.reg (k + 10)]⟩]

def mallocInteger : MallocCode where
  value k := .reg (k + 8)
  insts k := readInsts .i32 .inputIntTo k ++ printfInsts (k + 4) (text "input integer = %d\n") [.reg (k + 3)] ++
    createShownInsts (k + 8) .createInteger .showInteger (.reg (k + 3))

def mallocFloatingPointer : MallocCode where
  value k := .reg (k + 8)
  insts k := readInsts .double .inputDoubleTo k ++ printfInsts (k + 4) (text "input double = %lf\n") [.reg (k + 3)] ++
    createShownInsts (k + 8) .createNumber .showNumber (.reg (k + 3))

def mallocPlaceholder : MallocCode where
  value k := .reg (k + 9)
  insts k := readInsts .i32 .inputIntTo k ++ printfInsts (k + 4) (text "placeholder_index= %d\n") [.reg (k + 3)] ++
    [⟨k + 8, .call .getFromObjectList [.reg (k + 3)]⟩, ⟨k + 9, .intToPtr (.reg (k + 8))⟩]

/-- A builder that inserts the instructions of `c` and nothing else. -/
structure InsertsCode (b : IRBuilder LlvmValue) (c : MallocCode) : Prop where
  run : ∀ s, b.run s = pure (c.value s.next, s.emit (c.insts s.next))

theorem inserts_mallocUndefinedType : InsertsCode mallocUndefinedType mallocUndefined := by
  constructor
  intro s
  simp -implicitDefEqProofs [mallocUndefinedType, mallocUndefined, createCall]

theorem inserts_mallocNullType : InsertsCode mallocNullType mallocNull := by
  constructor
  intro s
  simp -implicitDefEqProofs [mallocNullType, mallocNull, createCall]

theorem inserts_mallocBooleanType : InsertsCode mallocBooleanType mallocBoolean := by
  constructor
  intro s
  simp -implicitDefEqProofs [mallocBooleanType, mallocBoolean, scanInsts, createShownInsts, createAlloca,
    createInputBytesToCall, createBitCast, createCall, createLoad, Nat.add_assoc]

theorem inserts_mallocStringType : InsertsCode mallocStringType mallocString := by
  constructor
  intro s
  simp -implicitDefEqProofs [mallocStringType, mallocString, readInsts, scanInsts, createShownInsts, createAlloca,
    createInputIntToCall, createInputBytesToCall, createBitCast, createCall, createLoad, Nat.add_assoc]

theorem inserts_mallocFunctionType : InsertsCode mallocFunctionType mallocFunction := by
  constructor
  intro s
  simp -implicitDefEqProofs [mallocFunctionType, mallocFunction, readInsts, callbackFuncArray, createAlloca,
    createInputIntToCall, createBitCast, createCall, createLoad, createGEP, createIntToPtr, Nat.add_assoc]

theorem inserts_mallocIntegerType : InsertsCode mallocIntegerType mallocInteger := by
  constructor
  intro s
  simp -implicitDefEqProofs [mallocIntegerType, mallocInteger, readInsts, createShownInsts, createAlloca,
    createInputIntToCall, createBitCast, createCall, createLoad, Nat.add_assoc]

theorem inserts_mallocFloatingPointerType : InsertsCode mallocFloatingPointerType mallocFloatingPointer := by
  constructor
  intro s
  simp -implicitDefEqProofs [mallocFloatingPointerType, mallocFloatingPointer, readInsts, createShownInsts,
    createAlloca, createInputDoubleToCall, createBitCast, createCall, createLoad, Nat.add_assoc]

theorem inserts_mallocPlaceholderType : InsertsCode mallocPlaceholderType mallocPlaceholder := by
  constructor
  intro s
  simp -implicitDefEqProofs [mallocPlaceholderType, mallocPlaceholder, readInsts, createAlloca, createInputIntToCall,
    createGetFromObjectListCall, createBitCast, createCall, createLoad, createIntToPtr, Nat.add_assoc]

/-- A case without a loop is one block. -/
theorem InsertsCode.run_createMallocCase {b : IRBuilder LlvmValue} {c : MallocCode} (hb : InsertsCode b c)
    (name : String) : (createMallocCase name b).run s = pure (s.blocks.length,
      ⟨s.blocks ++ c.blocks name s.blocks.length s.next, s.blocks.length, s.next + (c.insts s.next).length + 2⟩) := by
  simp -implicitDefEqProofs [createMallocCase, hb.run, MallocCode.blocks, returnInsts, createBitCast, createRet,
    Nat.add_assoc]

/-- The blocks of the case for arrays, from the block `j` and the register `k` on. -/
def mallocArrayBlocks (j k : ℕ) : List (Block Symbol) :=
  [⟨"caf.malloc.array",
      readInsts .i32 .inputIntTo k ++ printfInsts (k + 4) (text "input_arraysize = %d\n") [.reg (k + 3)] ++
      [⟨k + 8, .alloca .pointer (.reg (k + 3))⟩, ⟨k + 9, .alloca .i32 (.i32 1)⟩,
        ⟨k + 10, .store (.i32 0) (.reg (k + 9))⟩, ⟨k + 11, .br (j + 1)⟩]⟩,
    ⟨"malloc.array.while.cond", loopCondInsts (k + 12) (k + 9) (k + 3) (j + 2) (j + 3)⟩,
    ⟨"malloc.array.while.body", loopBodyInsts (k + 12) (k + 9) (k + 8) (j + 1)⟩,
    ⟨"malloc.array.end",
      [⟨k + 23, .call .createArray [.reg (k + 8), .reg (k + 3)]⟩, ⟨k + 24, .ptrToInt (.reg (k + 23))⟩,
        ⟨k + 25, .call .saveToObjectList [.reg (k + 24)]⟩] ++ returnInsts (k + 26) (.reg (k + 23))⟩]

@[simp] theorem length_mallocArrayBlocks (j k : ℕ) : (mallocArrayBlocks j k).length = 4 := rfl

/-- The case for arrays has a loop. -/
theorem run_createMallocCase_mallocArrayType :
    (createMallocCase "caf.malloc.array" mallocArrayType).run s =
      pure (s.blocks.length,
        ⟨s.blocks ++ mallocArrayBlocks s.blocks.length s.next, s.blocks.length + 3, s.next + 28⟩) := by
  simp -implicitDefEqProofs [createMallocCase, mallocArrayType, mallocArrayBlocks, returnInsts, readInsts, createAlloca,
    createInputIntToCall, createBitCast, createCall, createLoad, createStore, createPtrToInt,
    createSaveToObjectListCall, createRet, Nat.add_assoc]

/-! ## `caf_dispatch_malloc_value_of_type` -/

/-- The blocks of a case, from a block and a register on. -/
abbrev MallocCase := ℕ → ℕ → List (Block Symbol)

/-- The cases, by their kinds. -/
def mallocCases : List MallocCase :=
  [mallocUndefined.blocks "caf.malloc.undefine", mallocNull.blocks "caf.malloc.null",
    mallocBoolean.blocks "caf.malloc.boolean", mallocString.blocks "caf.malloc.string",
    mallocFunction.blocks "caf.malloc.function", mallocInteger.blocks "caf.malloc.integer",
    mallocFloatingPointer.blocks "caf.malloc.float", mallocArrayBlocks,
    mallocPlaceholder.blocks "caf.malloc.placeholder"]

def registerCount (bs : List (Block Symbol)) : ℕ := (bs.map (·.insts.length)).sum

/-- The blocks of some cases, from the block `j` and the register `k` on. -/
def casesBlocks : List MallocCase → ℕ → ℕ → List (Block Symbol)
  | [], _, _ => []
  | c :: cs, j, k => c j k ++ casesBlocks cs (j + (c j k).length) (k + registerCount (c j k))

/-- Where the cases start: their first blocks and registers. -/
def caseStarts : List MallocCase → ℕ → ℕ → List (ℕ × ℕ)
  | [], _, _ => []
  | c :: cs, j, k => (j, k) :: caseStarts cs (j + (c j k).length) (k + registerCount (c j k))

/-- Where the case for a kind starts. A kind that is not known is Undefined. -/
def kindStart (kind : ℕ) : ℕ × ℕ := ((caseStarts mallocCases 1 0)[kind]?).getD (1, 0)

/-- The cases of the `switch`. -/
def kindCases : List (Int32 × ℕ) :=
  (List.range mallocCases.length).map fun kind => (Int32.ofNat kind, (kindStart kind).1)

/-- The kind is read. -/
def readKindInsts (k : ℕ) : List (Inst Symbol) :=
  [⟨k, .alloca .i32 (.i32 1)⟩, ⟨k + 1, .store (.i32 0) (.reg k)⟩, ⟨k + 2, .bitCast (.reg k)⟩,
    ⟨k + 3, .call .inputBytesTo [.reg (k + 2), .i32 1]⟩, ⟨k + 4, .load .i32 (.reg k)⟩]

/-- The entry goes to the case for the kind. -/
def mallocEntryInsts (k : ℕ) : List (Inst Symbol) :=
  readKindInsts k ++ (printfInsts (k + 5) (text "\ninput_kind = %x\n") [.reg (k + 4)] ++
    [⟨k + 9, .switch (.reg (k + 4)) (kindStart 0).1 kindCases⟩])

/-- The first register of the entry, which is filled last. -/
def mallocEntryRegister : ℕ := registerCount (casesBlocks mallocCases 1 0)

/-- **The blocks of `caf_dispatch_malloc_value_of_type`.** -/
def mallocBlocks : List (Block Symbol) :=
  ⟨"caf.malloc.entry", mallocEntryInsts mallocEntryRegister⟩ :: casesBlocks mallocCases 1 0

theorem build_createDispatchMallocValueOfType : build createDispatchMallocValueOfType = ⟨mallocBlocks⟩ := by
  simp -implicitDefEqProofs [build, createDispatchMallocValueOfType, BuilderState.new,
    inserts_mallocUndefinedType.run_createMallocCase, inserts_mallocNullType.run_createMallocCase,
    inserts_mallocBooleanType.run_createMallocCase, inserts_mallocStringType.run_createMallocCase,
    inserts_mallocFunctionType.run_createMallocCase, inserts_mallocIntegerType.run_createMallocCase,
    inserts_mallocFloatingPointerType.run_createMallocCase, run_createMallocCase_mallocArrayType,
    inserts_mallocPlaceholderType.run_createMallocCase, createAlloca, createStore, createInputBytesToCall,
    createBitCast, createCall, createLoad, createSwitch]
  rfl

/-- **Where the blocks of a case are.** -/
theorem blocksAt_casesBlocks (cs : List MallocCase) : ∀ (bs : List (Block Symbol)) (j k : ℕ), bs.length = j →
    ∀ {i : ℕ} {c : MallocCase} {start : ℕ × ℕ}, cs[i]? = some c → (caseStarts cs j k)[i]? = some start →
      BlocksAt ⟨bs ++ casesBlocks cs j k⟩ start.1 (c start.1 start.2) := by
  induction cs with
  | nil =>
    intro bs j k _ i c start hc
    simp at hc
  | cons first cs ih =>
    rintro bs j k rfl i c start hc hstart
    cases i with
    | zero =>
      cases hc
      cases hstart
      have hall : BlocksAt ⟨bs ++ casesBlocks (first :: cs) bs.length k⟩ 0
          (bs ++ casesBlocks (first :: cs) bs.length k) := fun i _ => by rw [Nat.zero_add]
      have hrest := hall.append_right
      rw [Nat.zero_add] at hrest
      exact BlocksAt.append_left hrest
    | succ i =>
      -- the blocks of the first case belong to what comes before the others
      have hnext := ih (bs ++ first bs.length k) (bs.length + (first bs.length k).length)
        (k + registerCount (first bs.length k)) (by simp) (i := i) hc hstart
      rw [List.append_assoc] at hnext
      exact hnext

/-! ## `__caf_dispatch_api` -/

/-- **The blocks of the case for an API function**, from the block `j` and the register `k` on. -/
def callApiBlocks (name : StdString) (caseCounter j k : ℕ) : List (Block Symbol) :=
  [⟨"invoke.case." ++ toString caseCounter,
      printfInsts k (name ++ text "\n") [] ++
      [⟨k + 4, .call .dispatchMallocValueOfType []⟩, ⟨k + 5, .bitCast (.reg (k + 4))⟩] ++
      readInsts .i32 .inputIntTo (k + 6) ++ printfInsts (k + 10) (text "args_count = %d\n") [.reg (k + 9)] ++
      [⟨k + 14, .alloca .pointer (.i32 6)⟩, ⟨k + 15, .alloca .pointer (.reg (k + 9))⟩,
        ⟨k + 16, .gep .pointer (.reg (k + 14)) (.i32 0)⟩, ⟨k + 17, .store (.reg (k + 5)) (.reg (k + 16))⟩,
        ⟨k + 18, .alloca .i32 (.i32 1)⟩, ⟨k + 19, .store (.i32 0) (.reg (k + 18))⟩, ⟨k + 20, .br (j + 1)⟩]⟩,
    ⟨"malloc.args.while.cond", loopCondInsts (k + 21) (k + 18) (k + 9) (j + 2) (j + 3)⟩,
    ⟨"malloc.args.while.body", loopBodyInsts (k + 21) (k + 18) (k + 15) (j + 1)⟩,
    ⟨"malloc.args.end",
      [⟨k + 32, .call .createFunctionCallbackInfo [.reg (k + 14), .reg (k + 15), .reg (k + 9)]⟩,
        ⟨k + 33, .call (.api caseCounter) [.reg (k + 32)]⟩, ⟨k + 34, .call .getRetValue [.reg (k + 32)]⟩] ++
      printfInsts (k + 35) (text "retType:\tsave to object list.\n") [] ++
      [⟨k + 39, .ptrToInt (.reg (k + 34))⟩, ⟨k + 40, .call .saveToObjectList [.reg (k + 39)]⟩,
        ⟨k + 41, .ret none⟩]⟩]

@[simp] theorem length_callApiBlocks (name : StdString) (caseCounter j k : ℕ) :
    (callApiBlocks name caseCounter j k).length = 4 := rfl

theorem run_createCallApiCase (name : StdString) (caseCounter : ℕ) :
    (createCallApiCase name caseCounter).run s =
      pure ((Int32.ofNat caseCounter, s.blocks.length),
        ⟨s.blocks ++ callApiBlocks name caseCounter s.blocks.length s.next, s.blocks.length + 3, s.next + 42⟩) := by
  simp -implicitDefEqProofs [createCallApiCase, callApiBlocks, readInsts, createAlloca, createInputIntToCall,
    createBitCast, createCall, createLoad, createStore, createGEP, createPtrToInt, createSaveToObjectListCall,
    createRetVoid, Nat.add_assoc]

/-- The blocks of all cases, from the case `caseCounter`, the block `j` and the register `k` on. -/
def callApisBlocks : ℕ → List StdString → ℕ → ℕ → List (Block Symbol)
  | _, [], _, _ => []
  | caseCounter, name :: names, j, k =>
    callApiBlocks name caseCounter j k ++ callApisBlocks (caseCounter + 1) names (j + 4) (k + 42)

/-- The cases of the `switch`. -/
def apiCases : ℕ → ℕ → ℕ → List (Int32 × ℕ)
  | _, 0, _ => []
  | caseCounter, n + 1, j => (Int32.ofNat caseCounter, j) :: apiCases (caseCounter + 1) n (j + 4)

theorem length_callApisBlocks (names : List StdString) :
    ∀ caseCounter j k, (callApisBlocks caseCounter names j k).length = 4 * names.length := by
  induction names with
  | nil => intro _ _ _; rfl
  | cons name names ih =>
    intro caseCounter j k
    simp only [callApisBlocks, List.length_append, length_callApiBlocks, ih, List.length_cons]
    omega

theorem run_createCallApiCases (names : List StdString) : ∀ (caseCounter : ℕ) (s : BuilderState Symbol),
    ∃ b, (createCallApiCases caseCounter names).run s =
      pure (apiCases caseCounter names.length s.blocks.length,
        ⟨s.blocks ++ callApisBlocks caseCounter names s.blocks.length s.next, b, s.next + 42 * names.length⟩) := by
  induction names with
  | nil =>
    intro caseCounter s
    exact ⟨s.insertBlock, by simp [createCallApiCases, apiCases, callApisBlocks]⟩
  | cons name names ih =>
    intro caseCounter s
    obtain ⟨b, hb⟩ := ih (caseCounter + 1) ⟨s.blocks ++ callApiBlocks name caseCounter s.blocks.length s.next,
      s.blocks.length + 3, s.next + 42⟩
    refine ⟨b, ?_⟩
    simp -implicitDefEqProofs only [createCallApiCases, StateT.run_bind, run_createCallApiCase, pure_bind, hb,
      StateT.run_pure, apiCases, callApisBlocks, List.length_append, length_callApiBlocks, List.append_assoc,
      List.length_cons]
    congr 3
    omega

/-- **The blocks of `__caf_dispatch_api`.** -/
def dispatchBlocks (names : List StdString) : List (Block Symbol) :=
  if names = [] then [⟨"caf.dispatch.entry", [⟨0, .ret none⟩]⟩]
  else
    ⟨"caf.dispatch.entry",
      [⟨42 * names.length, .switch (.arg 0) (4 * names.length + 1) (apiCases 0 names.length 1)⟩]⟩ ::
      (callApisBlocks 0 names 1 0 ++
        [⟨"api.invoke.defualt", [⟨42 * names.length + 1, .br (4 * names.length + 2)⟩]⟩,
          ⟨"api.invoke.end", [⟨42 * names.length + 2, .ret none⟩]⟩])

theorem build_createDispatchFunctionForApi (names : List StdString) :
    build (createDispatchFunctionForApi names) = ⟨dispatchBlocks names⟩ := by
  obtain ⟨b, hb⟩ := run_createCallApiCases names 0 ⟨[⟨"caf.dispatch.entry", []⟩], 0, 0⟩
  cases names with
  | nil =>
    simp -implicitDefEqProofs [build, createDispatchFunctionForApi, createCallApiCases, BuilderState.new,
      dispatchBlocks, createRetVoid]
    rfl
  | cons name names =>
    have hlen := length_callApisBlocks (name :: names) 0 1 0
    simp -implicitDefEqProofs [build, createDispatchFunctionForApi, BuilderState.new, hb, dispatchBlocks, apiCases,
      createSwitch, createBr, createRetVoid]
    simp [hlen]
    rfl

/-! ## `__caf_dispatch_callbackfuncarr` -/

/-- What stores the address of one API function. -/
def candidateInsts (functionId : ℕ) : List (Inst Symbol) :=
  [⟨3 * functionId, .ptrToInt (.function (.api functionId))⟩,
    ⟨3 * functionId + 1, .gep .i64 (.global 0) (.i32 (Int32.ofNat functionId))⟩,
    ⟨3 * functionId + 2, .store (.reg (3 * functionId)) (.reg (3 * functionId + 1))⟩]

/-- **The blocks of `__caf_dispatch_callbackfuncarr`.** -/
def candidateBlocks (candidates : ℕ) : List (Block Symbol) :=
  [⟨"entry", (List.range candidates).flatMap candidateInsts ++ [⟨3 * candidates, .br 1⟩]⟩,
    ⟨"end", [⟨3 * candidates + 1, .ret none⟩]⟩]

theorem run_createStoreCandidates (n : ℕ) : ∀ (i : ℕ) (s : BuilderState Symbol), s.next = 3 * i →
    (forM (List.range' i n) createStoreCandidate).run s =
      pure ((), s.emit ((List.range' i n).flatMap candidateInsts)) := by
  induction n with
  | zero =>
    intro i s _
    simp
  | succ n ih =>
    intro i s hs
    have hnext : (s.emit (candidateInsts i)).next = 3 * (i + 1) := by
      simp [hs, candidateInsts]
      omega
    have hstore : (createStoreCandidate i).run s = pure ((), s.emit (candidateInsts i)) := by
      simp -implicitDefEqProofs [createStoreCandidate, createPtrToInt, createGEP, createStore, callbackFuncArray,
        candidateInsts, hs, Nat.add_assoc]
    rw [List.range'_succ, List.forM_cons, StateT.run_bind, hstore, pure_bind, ih (i + 1) _ hnext,
      BuilderState.emit_emit, List.flatMap_cons]

theorem build_generateCallbackFunctionCandidateArray (candidates : ℕ) :
    build (generateCallbackFunctionCandidateArray candidates) = ⟨candidateBlocks candidates⟩ := by
  have hlen : ((List.range' 0 candidates).flatMap candidateInsts).length = 3 * candidates := by
    simp [List.length_flatMap, candidateInsts, Nat.mul_comm]
  have hrun := run_createStoreCandidates candidates 0 ⟨[⟨"entry", []⟩, ⟨"end", []⟩], 0, 0⟩ rfl
  simp -implicitDefEqProofs [build, generateCallbackFunctionCandidateArray, BuilderState.new, candidateBlocks, createBr,
    createRetVoid, List.range_eq_range', hrun, hlen]
  rfl

/-! ## `__caf_main` -/

/-- **The blocks of `__caf_main`.** -/
def mainBlocks : List (Block Symbol) :=
  [⟨"main.entry",
      printfInsts 0 (text "__caf_main runnning...\n\n") [] ++
      [⟨4, .call .dispatchCallbackFuncArr []⟩, ⟨5, .alloca .i32 (.i32 1)⟩, ⟨6, .bitCast (.reg 5)⟩,
        ⟨7, .call .inputIntTo [.reg 6]⟩, ⟨8, .br 1⟩]⟩,
    ⟨"main.while.cond",
      [⟨9, .load .i32 (.reg 5)⟩, ⟨10, .icmp .sgt (.reg 9) (.i32 0)⟩, ⟨11, .condBr (.reg 10) 2 3⟩]⟩,
    ⟨"main.while.body",
      ⟨12, .load .i32 (.reg 5)⟩ :: printfInsts 13 (text "testcase num = %d\n") [.reg 12] ++
      [⟨17, .sub (.reg 12) (.i32 1)⟩, ⟨18, .store (.reg 17) (.reg 5)⟩] ++ readInsts .i32 .inputIntTo 19 ++
      printfInsts 23 (text "api_id = %d\n") [.reg 22] ++
      [⟨27, .call .dispatchApi [.reg 22]⟩, ⟨28, .br 1⟩]⟩,
    ⟨"main.end", [⟨29, .ret none⟩]⟩]

theorem build_createCafMain : build createCafMain = ⟨mainBlocks⟩ := by
  simp -implicitDefEqProofs [build, createCafMain, mainBlocks, BuilderState.new, readInsts, createAlloca, createStore,
    createInputIntToCall, createBitCast, createCall, createLoad, createBr, createCondBr, createRetVoid]
  rfl

end Run

end Caf
