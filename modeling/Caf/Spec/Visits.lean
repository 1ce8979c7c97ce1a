import Caf.Graph.Tour
import Caf.Spec.Dumper
import Caf.Spec.Fuzzing
import Caf.Spec.Serializer

/-!
# Visits

The four traversals once more, with a log: the serializer, synthesis, the dumper and `PlaceholderFixer`, line by line as
they are, but that each of them notes the arrays whose elements it begins to walk, and every element that it takes up in
such a loop. What a copy computes without its log is what the traversal itself computes (`serializeLogged_erases` and
the like), so that the log is one of the traversal's own run.

* `VisitedOnce`: what such a log must be.
* `LogsVisits`: a copy, the run that it is a copy of, and the log of this run.
-/

namespace Caf

open ObjectGraph Run

/-- **Every array that the test case reaches is walked, once.** Every such walk takes up the elements of the array once,
in their order. -/
structure VisitedOnce (h : Heap) (tc : TestCase) (log : List Visit) : Prop where
  nodup : (entered log).Nodup
  arrays : ∀ a, a ∈ entered log ↔ tc.Reaches h a ∧ ∃ es, h[a]? = some (.array es)
  elements : ∀ a ∈ entered log, ∀ es, h[a]? = some (.array es) → taken a log = es
  others : ∀ a, a ∉ entered log → taken a log = []

/-- `x` is the run `r` with a log, in which every array that the test case reaches is walked once. -/
structure LogsVisits {α : Type} (h : Heap) (tc : TestCase) (x : Logged Visit (Except Error) α) (r : Except Error α) :
    Prop where
  erases : Erases x r
  once : ∀ a, r = .ok a → ∃ log, x [] = .ok (a, log) ∧ VisitedOnce h tc log

/-- The writer itself fails with this error. -/
def Writer.Fails {W : Type} (w : Writer W) (e : Error) : Prop :=
  ∃ out, w.enterMainFunction out = .error e ∨ w.leaveFunction out = .error e ∨ ∃ st, w.write st out = .error e

/-- The store throws this for a function that the test case names. -/
def CAFStore.Lacks (store : CAFStore) (h : Heap) (tc : TestCase) (e : Error) : Prop :=
  ∃ id, store.getFunction id = .error e ∧
    ((∃ call ∈ tc.calls, call.funcId = id) ∨ ∃ a, tc.Reaches h a ∧ h[a]? = some (.literal (.function id)))

namespace TestCaseSerializer

def serializeValueLogged (h : Heap) : ℕ → Addr → TestCaseSerializer → Logged Visit (Except Error) TestCaseSerializer
  | 0, _, _ => silent (.error .outOfFuel)
  | fuel + 1, a, s =>
    match h[a]? with
    | none => silent (.error .badPointer)
    | some value => do
      match ← silent (s.context.substitute a value) with
      | .literal l => return (s.writeLiteral l).record
      | .placeholder index => return ((s.writeKind .placeholder).writeInt 4 index).record
      | .array elements =>
        let s := { s with context := s.context.setNextValue a }
        let s := ((s.writeKind .array).writeInt 4 elements.length).record
        note [.enter a]
        elements.foldlM (fun s element => do
          note [.take a element]
          serializeValueLogged h fuel element s) s

def serializeThisLogged (h : Heap) (fuel : ℕ) (call : FunctionCall) (s : TestCaseSerializer) :
    Logged Visit (Except Error) TestCaseSerializer :=
  match call.thisValue with
  | some thisValue => serializeValueLogged h fuel thisValue s
  | none => return (s.writeLiteral .undefined).record

def serializeFunctionCallLogged (h : Heap) (fuel : ℕ) (call : FunctionCall) (s : TestCaseSerializer) :
    Logged Visit (Except Error) TestCaseSerializer := do
  let s := s.writeInt 4 call.funcId.toNat
  let s ← serializeThisLogged h fuel call s
  let s := s.writeInt 1 call.ctor.toNat
  let s := s.writeInt 4 call.args.length
  call.args.foldlM (fun s arg => serializeValueLogged h fuel arg s) s

def serializeCallsLogged (h : Heap) (fuel : ℕ) :
    ℕ → List FunctionCall → TestCaseSerializer → Logged Visit (Except Error) TestCaseSerializer
  | _, [], s => return s
  | i, call :: calls, s => do
    let s ← serializeFunctionCallLogged h fuel call s
    serializeCallsLogged h fuel (i + 1) calls
      { s with context := s.context.setNextValueAsReturnValue i }.record

/-- `serialize`, with a log. -/
def serializeLogged (h : Heap) (tc : TestCase) : Logged Visit (Except Error) TestCaseSerializer :=
  let s := (new.writeInt 4 tc.storeRootEntryIndex).writeInt 4 tc.calls.length
  serializeCallsLogged h (h.length + 1) 0 tc.calls s

end TestCaseSerializer

namespace SynthesisBuilder

variable {W : Type}

/-- `eachVariable`, over the elements of the array `dest` or over arguments. -/
def eachVariableLogged (dest : Option Addr)
    (read : Addr → SynthesisBuilder W → Logged Visit (Except Error) (StdString × SynthesisBuilder W))
    (use : StdString → SynthesisBuilder W → Except Error (SynthesisBuilder W)) :
    List Addr → SynthesisBuilder W → Logged Visit (Except Error) (List StdString × SynthesisBuilder W)
  | [], b => return ([], b)
  | a :: as, b => do
    note (takes dest a)
    let (x, b) ← read a b
    let b ← silent (use x b)
    let (xs, b) ← eachVariableLogged dest read use as b
    return (x :: xs, b)

def synthesisConstantLogged (w : Writer W) (h : Heap) :
    ℕ → Addr → SynthesisBuilder W → Logged Visit (Except Error) (StdString × SynthesisBuilder W)
  | 0, _, _ => silent (.error .outOfFuel)
  | fuel + 1, value, b =>
    match b.synthesisedVariables value with
    | some i => do return (← silent (b.variableAt i), b)
    | none =>
      match h[value]? with
      | none => silent (.error .badPointer)
      | some (.placeholder i) => do return (← silent (b.getRetValueVariable i), b)
      | some (.array elements) => do
        let (x, b) := b.nextVariableName
        let b := (b.createVariable x).setLastSynthesisedValue value
        let b ← silent (b.emit w (.emptyArrayVariableDef x))
        note [.enter value]
        let (_, b) ← eachVariableLogged (some value) (synthesisConstantLogged w h fuel)
          (fun y b => b.emit w (.arrayPush x y)) elements b
        return (x, b)
      | some (.literal l) => do
        let (x, b) := b.nextVariableName
        let b := (b.createVariable x).setLastSynthesisedValue value
        let b ← silent (b.emit w (.variableDef x l))
        return (x, b)

def synthesisThisLogged (w : Writer W) (h : Heap) (fuel : ℕ) (thisValue : Option Addr) (b : SynthesisBuilder W) :
    Logged Visit (Except Error) (StdString × SynthesisBuilder W) :=
  match thisValue with
  | some value => synthesisConstantLogged w h fuel value b
  | none => return ([], b)

end SynthesisBuilder

namespace TestCaseSynthesiser

variable {W : Type}

def synthesisCallLogged (w : Writer W) (store : CAFStore) (h : Heap) (fuel : ℕ) (call : FunctionCall)
    (b : SynthesisBuilder W) : Logged Visit (Except Error) (SynthesisBuilder W) := do
  let (receiver, b) ← b.synthesisThisLogged w h fuel call.thisValue
  let (args, b) ← SynthesisBuilder.eachVariableLogged none (SynthesisBuilder.synthesisConstantLogged w h fuel)
    (fun _ b => .ok b) call.args b
  let f ← silent (store.getFunction call.funcId)
  let (_, b) ← silent (b.synthesisFunctionCall w f.name call.ctor receiver args)
  return b

def synthesisCallsLogged (w : Writer W) (store : CAFStore) (h : Heap) (fuel : ℕ) :
    List FunctionCall → SynthesisBuilder W → Logged Visit (Except Error) (SynthesisBuilder W)
  | [], b => return b
  | call :: calls, b => do
    let b ← synthesisCallLogged w store h fuel call b
    synthesisCallsLogged w store h fuel calls b

/-- `synthesis`, with a log. -/
def synthesisLogged (w : Writer W) (store : CAFStore) (h : Heap) (fuel : ℕ) (tc : TestCase)
    (b : SynthesisBuilder W) : Logged Visit (Except Error) (SynthesisBuilder W) := do
  let out ← silent (w.enterMainFunction b.output)
  let b ← synthesisCallsLogged w store h fuel tc.calls { b with output := out }
  let out ← silent (w.leaveFunction b.output)
  return { b with output := out }

end TestCaseSynthesiser

namespace TestCaseDumper

variable (store : CAFStore) (formatDouble : Double → StdString) (demangle : Option (StdString → Option StdString))

def dumpValueLogged (h : Heap) : ℕ → Addr → TestCaseDumper → Logged Visit (Except Error) TestCaseDumper
  | 0, _, _ => silent (.error .outOfFuel)
  | fuel + 1, value, d =>
    match d.context.valueToIndex value with
    | some index => return d.dumpPlaceholder index
    | none =>
      match h[value]? with
      | none => silent (.error .badPointer)
      | some (.literal l) => silent (d.dumpLiteral store formatDouble demangle l)
      | some (.placeholder index) => return d.dumpPlaceholder index
      | some (.array elements) => do
        let d := d.dumpArrayHeader value elements.length
        note [.enter value]
        let d ← elements.zipIdx.foldlM (fun d e => do
          note [.take value e.1]
          dumpValueLogged h fuel e.1 (d.dumpElementHeader e.2)) d
        return d.popIndent

def dumpThisLogged (h : Heap) (fuel : ℕ) (thisValue : Option Addr) (d : TestCaseDumper) :
    Logged Visit (Except Error) TestCaseDumper :=
  match thisValue with
  | some value => do
    let d := (d.printLine.pushIndent.printWithColor keywordColor (text "THIS")).print (text ": ")
    let d ← dumpValueLogged store formatDouble demangle h fuel value d
    return d.popIndent
  | none => return d

def dumpFunctionCallLogged (h : Heap) (fuel : ℕ) (call : FunctionCall) (d : TestCaseDumper) :
    Logged Visit (Except Error) TestCaseDumper := do
  let func ← silent (store.getFunction call.funcId)
  let d := d.dumpCallHeader demangle call func
  let d ← dumpThisLogged store formatDouble demangle h fuel call.thisValue d
  let d := d.pushIndent
  let d ← call.args.zipIdx.foldlM
    (fun d arg => dumpValueLogged store formatDouble demangle h fuel arg.1 (d.dumpArgHeader arg.2)) d
  return d.dumpReturn.popIndent

def dumpCallLogged (h : Heap) (fuel count : ℕ) (callId : ℕ) (call : FunctionCall) (d : TestCaseDumper) :
    Logged Visit (Except Error) TestCaseDumper := do
  let d := (d.printWithColor keywordColor (text "CALL ")).print (text "#" ++ decimal callId ++ text ": ")
  let d ← dumpFunctionCallLogged store formatDouble demangle h fuel call d
  return if callId ≠ count - 1 then d.printLine else d

/-- `dump`, with a log. -/
def dumpLogged (h : Heap) (tc : TestCase) (printer : Printer) : Logged Visit (Except Error) TestCaseDumper :=
  let d : TestCaseDumper := ⟨printer, .new⟩
  let d := ((d.printWithColor keywordColor (text "ROOT ")).print (text "*" ++ decimal tc.storeRootEntryIndex)).printLine
  tc.calls.zipIdx.foldlM
    (fun d call => dumpCallLogged store formatDouble demangle h (h.length + 1) tc.calls.length call.2 call.1 d) d

end TestCaseDumper

namespace PlaceholderFixer

def fixElementsLogged (fixValue : Addr → List Addr → Logged Visit FuzzM (Addr × List Addr)) (array : Addr) :
    List ℕ → List Addr → Logged Visit FuzzM (List Addr)
  | [], fixed => return fixed
  | i :: is, fixed => do
    let element ← silent (getElement array i)
    note [.take array element]
    let (value, fixed) ← fixValue element fixed
    silent (setElement array i value)
    fixElementsLogged fixValue array is fixed

def fixValueLogged (fixer : Fixer) (callIndex : ℕ) : ℕ → Addr → List Addr → Logged Visit FuzzM (Addr × List Addr)
  | 0, _, _ => silent (throw .outOfFuel)
  | fuel + 1, oldValue, fixed => do
    match ← silent (readValue oldValue) with
    | .placeholder index => return (← silent (fixer callIndex index), fixed)
    | .array es =>
      if oldValue ∈ fixed then return (oldValue, fixed)
      else
        note [.enter oldValue]
        let fixed ← fixElementsLogged (fixValueLogged fixer callIndex fuel) oldValue (List.range es.length)
          (oldValue :: fixed)
        return (oldValue, fixed)
    | .literal _ => return (oldValue, fixed)

def fixValuesLogged (fixer : Fixer) (callIndex fuel : ℕ) :
    List Addr → List Addr → Logged Visit FuzzM (List Addr × List Addr)
  | [], fixed => return ([], fixed)
  | value :: values, fixed => do
    let (value, fixed) ← fixValueLogged fixer callIndex fuel value fixed
    let (values, fixed) ← fixValuesLogged fixer callIndex fuel values fixed
    return (value :: values, fixed)

def fixCallLogged (fixer : Fixer) (callIndex fuel : ℕ) (call : FunctionCall) (fixed : List Addr) :
    Logged Visit FuzzM (FunctionCall × List Addr) := do
  let (thisValue, fixed) ← fixValuesLogged fixer callIndex fuel call.thisValue.toList fixed
  let (args, fixed) ← fixValuesLogged fixer callIndex fuel call.args fixed
  return ({ call with thisValue := thisValue.head?, args := args }, fixed)

def fixCallsLogged (fixer : Fixer) (fuel : ℕ) :
    ℕ → List FunctionCall → List Addr → Logged Visit FuzzM (List FunctionCall)
  | _, [], _ => return []
  | i, call :: calls, fixed => do
    let (call, fixed) ← fixCallLogged fixer i fuel call fixed
    return call :: (← fixCallsLogged fixer fuel (i + 1) calls fixed)

/-- `fix`, with a log. -/
def fixLogged (fixer : Fixer) (startCallIndex : ℕ) (testCase : TestCase) : Logged Visit FuzzM TestCase := do
  let s ← silent get
  let calls ← fixCallsLogged fixer (s.heap.length + 1) startCallIndex (testCase.calls.drop startCallIndex) []
  return { testCase with calls := testCase.calls.take startCallIndex ++ calls }

end PlaceholderFixer

end Caf
