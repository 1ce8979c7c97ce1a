import Caf.Graph.Marks
import Caf.Spec.Retargeted
import Caf.Spec.Visits

/-!
# Labels and references of a dump

What the dumper prints about slots: `Array $k` where an array occurs first, `RET @ $k` after a call, and `REF $k` for
an array that has a slot and for a placeholder. It is a log of the run, with all that is written up to each mark.
-/

namespace Caf

open ObjectGraph

/-- What is printed for a mark: the keyword, the end of its color, and the slot. -/
def markText : Mark → StdString
  | .label (.node _) slot => text "Array\x1b[m $" ++ decimal slot
  | .label (.result _) slot => text "RET\x1b[m @ $" ++ decimal slot
  | .ref _ index => text "REF\x1b[m $" ++ decimal index

/-- A mark, and all that is written up to its end. -/
structure Marked where
  mark : Mark
  out : StdString

namespace TestCaseDumper

/-- The label of an array, in `dumpArrayHeader`. -/
def arrayLabel (d : TestCaseDumper) (value : Addr) : Marked :=
  let slot := d.context.peekNextValueIndex
  ⟨.label (.node value) slot, ((d.printWithColor valueTypeColor (text "Array")).print (text " $" ++ decimal slot)).printer.out⟩

/-- The label of the return value of call `callId`, in `dumpReturn`. -/
def returnLabel (d : TestCaseDumper) (callId : ℕ) : Marked :=
  ⟨.label (.result callId) d.context.peekNextValueIndex, d.dumpReturn.printer.out⟩

/-- What `dumpPlaceholder` prints for `r`. -/
def reference (d : TestCaseDumper) (r : Referent) (index : ℕ) : Marked :=
  ⟨.ref r index, (d.dumpPlaceholder index).printer.out⟩

variable (store : CAFStore) (formatDouble : Double → StdString) (demangle : Option (StdString → Option StdString))
  (h : Heap)

def valueMarks : ℕ → Addr → TestCaseDumper → List Marked
  | 0, _, _ => []
  | fuel + 1, value, d =>
    match d.context.valueToIndex value with
    | some index => [d.reference (.node value) index]
    | none =>
      match h[value]? with
      | some (.placeholder index) => [d.reference (.result index) index]
      | some (.array elements) =>
        d.arrayLabel value :: logEach (fun e d => dumpValue store formatDouble demangle h fuel e.1 (d.dumpElementHeader e.2))
          (fun e d => valueMarks fuel e.1 (d.dumpElementHeader e.2)) elements.zipIdx
          (d.dumpArrayHeader value elements.length)
      | _ => []

def thisMarks (fuel : ℕ) (thisValue : Option Addr) (d : TestCaseDumper) : List Marked :=
  match thisValue with
  | some value =>
    let d := (d.printLine.pushIndent.printWithColor keywordColor (text "THIS")).print (text ": ")
    valueMarks store formatDouble demangle h fuel value d
  | none => []

def functionCallMarks (fuel callId : ℕ) (call : FunctionCall) (d : TestCaseDumper) : List Marked :=
  match store.getFunction call.funcId with
  | .error _ => []
  | .ok func =>
    let d := d.dumpCallHeader demangle call func
    thisMarks store formatDouble demangle h fuel call.thisValue d ++
      logAfter (dumpThis store formatDouble demangle h fuel call.thisValue d) fun d =>
        let d := d.pushIndent
        let dumpArg := fun (arg : Addr × ℕ) (d : TestCaseDumper) =>
          dumpValue store formatDouble demangle h fuel arg.1 (d.dumpArgHeader arg.2)
        logEach dumpArg (fun arg d => valueMarks store formatDouble demangle h fuel arg.1 (d.dumpArgHeader arg.2))
            call.args.zipIdx d ++
          logAfter (call.args.zipIdx.foldlM (fun d arg => dumpArg arg d) d) fun d => [d.returnLabel callId]

def callMarks (fuel callId : ℕ) (call : FunctionCall) (d : TestCaseDumper) : List Marked :=
  let d := (d.printWithColor keywordColor (text "CALL ")).print (text "#" ++ decimal callId ++ text ": ")
  functionCallMarks store formatDouble demangle h fuel callId call d

/-- The marks of `dump`. -/
def marks (tc : TestCase) (printer : Printer) : List Marked :=
  let d : TestCaseDumper := ⟨printer, .new⟩
  let d := ((d.printWithColor keywordColor (text "ROOT ")).print (text "*" ++ decimal tc.storeRootEntryIndex)).printLine
  logEach (fun call d => dumpCall store formatDouble demangle h (h.length + 1) tc.calls.length call.2 call.1 d)
    (fun call d => callMarks store formatDouble demangle h (h.length + 1) call.2 call.1 d) tc.calls.zipIdx d

end TestCaseDumper

/-- The slot that the serializer has assigned. -/
def SerializationContext.slot (c : SerializationContext) : Referent → Option ℕ
  | .node a => c.valueIndexes a
  | .result i => c.retValueIndexes i

/-- No array is reached from the calls up to one that a placeholder designates. -/
def TestCase.PlaceholdersBeforeArrays (tc : TestCase) (h : Heap) : Prop :=
  ∀ a i, tc.Reaches h a → h[a]? = some (.placeholder i) → ∀ n ≤ i, ∀ b, CallReaches h tc.calls n b → ¬ IsArray h b

end Caf
