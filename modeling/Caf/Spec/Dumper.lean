import Caf.Spec.JavaScript

/-!
# The dumper

`TestCaseDumper` writes a test case to a terminal, through a `Printer` that knows colors and indentation.
`DumpContext` hands out the slots of arrays and return values.
-/

namespace Caf

/-! ## The printer -/

/-- The colors that the dumper uses, of `PrinterColor`. -/
inductive PrinterColor where
  | yellow | brightGreen | brightMagenta | brightCyan
  deriving DecidableEq

/-- `GetForegroundCode`. -/
def PrinterColor.code : PrinterColor → ℕ
  | yellow => 33
  | brightGreen => 92
  | brightMagenta => 95
  | brightCyan => 96

structure Printer where
  out : StdString
  color : Bool
  indentWidth : ℕ
  indentLevel : ℕ
  startOfLine : Bool

namespace Printer

/-- A new printer, which writes in color. -/
def new : Printer := ⟨[], true, 2, 0, false⟩

/-- `Print`, of one value or of several, one after the other. -/
def print (p : Printer) (value : StdString) : Printer :=
  if p.startOfLine then
    { p with startOfLine := false, out := p.out ++ List.replicate (p.indentWidth * p.indentLevel) 32 ++ value }
  else { p with out := p.out ++ value }

def printLine (p : Printer) : Printer := { p.print [10] with startOfLine := true }

def setForegroundColor (p : Printer) (fg : PrinterColor) : Printer :=
  if p.color then { p with out := p.out ++ text "\x1b[" ++ decimal fg.code ++ text "m" } else p

/-- `ClearColor`, which does not ask whether colors are on. -/
def clearColor (p : Printer) : Printer := { p with out := p.out ++ text "\x1b[m" }

def printWithColor (p : Printer) (fg : PrinterColor) (value : StdString) : Printer :=
  ((p.setForegroundColor fg).print value).clearColor

def pushIndent (p : Printer) : Printer := { p with indentLevel := p.indentLevel + 1 }

/-- `PopIndent`, at the end of the scope of a guard. -/
def popIndent (p : Printer) : Printer := { p with indentLevel := p.indentLevel - 1 }

end Printer

/-! ## Text -/

def keywordColor : PrinterColor := .brightGreen

def valueTypeColor : PrinterColor := .brightCyan

def specialValueColor : PrinterColor := .yellow

def symbolNameColor : PrinterColor := .brightMagenta

/-- `GetHexDigit`, whose argument is a digit. -/
def getHexDigit (decimal : Fin 16) : UInt8 :=
  if decimal.val < 10 then 48 + UInt8.ofNat decimal.val else 97 + UInt8.ofNat decimal.val - 10

/-- `c_str`, as far as the first NUL. -/
def cStr (s : StdString) : StdString := s.takeWhile (· != 0)

/-- One turn of the loop of `DumpStringValue`. -/
def dumpedChar (ch : UInt8) : StdString :=
  if isprint ch then if ch == 34 then text "\\\"" else [ch]
  else if ch == 10 then text "\\n"
  else if ch == 9 then text "\\t"
  else if ch == 13 then text "\\r"
  else if ch == 32 then [32]
  else text "\\x" ++ [getHexDigit (Fin.ofNat 16 (ch.toNat / 16)), getHexDigit (Fin.ofNat 16 (ch.toNat % 16))]

/-- The eight hexadecimal digits that `DumpIntegerValue` writes, the highest first. -/
def hexDigits (value : UInt32) : StdString :=
  (List.range 8).reverse.map fun i => getHexDigit (Fin.ofNat 16 (value.toNat / 16 ^ i % 16))

/-! ## Dumping -/

structure DumpContext where
  valueToIndex : Addr → Option ℕ
  valueIndexAlloc : ℕ

namespace DumpContext

def new : DumpContext := ⟨fun _ => none, 0⟩

def setNextValue (c : DumpContext) (value : Addr) : DumpContext :=
  ⟨Function.update c.valueToIndex value (some c.valueIndexAlloc), c.valueIndexAlloc + 1⟩

def skipNextValue (c : DumpContext) : DumpContext := { c with valueIndexAlloc := c.valueIndexAlloc + 1 }

def peekNextValueIndex (c : DumpContext) : ℕ := c.valueIndexAlloc

end DumpContext

/-- A `TestCaseDumper` at work: the printer and the context of `Dump`. -/
structure TestCaseDumper where
  printer : Printer
  context : DumpContext

namespace TestCaseDumper

def print (d : TestCaseDumper) (value : StdString) : TestCaseDumper := { d with printer := d.printer.print value }

def printLine (d : TestCaseDumper) : TestCaseDumper := { d with printer := d.printer.printLine }

def printWithColor (d : TestCaseDumper) (fg : PrinterColor) (value : StdString) : TestCaseDumper :=
  { d with printer := d.printer.printWithColor fg value }

def pushIndent (d : TestCaseDumper) : TestCaseDumper := { d with printer := d.printer.pushIndent }

def popIndent (d : TestCaseDumper) : TestCaseDumper := { d with printer := d.printer.popIndent }

def dumpStringValue (d : TestCaseDumper) (s : StdString) : TestCaseDumper :=
  d.print (text "\"" ++ (cStr s).flatMap dumpedChar ++ text "\"")

def dumpIntegerValue (d : TestCaseDumper) (value : Int32) : TestCaseDumper :=
  d.print (integerText value.toInt ++ text " 0x" ++ hexDigits value.toUInt32)

/-- What is dumped for a placeholder, and for an array that has a slot. -/
def dumpPlaceholder (d : TestCaseDumper) (index : ℕ) : TestCaseDumper :=
  let d := (d.printWithColor keywordColor (text "Placeholder")).print (text " ")
  (d.printWithColor keywordColor (text "REF")).print (text " $" ++ decimal index)

section Dumping

-- `formatDouble` is how `operator<<` writes a number, `demangle` is the demangler, if it is to be used
variable (store : CAFStore) (formatDouble : Double → StdString) (demangle : Option (StdString → Option StdString))

def dumpSymbolName (d : TestCaseDumper) (name : StdString) : TestCaseDumper :=
  d.printWithColor symbolNameColor (cStr ((demangle.bind fun f => f (cStr name)).getD name))

/-- The cases of `DumpValue` without elements. -/
def dumpLiteral (d : TestCaseDumper) : Literal → Except Error TestCaseDumper
  | .undefined => .ok (d.printWithColor valueTypeColor (text "Undefined"))
  | .null => .ok (d.printWithColor valueTypeColor (text "Null"))
  | .function funcId => do
    let d := (d.printWithColor valueTypeColor (text "Function")).print (text " A" ++ decimal funcId.toNat ++ text " ")
    return d.dumpSymbolName demangle (← store.getFunction funcId).name
  | .boolean value =>
    let d := (d.printWithColor valueTypeColor (text "Boolean")).print (text " ")
    .ok (d.printWithColor specialValueColor (if value then text "true" else text "false"))
  | .string value => .ok (((d.printWithColor valueTypeColor (text "String")).print (text " ")).dumpStringValue value)
  | .integer value => .ok (((d.printWithColor valueTypeColor (text "Integer")).print (text " ")).dumpIntegerValue value)
  | .float value => .ok ((d.printWithColor valueTypeColor (text "Float")).print (text " " ++ formatDouble value))

/-- The beginning of an array: its slot is taken, and the indentation is pushed. -/
def dumpArrayHeader (d : TestCaseDumper) (value : Addr) (size : ℕ) : TestCaseDumper :=
  let slot := d.context.peekNextValueIndex
  let d := { d with context := d.context.setNextValue value }
  let d := d.printWithColor valueTypeColor (text "Array")
  (d.print (text " $" ++ decimal slot ++ text " [" ++ decimal size ++ text "]")).pushIndent

/-- The beginning of an element. -/
def dumpElementHeader (d : TestCaseDumper) (i : ℕ) : TestCaseDumper :=
  let d := (d.printLine.printWithColor keywordColor (text "[")).print (decimal i)
  (d.printWithColor keywordColor (text "]")).print (text " ")

/-- `DumpValue`. -/
def dumpValue (h : Heap) : ℕ → Addr → TestCaseDumper → Except Error TestCaseDumper
  | 0, _, _ => .error .outOfFuel
  | fuel + 1, value, d =>
    match d.context.valueToIndex value with
    | some index => .ok (d.dumpPlaceholder index)
    | none =>
      match h[value]? with
      | none => .error .badPointer
      | some (.literal l) => d.dumpLiteral store formatDouble demangle l
      | some (.placeholder index) => .ok (d.dumpPlaceholder index)
      | some (.array elements) => do
        let d := d.dumpArrayHeader value elements.length
        let d ← elements.zipIdx.foldlM (fun d e => dumpValue h fuel e.1 (d.dumpElementHeader e.2)) d
        return d.popIndent

/-- `this`, if there is one. -/
def dumpThis (h : Heap) (fuel : ℕ) (thisValue : Option Addr) (d : TestCaseDumper) : Except Error TestCaseDumper :=
  match thisValue with
  | some value => do
    let d := (d.printLine.pushIndent.printWithColor keywordColor (text "THIS")).print (text ": ")
    let d ← dumpValue store formatDouble demangle h fuel value d
    return d.popIndent
  | none => .ok d

/-- The beginning of an argument. -/
def dumpArgHeader (d : TestCaseDumper) (i : ℕ) : TestCaseDumper :=
  (d.printLine.printWithColor keywordColor (text "ARG")).print (text " #" ++ decimal i ++ text ": ")

/-- The beginning of a call, up to the name of its function. -/
def dumpCallHeader (d : TestCaseDumper) (call : FunctionCall) (func : Function) : TestCaseDumper :=
  let d := d.print (text "A" ++ decimal call.funcId.toNat ++ text " ")
  let d := if call.ctor then (d.printWithColor keywordColor (text "CTOR")).print (text " ") else d
  d.dumpSymbolName demangle func.name

/-- The end of a call, whose return value takes the next slot. -/
def dumpReturn (d : TestCaseDumper) : TestCaseDumper :=
  let d := d.printLine.printWithColor keywordColor (text "RET")
  let d := d.print (text " @ $" ++ decimal d.context.peekNextValueIndex)
  { d with context := d.context.skipNextValue }

/-- `DumpFunctionCall`. -/
def dumpFunctionCall (h : Heap) (fuel : ℕ) (call : FunctionCall) (d : TestCaseDumper) : Except Error TestCaseDumper := do
  let func ← store.getFunction call.funcId
  let d := d.dumpCallHeader demangle call func
  let d ← dumpThis store formatDouble demangle h fuel call.thisValue d
  let d := d.pushIndent
  let d ← call.args.zipIdx.foldlM
    (fun d arg => dumpValue store formatDouble demangle h fuel arg.1 (d.dumpArgHeader arg.2)) d
  return d.dumpReturn.popIndent

/-- One turn of the loop over `count` calls. -/
def dumpCall (h : Heap) (fuel count : ℕ) (callId : ℕ) (call : FunctionCall) (d : TestCaseDumper) :
    Except Error TestCaseDumper := do
  let d := (d.printWithColor keywordColor (text "CALL ")).print (text "#" ++ decimal callId ++ text ": ")
  let d ← dumpFunctionCall store formatDouble demangle h fuel call d
  return if callId ≠ count - 1 then d.printLine else d

/-- `Dump`. Array visits nest no deeper than there are objects. -/
def dump (h : Heap) (tc : TestCase) (printer : Printer) : Except Error TestCaseDumper :=
  let d : TestCaseDumper := ⟨printer, .new⟩
  let d := ((d.printWithColor keywordColor (text "ROOT ")).print (text "*" ++ decimal tc.storeRootEntryIndex)).printLine
  tc.calls.zipIdx.foldlM
    (fun d call => dumpCall store formatDouble demangle h (h.length + 1) tc.calls.length call.2 call.1 d) d

end Dumping

end TestCaseDumper

end Caf
