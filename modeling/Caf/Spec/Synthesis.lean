import Mathlib.Logic.Function.Basic
import Caf.Graph.Steps
import Caf.Spec.Format
import Caf.Spec.Store

/-!
# Synthesis

`SynthesisBuilder` turns values and calls into statements of a target language, which its
derived classes write out: a `Writer` is the set of the virtual functions they override, over
their own state. `TestCaseSynthesiser` drives a builder over a test case.

The statements are programs of a strict machine, which declares every variable once and never
uses one that is not declared. A `Machine` says what the statements do.
-/

namespace Caf

open ObjectGraph

/-- What a builder writes. An empty receiver name stands for no receiver. -/
inductive Statement where
  | variableDef (varName : StdString) (value : Literal)
  | emptyArrayVariableDef (varName : StdString)
  | arrayPush (varName elementVarName : StdString)
  | functionCall (retVarName functionName : StdString) (isCtorCall : Bool) (receiverVarName : StdString)
      (argVarNames : List StdString)
  deriving DecidableEq

/-- The virtual functions of a builder. -/
structure Writer (W : Type) where
  enterMainFunction : W → Except Error W
  leaveFunction : W → Except Error W
  writeVariableDef : StdString → Literal → W → Except Error W
  writeEmptyArrayVariableDef : StdString → W → Except Error W
  writeArrayPushStatement : StdString → StdString → W → Except Error W
  writeFunctionCallStatement : StdString → StdString → Bool → StdString → List StdString → W → Except Error W

/-- Write a statement. -/
def Writer.write {W : Type} (w : Writer W) : Statement → W → Except Error W
  | .variableDef x l => w.writeVariableDef x l
  | .emptyArrayVariableDef x => w.writeEmptyArrayVariableDef x
  | .arrayPush x y => w.writeArrayPushStatement x y
  | .functionCall ret f ctor recv args => w.writeFunctionCallStatement ret f ctor recv args

/-- Write statements one after the other. -/
def Writer.writeAll {W : Type} (w : Writer W) : List Statement → W → Except Error W
  | [], out => .ok out
  | st :: script, out => do
    let out ← w.write st out
    w.writeAll script out

/-- Write a script. -/
def Writer.writeScript {W : Type} (w : Writer W) (script : List Statement) (out : W) : Except Error W := do
  let out ← w.enterMainFunction out
  let out ← w.writeAll script out
  w.leaveFunction out

/-- The variable that a statement declares. -/
def Statement.declared : Statement → Option StdString
  | .variableDef x _ => some x
  | .emptyArrayVariableDef x => some x
  | .arrayPush _ _ => none
  | .functionCall ret _ _ _ _ => some ret

/-- The variables that a statement uses. -/
def Statement.uses : Statement → List StdString
  | .variableDef _ _ => []
  | .emptyArrayVariableDef _ => []
  | .arrayPush x y => [x, y]
  | .functionCall _ _ _ recv args => [recv].filter (!·.isEmpty) ++ args

/-- **Every variable is declared once, before any use.** `xs` are the variables declared before. -/
def Scoped : List StdString → List Statement → Prop
  | _, [] => True
  | xs, st :: script =>
    (∀ x ∈ st.uses, x ∈ xs) ∧ (∀ x, st.declared = some x → x ∉ xs) ∧ Scoped (xs ++ st.declared.toList) script

/-- `std::to_string` of a number that is not negative. -/
def decimal (n : ℕ) : StdString := (Nat.toDigits 10 n).map fun c => UInt8.ofNat c.toNat

/-- The name of variable `id`: `'_'` and its number. -/
def varName (id : ℕ) : StdString := 95 :: decimal id

/-- `SynthesisBuilder`. A `SynthesisVariable` is its name, and `vars` is `_variables`. The counter `_varId` is an `int`,
which is taken not to overflow: a test case has less than 2^31 variables. -/
structure SynthesisBuilder (W : Type) where
  vars : List StdString
  output : W
  synthesisedVariables : Addr → Option ℕ
  funcRetVariables : List ℕ
  varId : ℕ

namespace SynthesisBuilder

variable {W : Type}

/-- A fresh builder. -/
def new (output : W) : SynthesisBuilder W := ⟨[], output, fun _ => none, [], 0⟩

def createVariable (b : SynthesisBuilder W) (name : StdString) : SynthesisBuilder W :=
  { b with vars := b.vars ++ [name] }

/-- `GetNextVariableName`. -/
def nextVariableName (b : SynthesisBuilder W) : StdString × SynthesisBuilder W :=
  (varName b.varId, { b with varId := b.varId + 1 })

/-- `_variables.at(i)`. -/
def variableAt (b : SynthesisBuilder W) (i : ℕ) : Except Error StdString :=
  match b.vars[i]? with
  | some x => .ok x
  | none => .error .outOfRange

def setLastSynthesisedValue (b : SynthesisBuilder W) (value : Addr) : SynthesisBuilder W :=
  { b with synthesisedVariables := Function.update b.synthesisedVariables value (some (b.vars.length - 1)) }

def getRetValueVariable (b : SynthesisBuilder W) (functionCallIndex : ℕ) : Except Error StdString :=
  match b.funcRetVariables[functionCallIndex]? with
  | some i => b.variableAt i
  | none => .error .outOfRange

/-- Write a statement to the output. -/
def emit (w : Writer W) (st : Statement) (b : SynthesisBuilder W) : Except Error (SynthesisBuilder W) := do
  let out ← w.write st b.output
  return { b with output := out }

/-- A loop over values, with what is done with each variable. -/
def eachVariable (read : Addr → SynthesisBuilder W → Except Error (StdString × SynthesisBuilder W))
    (use : StdString → SynthesisBuilder W → Except Error (SynthesisBuilder W)) :
    List Addr → SynthesisBuilder W → Except Error (List StdString × SynthesisBuilder W)
  | [], b => .ok ([], b)
  | a :: as, b => do
    let (x, b) ← read a b
    let b ← use x b
    let (xs, b) ← eachVariable read use as b
    return (x :: xs, b)

/-- `SynthesisConstant`. -/
def synthesisConstant (w : Writer W) (h : Heap) :
    ℕ → Addr → SynthesisBuilder W → Except Error (StdString × SynthesisBuilder W)
  | 0, _, _ => .error .outOfFuel
  | fuel + 1, value, b =>
    match b.synthesisedVariables value with
    | some i => do return (← b.variableAt i, b)
    | none =>
      match h[value]? with
      | none => .error .badPointer
      | some (.placeholder i) => do return (← b.getRetValueVariable i, b)
      | some (.array elements) => do
        let (x, b) := b.nextVariableName
        let b := (b.createVariable x).setLastSynthesisedValue value
        let b ← b.emit w (.emptyArrayVariableDef x)
        let (_, b) ← eachVariable (synthesisConstant w h fuel) (fun y b => b.emit w (.arrayPush x y)) elements b
        return (x, b)
      | some (.literal l) => do
        let (x, b) := b.nextVariableName
        let b := (b.createVariable x).setLastSynthesisedValue value
        let b ← b.emit w (.variableDef x l)
        return (x, b)

def synthesisFunctionCall (w : Writer W) (functionName : StdString) (isCtorCall : Bool) (receiver : StdString)
    (args : List StdString) (b : SynthesisBuilder W) : Except Error (StdString × SynthesisBuilder W) := do
  let (ret, b) := b.nextVariableName
  let b ← b.emit w (.functionCall ret functionName isCtorCall receiver args)
  let b := b.createVariable ret
  return (ret, { b with funcRetVariables := b.funcRetVariables ++ [b.vars.length - 1] })

/-- `receiver`, which stays empty without `this`. -/
def synthesisThis (w : Writer W) (h : Heap) (fuel : ℕ) (thisValue : Option Addr) (b : SynthesisBuilder W) :
    Except Error (StdString × SynthesisBuilder W) :=
  match thisValue with
  | some value => synthesisConstant w h fuel value b
  | none => .ok ([], b)

end SynthesisBuilder

namespace TestCaseSynthesiser

variable {W : Type}

/-- One turn of the loop of `Synthesis`. -/
def synthesisCall (w : Writer W) (store : CAFStore) (h : Heap) (fuel : ℕ) (call : FunctionCall)
    (b : SynthesisBuilder W) : Except Error (SynthesisBuilder W) := do
  let (receiver, b) ← b.synthesisThis w h fuel call.thisValue
  let (args, b) ← SynthesisBuilder.eachVariable (SynthesisBuilder.synthesisConstant w h fuel)
    (fun _ b => .ok b) call.args b
  let f ← store.getFunction call.funcId
  let (_, b) ← b.synthesisFunctionCall w f.name call.ctor receiver args
  return b

def synthesisCalls (w : Writer W) (store : CAFStore) (h : Heap) (fuel : ℕ) :
    List FunctionCall → SynthesisBuilder W → Except Error (SynthesisBuilder W)
  | [], b => .ok b
  | call :: calls, b => do
    let b ← synthesisCall w store h fuel call b
    synthesisCalls w store h fuel calls b

/-- `Synthesis`. -/
def synthesis (w : Writer W) (store : CAFStore) (h : Heap) (fuel : ℕ) (tc : TestCase)
    (b : SynthesisBuilder W) : Except Error (SynthesisBuilder W) := do
  let out ← w.enterMainFunction b.output
  let b ← synthesisCalls w store h fuel tc.calls { b with output := out }
  let out ← w.leaveFunction b.output
  return { b with output := out }

end TestCaseSynthesiser

/-! ## What statements do -/

/-- What the statements of a script do to the objects of a host. A literal that has been evaluated
is `Known`: it has the same value ever after, and evaluating it again does nothing. -/
structure Host (σ V : Type) where
  literal : Literal → σ → V × σ
  newArray : σ → V × σ
  push : V → V → σ → σ
  call : StdString × Bool → List V → List V → σ → V × σ
  Known : Literal → V → σ → Prop
  known_literal : ∀ l s, Known l (literal l s).1 (literal l s).2
  literal_known : ∀ {l v s}, Known l v s → literal l s = (v, s)
  keep_literal : ∀ {l v s} l', Known l v s → Known l v (literal l' s).2
  keep_newArray : ∀ {l v s}, Known l v s → Known l v (newArray s).2
  keep_push : ∀ {l v s} a x, Known l v s → Known l v (push a x s)
  keep_call : ∀ {l v s} op hs vs, Known l v s → Known l v (call op hs vs s).2

/-- An execution: the variables, the objects, and the calls that were made. -/
structure Execution (σ V : Type) where
  env : StdString → Option V
  host : σ
  events : List (Event (StdString × Bool) σ V)

namespace Host

variable {σ V : Type}

/-- Bind a new variable. -/
def declare (x : StdString) (v : V) (e : Execution σ V) : Option (Execution σ V) :=
  if (e.env x).isSome then none else some { e with env := Function.update e.env x (some v) }

/-- The receiver, if its name is not empty. -/
def receiver (env : StdString → Option V) (x : StdString) : Option (List V) :=
  if x.isEmpty then some [] else (env x).map ([·])

/-- The values of variables. -/
def valuesOf (env : StdString → Option V) : List StdString → Option (List V)
  | [] => some []
  | x :: xs => do
    let v ← env x
    let vs ← valuesOf env xs
    return v :: vs

/-- Execute a statement. -/
def step (H : Host σ V) : Statement → Execution σ V → Option (Execution σ V)
  | .variableDef x l, e =>
    let (v, s) := H.literal l e.host
    declare x v { e with host := s }
  | .emptyArrayVariableDef x, e =>
    let (v, s) := H.newArray e.host
    declare x v { e with host := s }
  | .arrayPush x y, e => do
    let a ← e.env x
    let v ← e.env y
    return { e with host := H.push a v e.host }
  | .functionCall ret f ctor recv args, e => do
    let hs ← receiver e.env recv
    let vs ← valuesOf e.env args
    let (v, s) := H.call (f, ctor) hs vs e.host
    declare ret v { e with host := s, events := e.events ++ [⟨(f, ctor), hs, vs, e.host, v⟩] }

/-- Execute a script. -/
def run (H : Host σ V) : List Statement → Execution σ V → Option (Execution σ V)
  | [], e => some e
  | st :: script, e => do
    let e ← H.step st e
    H.run script e

/-- How a host builds values. -/
def interp (H : Host σ V) : Interp Literal σ V where
  leaf := H.literal
  node _ := H.newArray
  push := H.push

/-- How a host performs the calls of a test case. -/
def perform (H : Host σ V) (store : CAFStore) (op : CallOp) : List V → List V → σ → V × σ :=
  H.call (store.nameOf op.1, op.2)

end Host

/-- The start of a script. -/
def Execution.start {σ V : Type} (s : σ) : Execution σ V := ⟨fun _ => none, s, []⟩

/-- An abstract machine: literals are plain values, calls may do anything to the objects. -/
structure Machine (σ V : Type) where
  literal : Literal → V
  newArray : σ → V × σ
  push : V → V → σ → σ
  call : StdString × Bool → List V → List V → σ → V × σ

/-- In a machine all literals are known. -/
def Machine.host {σ V : Type} (M : Machine σ V) : Host σ V where
  literal l s := (M.literal l, s)
  newArray := M.newArray
  push := M.push
  call := M.call
  Known l v _ := v = M.literal l
  known_literal _ _ := rfl
  literal_known h := by rw [h]
  keep_literal _ h := h
  keep_newArray h := h
  keep_push _ _ h := h
  keep_call _ _ _ h := h

/-- An event with the name of its function. -/
def namedEvent {σ V : Type} (store : CAFStore) (e : Event CallOp σ V) : Event (StdString × Bool) σ V :=
  ⟨(store.nameOf e.op.1, e.op.2), e.head, e.args, e.before, e.result⟩

/-- The store has the functions that are called. -/
def CAFStore.HasCalled (store : CAFStore) (tc : TestCase) : Prop :=
  ∀ call ∈ tc.calls, ∃ f, store.getFunction call.funcId = .ok f

/-- **Synthesis finds whatever it looks up**: all that it does is to write a script. -/
def WritesScript (store : CAFStore) (h : Heap) (tc : TestCase) : Prop :=
  ∃ script N, ∀ fuel, N ≤ fuel → ∀ {W : Type} (w : Writer W) (out : W),
    (TestCaseSynthesiser.synthesis w store h fuel tc (.new out)).map (·.output) = w.writeScript script out

/-- **Synthesis rebuilds the values of a test case.** Every builder is given the same script, which
is well scoped. On any machine its calls find the operands and the objects that the reference
evaluation of the test case finds, and leave the same objects. -/
def RebuildsValues (store : CAFStore) (h : Heap) (tc : TestCase) : Prop :=
  ∃ script N, Scoped [] script ∧ ∀ fuel, N ≤ fuel →
    (∀ {W : Type} (w : Writer W) (out : W),
      (TestCaseSynthesiser.synthesis w store h fuel tc (.new out)).map (·.output) = w.writeScript script out) ∧
    ∀ {σ V : Type} (M : Machine σ V) (s : σ), ∃ e events st,
      M.host.run script (.start s) = some e ∧
      evalSteps M.host.interp (M.host.perform store) h.graph fuel tc.steps (EvalState.start s) = some (events, st) ∧
      e.events = events.map (namedEvent store) ∧ e.host = st.host

end Caf
