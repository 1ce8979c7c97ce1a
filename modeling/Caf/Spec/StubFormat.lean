import Caf.Spec.Format
import Caf.Spec.StubReader

/-!
# The input format of the generated program

The values are written as everywhere else, but there is no root entry and no constructor flag. What the values and calls
mean is said by what V8 makes of them: an array takes the next place in the object list after its elements are made.

* `encodeStubInput`: the bytes of a sequence of calls.
* `makeValues`, `makeCalls`: what is made of them.
* `slotValues`, `slotCalls`: the same with the slots that the serializer hands out.
* `MakesObjects`, `MakesSteps`: the same for the objects of a heap, without slots.
-/

namespace Caf

open ObjectGraph Ir LittleEndian

/-- The bytes of a call. -/
def encodeStubCall (st : Step FunctionIdType (Forest Literal)) : List UInt8 :=
  toBytes 4 st.op.toNat ++ encodeValues st.head ++ toBytes 4 st.args.length ++ encodeValues st.args

def encodeStubCalls (Fs : List (Step FunctionIdType (Forest Literal))) : List UInt8 := Fs.flatMap encodeStubCall

/-- The bytes of a sequence of calls, with their number. -/
def encodeStubInput (Fs : List (Step FunctionIdType (Forest Literal))) : List UInt8 :=
  toBytes 4 Fs.length ++ encodeStubCalls Fs

/-! ## Bounds -/

/-- The literal's length is no negative number. -/
def Literal.FitsStub : Literal → Prop
  | .string s => s.length < 2 ^ 31
  | _ => True

/-- The lengths and indices in a sequence of values are no negative numbers. -/
def FitsStubForest : Forest Literal → Prop
  | .nil => True
  | .leaf l rest => l.FitsStub ∧ FitsStubForest rest
  | .back k rest => k < 2 ^ 31 ∧ FitsStubForest rest
  | .node sub rest => sub.length < 2 ^ 31 ∧ FitsStubForest sub ∧ FitsStubForest rest

/-- A call of one of the `functions` API functions. -/
structure FitsStubStep (functions : ℕ) (st : Step FunctionIdType (Forest Literal)) : Prop where
  op : st.op.toNat < functions
  head : FitsStubForest st.head
  single : st.head.length = 1
  length : st.args.length < 2 ^ 31
  args : FitsStubForest st.args

/-! ## What is made of the values -/

variable {σ H : Type} (L : V8Lib σ H) (functions : ℕ)

/-- What `create` makes is shown. -/
def createShown (create : σ → Option (H × σ)) (showValue : H → σ → Option σ) (v8 : σ) : Except Fault (H × σ) := do
  let (h, v8) ← hostResult (create v8)
  return (h, ← hostResult (showValue h v8))

/-- What is made of a literal. The empty string has no first byte to be printed, and a function must be there. -/
def createLiteral (l : Literal) (v8 : σ) : Except Fault (H × σ) :=
  match l with
  | .undefined => hostResult (L.createUndefined v8)
  | .null => hostResult (L.createNull v8)
  | .boolean b => createShown (L.createBoolean (some b.toUInt8)) L.showBoolean v8
  | .string str => if str = [] then .error .undefined else createShown (L.createString (str.map some)) L.showString v8
  | .function id => if id.toNat < functions then hostResult (L.createFunction id.toNat v8) else .error .undefined
  | .integer n => createShown (L.createInteger n) L.showInteger v8
  | .float x => createShown (L.createNumber x) L.showNumber v8

def makeLiteral (l : Literal) (s : StubProcess σ H) : Except Fault (Option H × StubProcess σ H) := do
  let (h, v8) ← createLiteral L functions l s.v8
  return (some h, { s with v8 := v8 })

/-- A sequence of values. -/
def makeValues : Forest Literal → StubReader σ H (List (Option H))
  | .nil, s => .ok ([], s)
  | .leaf l rest, s => do
    let (v, s) ← makeLiteral L functions l s
    let (vs, s) ← makeValues rest s
    return (v :: vs, s)
  | .back k rest, s => do
    let (vs, s') ← makeValues rest s
    return (s.objects[k]? :: vs, s')
  | .node sub rest, s => do
    let (elements, s) ← makeValues sub s
    let (h, s) ← s.give (L.createArray elements (Int32.ofNat sub.length))
    let (vs, s) ← makeValues rest (saveToObjectList h s)
    return (some h :: vs, s)

def makeCall (st : Step FunctionIdType (Forest Literal)) (s : StubProcess σ H) : Except Fault (StubProcess σ H) := do
  let (thisArg, s) ← makeValues L functions st.head s
  let (args, s) ← makeValues L functions st.args s
  callApi L st.op.toNat thisArg.head?.join args (Int32.ofNat st.args.length) s

def makeCalls : List (Step FunctionIdType (Forest Literal)) → StubProcess σ H → Except Fault (StubProcess σ H)
  | [], s => .ok s
  | st :: Fs, s => do makeCalls Fs (← makeCall L functions st s)

/-! ## The numbering of the serializer -/

/-- A sequence of values, where an array takes its slot before its elements take theirs. A slot is empty until its array
has been made. -/
def slotValues : Forest Literal → List (Option H) → σ → Except Fault (List (Option H) × List (Option H) × σ)
  | .nil, pool, v8 => .ok ([], pool, v8)
  | .leaf l rest, pool, v8 => do
    let (h, v8) ← createLiteral L functions l v8
    let (vs, pool, v8) ← slotValues rest pool v8
    return (some h :: vs, pool, v8)
  | .back k rest, pool, v8 => do
    let (vs, pool', v8) ← slotValues rest pool v8
    return (pool[k]?.join :: vs, pool', v8)
  | .node sub rest, pool, v8 => do
    let (elements, pool', v8) ← slotValues sub (pool ++ [none]) v8
    let (h, v8) ← hostResult (L.createArray elements (Int32.ofNat sub.length) v8)
    let (vs, pool', v8) ← slotValues rest (pool'.set pool.length (some h)) v8
    return (some h :: vs, pool', v8)

/-- What an API function returns. -/
def invokeApi (index : ℕ) (thisArg : Option H) (args : List (Option H)) (n : Int32) (v8 : σ) :
    Except Fault (H × σ) := do
  let (info, v8) ← hostResult (L.createFunctionCallbackInfo thisArg args n v8)
  let v8 ← hostResult (L.invoke index info v8)
  hostResult (L.getRetValue info v8)

/-- A call. What it returns takes the next slot. -/
def slotCall (st : Step FunctionIdType (Forest Literal)) (pool : List (Option H)) (v8 : σ) :
    Except Fault (List (Option H) × σ) := do
  let (thisArg, pool, v8) ← slotValues L functions st.head pool v8
  let (args, pool, v8) ← slotValues L functions st.args pool v8
  let (h, v8) ← invokeApi L st.op.toNat thisArg.head?.join args (Int32.ofNat st.args.length) v8
  return (pool ++ [some h], v8)

def slotCalls : List (Step FunctionIdType (Forest Literal)) → List (Option H) → σ →
    Except Fault (List (Option H) × σ)
  | [], pool, v8 => .ok (pool, v8)
  | st :: Fs, pool, v8 => do
    let (pool, v8) ← slotCall L functions st pool v8
    slotCalls Fs pool v8

/-! ## Without numbers -/

/-- What has been made of arrays and calls. An array that has been met and is not made yet is `some none`. -/
abbrev HandleTable (H : Type) : Type := Referent → Option (Option H)

/-- `MakesObjects g made v8 as vs made' v8'`: the objects `as` are made as `vs`. An array that was met before is not
made again. -/
inductive MakesObjects (g : Graph Literal) :
    HandleTable H → σ → List Addr → List (Option H) → HandleTable H → σ → Prop
  | nil {made v8} : MakesObjects g made v8 [] [] made v8
  | leaf {made v8 a l h v8₁ as vs made' v8'} : g a = some (.leaf l) → createLiteral L functions l v8 = .ok (h, v8₁) →
      MakesObjects g made v8₁ as vs made' v8' → MakesObjects g made v8 (a :: as) (some h :: vs) made' v8'
  | result {made v8 a i as vs made' v8'} : g a = some (.result i) → MakesObjects g made v8 as vs made' v8' →
      MakesObjects g made v8 (a :: as) ((made (.result i)).join :: vs) made' v8'
  | seen {made v8 a es as vs made' v8'} : g a = some (.node es) → (made (.node a)).isSome →
      MakesObjects g made v8 as vs made' v8' → MakesObjects g made v8 (a :: as) ((made (.node a)).join :: vs) made' v8'
  | node {made v8 a es elements made₁ v8₁ h v8₂ as vs made' v8'} : g a = some (.node es) → made (.node a) = none →
      MakesObjects g (Function.update made (.node a) (some none)) v8 es elements made₁ v8₁ →
      hostResult (L.createArray elements (Int32.ofNat es.length) v8₁) = .ok (h, v8₂) →
      MakesObjects g (Function.update made₁ (.node a) (some (some h))) v8₂ as vs made' v8' →
      MakesObjects g made v8 (a :: as) (some h :: vs) made' v8'

/-- `MakesSteps g i made v8 steps made' v8'`: the calls `steps`, the first of which has number `i`, are made. -/
inductive MakesSteps (g : Graph Literal) :
    ℕ → HandleTable H → σ → List (Step CallOp (List Addr)) → HandleTable H → σ → Prop
  | nil {i made v8} : MakesSteps g i made v8 [] made v8
  | cons {i made v8 op head args thisArg made₁ v8₁ vs made₂ v8₂ h v8₃ steps made' v8'} :
      MakesObjects L functions g made v8 head thisArg made₁ v8₁ →
      MakesObjects L functions g made₁ v8₁ args vs made₂ v8₂ →
      invokeApi L op.1.toNat thisArg.head?.join vs (Int32.ofNat args.length) v8₂ = .ok (h, v8₃) →
      MakesSteps g (i + 1) (Function.update made₂ (.result i) (some (some h))) v8₃ steps made' v8' →
      MakesSteps g i made v8 (⟨op, head, args⟩ :: steps) made' v8'

/-- A call in the input format, which has no constructor flag. -/
def stubStep (st : Step CallOp (Forest Literal)) : Step FunctionIdType (Forest Literal) := ⟨st.op.1, st.head, st.args⟩

/-! ## Conditions -/

/-- No array lies inside an array. -/
def FlatForest : Forest Literal → Prop
  | .nil => True
  | .leaf _ rest => FlatForest rest
  | .back _ rest => FlatForest rest
  | .node sub rest => sub.slots = 0 ∧ FlatForest rest

/-- The functions return for all that the generated program gives them: a string without a NUL behind it, and null in
the place of an element, an argument or a receiver that is not there. -/
structure V8Lib.Returns : Prop where
  createUndefined : ∀ v8, (L.createUndefined v8).isSome
  createNull : ∀ v8, (L.createNull v8).isSome
  createBoolean : ∀ (b : UInt8) v8, (L.createBoolean (some b) v8).isSome
  createString : ∀ (str : StdString) v8, (L.createString (str.map some) v8).isSome
  createInteger : ∀ n v8, (L.createInteger n v8).isSome
  createNumber : ∀ x v8, (L.createNumber x v8).isSome
  createFunction : ∀ index v8, (L.createFunction index v8).isSome
  createArray : ∀ elements n v8, (L.createArray elements n v8).isSome
  showBoolean : ∀ h v8, (L.showBoolean h v8).isSome
  showString : ∀ h v8, (L.showString h v8).isSome
  showInteger : ∀ h v8, (L.showInteger h v8).isSome
  showNumber : ∀ h v8, (L.showNumber h v8).isSome
  createFunctionCallbackInfo : ∀ thisArg args n v8, (L.createFunctionCallbackInfo thisArg args n v8).isSome
  invoke : ∀ index info v8, (L.invoke index info v8).isSome
  getRetValue : ∀ info v8, (L.getRetValue info v8).isSome

/-- A literal that the generated program can make. -/
def Literal.Makeable : Literal → Prop
  | .string s => s ≠ []
  | .function id => id.toNat < functions
  | _ => True

end Caf
