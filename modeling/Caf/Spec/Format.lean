import Caf.Bytes.LittleEndian
import Caf.Graph.Slots
import Caf.Spec.Value

/-!
# The binary format

The byte strings of `TestCaseBinaryFormat.txt`. A sequence of values is a forest: an array
is written out where it is met first, and everything that has a slot is referred to by a
placeholder afterwards.

* `encodeValues`, `encodeTestCase`: the concrete syntax.
* `FitsForest`: what the 32-bit fields of a sequence of values can hold.
-/

namespace Caf

open ObjectGraph LittleEndian

/-- The operation of a call: its function and whether it constructs. -/
abbrev CallOp := FunctionIdType × Bool

/-- A call as a step. -/
def FunctionCall.step (call : FunctionCall) : Step CallOp (List Addr) :=
  ⟨(call.funcId, call.ctor), call.thisValue.toList, call.args⟩

def TestCase.steps (tc : TestCase) : List (Step CallOp (List Addr)) := tc.calls.map FunctionCall.step

/-- What follows the kind byte of a literal. -/
def Literal.payload : Literal → List UInt8
  | .undefined => []
  | .null => []
  | .boolean b => [b.toUInt8]
  | .string s => toBytes 4 s.length ++ s
  | .function id => toBytes 4 id.toNat
  | .integer i => toBytes 4 i.toUInt32.toNat
  | .float x => toBytes 8 x.toNat

def Literal.encode (l : Literal) : List UInt8 := l.kind.toByte :: l.payload

def encodePlaceholder (k : ℕ) : List UInt8 := ValueKind.placeholder.toByte :: toBytes 4 k

def encodeArrayHeader (size : ℕ) : List UInt8 := ValueKind.array.toByte :: toBytes 4 size

/-- The bytes of a sequence of values. -/
def encodeValues : Forest Literal → List UInt8
  | .nil => []
  | .leaf l rest => l.encode ++ encodeValues rest
  | .back k rest => encodePlaceholder k ++ encodeValues rest
  | .node sub rest => encodeArrayHeader sub.length ++ encodeValues sub ++ encodeValues rest

/-- The bytes of a call. -/
def encodeCall (st : Step CallOp (Forest Literal)) : List UInt8 :=
  toBytes 4 st.op.1.toNat ++ encodeValues st.head ++ [st.op.2.toUInt8] ++
    toBytes 4 st.args.length ++ encodeValues st.args

/-- The bytes of a sequence of calls. -/
def encodeCalls (Fs : List (Step CallOp (Forest Literal))) : List UInt8 := Fs.flatMap encodeCall

def encodeTestCase (root : ℕ) (Fs : List (Step CallOp (Forest Literal))) : List UInt8 :=
  toBytes 4 root ++ toBytes 4 Fs.length ++ encodeCalls Fs

/-- A missing `this` is written as Undefined. -/
def fillThis : Forest Literal → Forest Literal
  | .nil => .leaf .undefined .nil
  | F => F

def fillStep (st : Step CallOp (Forest Literal)) : Step CallOp (Forest Literal) :=
  { st with head := fillThis st.head }

/-- A `this` that is there is written itself. -/
theorem fillThis_of_length {F : Forest Literal} (h : F.length = 1) : fillThis F = F := by
  cases F with
  | nil => simp [Forest.length] at h
  | _ => rfl

/-! ## Bounds -/

/-- The literal's length field can hold its length. -/
def Literal.Fits : Literal → Prop
  | .string s => s.length < 2 ^ 32
  | _ => True

/-- The 32-bit fields of a sequence of values hold what is written into them. -/
def FitsForest : Forest Literal → Prop
  | .nil => True
  | .leaf l rest => l.Fits ∧ FitsForest rest
  | .back k rest => k < 2 ^ 32 ∧ FitsForest rest
  | .node sub rest => sub.length < 2 ^ 32 ∧ FitsForest sub ∧ FitsForest rest

structure FitsStep (st : Step CallOp (Forest Literal)) : Prop where
  head : FitsForest st.head
  single : st.head.length = 1
  length : st.args.length < 2 ^ 32
  args : FitsForest st.args

/-- Nested values are nested in the bytes. -/
theorem depth_le_length (F : Forest Literal) : F.depth ≤ (encodeValues F).length := by
  induction F with
  | nil => simp [Forest.depth]
  | leaf l rest ih =>
    simp only [Forest.depth, encodeValues, Literal.encode, List.length_append, List.length_cons]
    omega
  | back k rest ih =>
    simp only [Forest.depth, encodeValues, encodePlaceholder, List.length_append, List.length_cons]
    omega
  | node sub rest ih₁ ih₂ =>
    simp only [Forest.depth, encodeValues, encodeArrayHeader, List.length_append, List.length_cons]
    omega

/-- No operand of a test case is nested deeper than its bytes are long. -/
theorem depthLE_length (root : ℕ) (Fs : List (Step CallOp (Forest Literal))) :
    DepthLE (encodeTestCase root Fs).length Fs := by
  intro st hst
  have hsub : (encodeCall st).length ≤ (encodeCalls Fs).length := by
    rw [encodeCalls, List.flatMap_def]
    exact (List.sublist_flatten_of_mem (List.mem_map_of_mem hst)).length_le
  have h₁ := depth_le_length st.head
  have h₂ := depth_le_length st.args
  have hcall : (encodeValues st.head).length + (encodeValues st.args).length ≤ (encodeCall st).length := by
    simp [encodeCall]; omega
  have htotal : (encodeCalls Fs).length ≤ (encodeTestCase root Fs).length := by
    rw [encodeTestCase, List.length_append]; omega
  constructor <;> omega

end Caf
