import Caf.Bytes.Reader
import Caf.Spec.Correspondence
import Caf.Spec.Deserializer

/-!
# What the bytes decide

The deserializer reads fields whose bytes may be missing, and then it uses what its local buffers happen
to hold. Whether the bytes that are there decide what it does is a matter of the format alone: they do if
they begin with a whole test case, or with bytes that can begin no test case.

* `Spells`, `Refused`: the bytes of a sequence of values, and those that can begin none.
* `testCase`: the reader of the format.
* `DependsOnBytes`, `Decided`: the property of the deserializer, and the condition on its input.
-/

namespace Caf

open ObjectGraph LittleEndian

/-- What follows the kind byte of a literal. -/
def literalReader? : ValueKind → Option (Reader Literal)
  | .undefined => some (.pure .undefined)
  | .null => some (.pure .null)
  | .boolean => some ((Reader.int 1).map fun value => .boolean (value != 0))
  | .string => some ((Reader.int 4).bind fun len => (Reader.field len).map .string)
  | .function => some ((Reader.int 4).map fun funcId => .function (UInt32.ofNat funcId))
  | .integer => some ((Reader.int 4).map fun value => .integer (UInt32.ofNat value).toInt32)
  | .float => some ((Reader.int 8).map fun value => .float (UInt64.ofNat value))
  | .array => none
  | .placeholder => none

/-- A reference to one of `n` slots. The low bytes may be enough to see that there is no such slot. -/
def indexReader (n : ℕ) : Reader ℕ where
  means d index := (Reader.int 4).means d index ∧ index < n
  refuses d := d.length ≤ 4 ∧ n ≤ ofBytes d

/-- `Spells n k b F`: the bytes `b` are the `k` values `F`, when there are `n` slots. Any number but zero is
read as the boolean true. -/
inductive Spells : ℕ → ℕ → List UInt8 → Forest Literal → Prop
  | nil {n} : Spells n 0 [] .nil
  | leaf {n k kind x d l b F} : literalReader? kind = some x → x.means d l → Spells n k b F →
      Spells n (k + 1) (kind.toByte :: (d ++ b)) (.leaf l F)
  | back {n k d index b F} : (indexReader n).means d index → Spells n k b F →
      Spells n (k + 1) (ValueKind.placeholder.toByte :: (d ++ b)) (.back index F)
  | node {n k d size b₁ sub b F} : (Reader.int 4).means d size → Spells (n + 1) size b₁ sub →
      Spells (n + 1 + sub.slots) k b F → Spells n (k + 1) (ValueKind.array.toByte :: (d ++ (b₁ ++ b))) (.node sub F)

/-- `Refused n k b`: the bytes `b` begin no `k` values, when there are `n` slots. -/
inductive Refused : ℕ → ℕ → List UInt8 → Prop
  | kind {n k byte} : ValueKind.ofByte? byte = none → Refused n (k + 1) [byte]
  | index {n k d} : (indexReader n).refuses d → Refused n (k + 1) (ValueKind.placeholder.toByte :: d)
  | elements {n k d size b} : (Reader.int 4).means d size → Refused (n + 1) size b →
      Refused n (k + 1) (ValueKind.array.toByte :: (d ++ b))
  | next {n k b F b'} : Spells n 1 b F → Refused (n + F.slots) k b' → Refused n (k + 1) (b ++ b')

/-- `k` values. -/
def valuesReader (n k : ℕ) : Reader (Forest Literal) := ⟨Spells n k, Refused n k⟩

/-- A call. Any number but zero makes it a constructor call. -/
def callReader (n : ℕ) : Reader (Step CallOp (Forest Literal)) :=
  (Reader.int 4).bind fun funcId => (valuesReader n 1).bind fun head => (Reader.int 1).bind fun isCtor =>
    (Reader.int 4).bind fun argsCount =>
      (valuesReader (n + head.slots) argsCount).map fun args => ⟨(UInt32.ofNat funcId, isCtor != 0), head, args⟩

/-- `k` calls. -/
def callsReader : ℕ → ℕ → Reader (List (Step CallOp (Forest Literal)))
  | _, 0 => .pure []
  | n, k + 1 => (callReader n).bind fun st => (callsReader (n + st.slots) k).map (st :: ·)

/-- A test case. -/
def testCaseReader : Reader (ℕ × List (Step CallOp (Forest Literal))) :=
  (Reader.int 4).bind fun storeRootEntryIndex => (Reader.int 4).bind fun callsCount =>
    (callsReader 0 callsCount).map fun Fs => (storeRootEntryIndex, Fs)

/-- **The bytes decide** what the deserializer does: they begin with a whole test case, or with bytes that
begin none. -/
def Decided (data : List UInt8) : Prop := testCaseReader.Decides data

/-! ## The property -/

/-- The two runs end in the same way, as far as they came to an end. -/
def SameOutcome : Except Error (TestCase × TestCaseDeserializer) → Except Error (TestCase × TestCaseDeserializer) → Prop
  | .ok r, .ok r' => ∃ R, Corresponds SameLiteral r.2.pool.heap r.1 r'.2.pool.heap r'.1 R
  | .error _, .error _ => True
  | .ok _, .error e => e = .outOfFuel
  | .error e, .ok _ => e = .outOfFuel

/-- **What is decoded depends on the bytes only**, and not on what the local buffers hold. -/
def DependsOnBytes (pool : ObjectPool) (data : List UInt8) : Prop :=
  ∀ (fuel : ℕ) (junk junk' : ℕ → UInt8),
    SameOutcome (TestCaseDeserializer.deserialize fuel (.new ⟨data, junk⟩ pool))
      (TestCaseDeserializer.deserialize fuel (.new ⟨data, junk'⟩ pool))

end Caf
