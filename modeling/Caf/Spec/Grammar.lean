import Caf.Bytes.LittleEndian
import Caf.Spec.Value

/-!
# The grammar of the binary format

The byte strings that the productions of `TestCaseBinaryFormat.txt` derive, with the number
of slots assigned so far: an array takes one when its kind byte has been read, a call takes one
for its return value, and a placeholder designates a slot that is already assigned.
-/

namespace Caf

open LittleEndian

/-- A `u32` field. -/
def IsU32 (bytes : List UInt8) : Prop := bytes.length = 4

/-- `Values n k b n'`: the bytes `b` are `k` values, with `n` slots assigned before and `n'`
after them. -/
inductive Values : ℕ → ℕ → List UInt8 → ℕ → Prop
  | nil {n} : Values n 0 [] n
  | undefined {n k b n'} : Values n k b n' → Values n (k + 1) (0 :: b) n'
  | null {n k b n'} : Values n k b n' → Values n (k + 1) (1 :: b) n'
  | boolean {n k b n'} (value : UInt8) : value = 0 ∨ value = 1 → Values n k b n' →
      Values n (k + 1) (2 :: value :: b) n'
  | string {n k b n'} (data : List UInt8) : data.length < 2 ^ 32 → Values n k b n' →
      Values n (k + 1) (3 :: (toBytes 4 data.length ++ data ++ b)) n'
  | function {n k b n'} (funcId : List UInt8) : IsU32 funcId → Values n k b n' →
      Values n (k + 1) (4 :: (funcId ++ b)) n'
  | integer {n k b n'} (value : List UInt8) : IsU32 value → Values n k b n' →
      Values n (k + 1) (5 :: (value ++ b)) n'
  | float {n k b n'} (value : Double) : value.isNaN = false → value.isInf = false → Values n k b n' →
      Values n (k + 1) (6 :: (toBytes 8 value.toNat ++ b)) n'
  | array {n k b n'} (size : ℕ) (elements : List UInt8) (n₁ : ℕ) : size < 2 ^ 32 →
      Values (n + 1) size elements n₁ → Values n₁ k b n' →
      Values n (k + 1) (7 :: (toBytes 4 size ++ elements ++ b)) n'
  | placeholder {n k b n'} (index : ℕ) : index < n → index < 2 ^ 32 → Values n k b n' →
      Values n (k + 1) (8 :: (toBytes 4 index ++ b)) n'

/-- `Calls n k b n'`: the bytes `b` are `k` calls. -/
inductive Calls : ℕ → ℕ → List UInt8 → ℕ → Prop
  | nil {n} : Calls n 0 [] n
  | cons {n k b n'} (funcId thisValue : List UInt8) (isCtor : UInt8) (argsCount : ℕ)
      (args : List UInt8) (n₁ n₂ : ℕ) : IsU32 funcId → Values n 1 thisValue n₁ → isCtor = 0 ∨ isCtor = 1 →
      argsCount < 2 ^ 32 → Values n₁ argsCount args n₂ → Calls (n₂ + 1) k b n' →
      Calls n (k + 1) (funcId ++ thisValue ++ [isCtor] ++ toBytes 4 argsCount ++ args ++ b) n'

/-- The bytes of a test case. -/
def IsTestCase (b : List UInt8) : Prop :=
  ∃ rootEntryIndex callsCount calls n, IsU32 rootEntryIndex ∧ callsCount < 2 ^ 32 ∧
    Calls 0 callsCount calls n ∧ b = rootEntryIndex ++ toBytes 4 callsCount ++ calls

end Caf
