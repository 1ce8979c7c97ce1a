import Mathlib.Data.Int.ModEq
import Mathlib.Data.Nat.Bitwise

/-!
# Checked arithmetic

The operations on `int`, where the language defines them. A left shift of a number that is not negative may reach
the sign bit, but not go beyond it.

* `neg_eq`: only the least number has no negation.
* `mask_eq`: the mask of some consecutive bits, but not of all bits at once.
* `bit_xor_mask`: what it inverts.
-/

namespace Checked

/-- A number that `int` has. -/
def ofInt (x : Int) : Option Int32 := if -2 ^ 31 ≤ x ∧ x < 2 ^ 31 then some (Int32.ofInt x) else none

/-- `-x`. -/
def neg (x : Int32) : Option Int32 := ofInt (-x.toInt)

/-- `x + y`. -/
def add (x y : Int32) : Option Int32 := ofInt (x.toInt + y.toInt)

/-- `x - y`. -/
def sub (x y : Int32) : Option Int32 := ofInt (x.toInt - y.toInt)

/-- `x << n`. -/
def shl (x : Int32) (n : ℕ) : Option Int32 :=
  if n < 32 ∧ 0 ≤ x.toInt ∧ x.toInt * 2 ^ n < 2 ^ 32 then some (Int32.ofInt (x.toInt * 2 ^ n)) else none

/-- `((1 << len) - 1) << start`. -/
def mask (len start : ℕ) : Option Int32 := do
  let bit ← shl 1 len
  let ones ← sub bit 1
  shl ones start

/-- **Only the least number has no negation.** -/
theorem neg_eq (x : Int32) : neg x = if x = Int32.minValue then none else some (-x) := by
  have hmin := x.minValue_le_toInt
  have hmax := x.toInt_le
  have hle : Int32.minValue.toInt = -2 ^ 31 := rfl
  have hge : Int32.maxValue.toInt = 2 ^ 31 - 1 := rfl
  unfold neg ofInt
  by_cases hx : x = Int32.minValue
  · subst hx
    rfl
  · have hne : x.toInt ≠ -2 ^ 31 := fun h => hx (Int32.toInt_inj.1 h)
    rw [if_neg hx, if_pos (by omega), Int32.ofInt_neg, Int32.ofInt_toInt]

/-- **The mask of consecutive bits.** -/
theorem mask_eq {len start : ℕ} (hpos : 0 < len) (hlen : len < 31) (hstart : start ≤ 32 - len) :
    mask len start = some (Int32.ofInt ((2 ^ len - 1) * 2 ^ start)) := by
  have hlow : (2 : Int) ^ len < 2 ^ 31 := by exact_mod_cast Nat.pow_lt_pow_right (by decide) hlen
  have hone : (1 : Int) ≤ 2 ^ len := by exact_mod_cast Nat.one_le_two_pow
  have hbit : shl 1 len = some (Int32.ofInt (2 ^ len)) := by
    unfold shl
    rw [show (1 : Int32).toInt = 1 from rfl, if_pos ⟨by omega, by decide, by omega⟩, one_mul]
  have hones : sub (Int32.ofInt (2 ^ len)) 1 = some (Int32.ofInt (2 ^ len - 1)) := by
    unfold sub ofInt
    rw [Int32.toInt_ofInt_of_le (by omega) hlow, show (1 : Int32).toInt = 1 from rfl, if_pos ⟨by omega, by omega⟩]
  have hshift : (2 : Int) ^ len * 2 ^ start ≤ 2 ^ 32 := by
    rw [← pow_add]
    exact_mod_cast Nat.pow_le_pow_right (by decide) (by omega)
  have hstep : (1 : Int) ≤ 2 ^ start := by exact_mod_cast Nat.one_le_two_pow
  have hsub : ((2 : Int) ^ len - 1) * 2 ^ start = 2 ^ len * 2 ^ start - 2 ^ start := by rw [sub_mul, one_mul]
  unfold mask
  rw [hbit]
  show (sub (Int32.ofInt (2 ^ len)) 1 >>= fun ones => shl ones start) = _
  rw [hones]
  show shl (Int32.ofInt (2 ^ len - 1)) start = _
  unfold shl
  rw [Int32.toInt_ofInt_of_le (by omega) (by omega), if_pos ⟨by omega, by omega, by omega⟩]

/-- All bits at once are shifted too far. -/
theorem mask_all (start : ℕ) : mask 32 start = none := rfl

/-- Bit `i` of a number. -/
def bit (x : Int32) (i : ℕ) : Bool := x.toBitVec.getLsbD i

theorem ext_bit {x y : Int32} (h : ∀ i < 32, bit x i = bit y i) : x = y :=
  Int32.toBitVec_inj.1 (BitVec.eq_of_getLsbD_eq h)

theorem bit_mask {len start i : ℕ} (hi : i < 32) :
    bit (Int32.ofInt ((2 ^ len - 1) * 2 ^ start)) i = decide (start ≤ i ∧ i < start + len) := by
  have hcast : (((2 ^ len - 1) * 2 ^ start : ℕ) : Int) = (2 ^ len - 1) * 2 ^ start := by
    push_cast [Nat.one_le_two_pow]
    rfl
  unfold bit
  rw [Int32.toBitVec_ofInt, ← hcast, BitVec.ofInt_natCast, BitVec.getLsbD_ofNat, ← Nat.shiftLeft_eq,
    Nat.testBit_shiftLeft, Nat.testBit_two_pow_sub_one]
  by_cases hle : start ≤ i
  · simp only [hi, hle, decide_true, Bool.true_and, true_and]
    congr 1
    exact propext ⟨fun h => by omega, fun h => by omega⟩
  · simp [hle]

/-- **What the mask inverts.** -/
theorem bit_xor_mask (x : Int32) {len start i : ℕ} (hi : i < 32) :
    bit (x ^^^ Int32.ofInt ((2 ^ len - 1) * 2 ^ start)) i = (bit x i ^^ decide (start ≤ i ∧ i < start + len)) := by
  rw [← bit_mask hi]
  unfold bit
  rw [Int32.toBitVec_xor, BitVec.getLsbD_xor]

end Checked
