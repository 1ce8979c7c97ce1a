import Caf.Proof.Insertion
import Caf.Spec.Integers

/-!
# Mutated integers

The operators of `MutateInteger` do what they should, except for the negation of the least number and the mask of all
bits, which are undefined.

* `bitflipped_eq`: the mask, as the language evaluates it.
* `mutatesInteger_iff`: when the operators do what they should.
-/

namespace Caf

open Caf.Random

variable {value : Int32} {s : Fuzzer} {rnd : ℕ → ℕ} {m : IntegerMutation}

/-! ## What is drawn -/

theorem next_eq {min max : ℕ} (h : min ≤ max) (s : Fuzzer) :
    next min max s = .ok (min + s.rnd 0 % (max - min + 1), { s with rnd := fun n => s.rnd (n + 1) }) := by
  unfold next
  rw [if_pos h]
  rfl

/-- The drawn element. -/
theorem select_eq {α : Type} {l : List α} (hl : l ≠ []) (d : α) (s : Fuzzer) :
    select l s = .ok (l.getD (s.rnd 0 % l.length) d, { s with rnd := fun n => s.rnd (n + 1) }) := by
  have hpos : 0 < l.length := List.length_pos_iff.2 hl
  have hlt : s.rnd 0 % l.length < l.length := Nat.mod_lt _ hpos
  have hlast : lastIndex l.length - 0 + 1 = l.length := by
    unfold lastIndex
    rw [if_neg (by omega)]
    omega
  unfold select
  rw [if_neg (by simpa using hl)]
  show (next 0 (lastIndex l.length) s >>= fun p => _) = _
  rw [next_eq (Nat.zero_le _), hlast]
  simp only [bind, Except.bind, Nat.zero_add, List.getElem?_eq_getElem hlt, List.getD_eq_getElem?_getD,
    Option.getD_some]
  rfl

/-- **Whatever is possible can be drawn**, and nothing else. -/
theorem possible_iff : m.Possible ↔ ∃ rnd, IntegerMutation.drawn rnd = m := by
  constructor
  · intro hm
    cases m with
    | increment inc =>
      obtain ⟨hmin, hmax⟩ : -10 ≤ inc ∧ inc ≤ 10 := hm
      have hinc : (-10 + (((inc + 10).toNat % 21 : ℕ) : Int)) = inc := by omega
      refine ⟨fun n => if n = 0 then 0 else (inc + 10).toNat, ?_⟩
      show IntegerMutation.increment (-10 + (((inc + 10).toNat % 21 : ℕ) : Int)) = _
      rw [hinc]
    | negate => exact ⟨fun _ => 1, rfl⟩
    | bitflip maskLen startOffset =>
      obtain ⟨hlen, hstart⟩ := hm
      obtain ⟨k, hk, hget⟩ := List.getElem_of_mem hlen
      have hmod : k % 6 = k := Nat.mod_eq_of_lt (show k < 6 from hk)
      have hgetD : maskLengths.getD k 0 = maskLen := by
        rw [List.getD_eq_getElem?_getD, List.getElem?_eq_getElem hk, hget, Option.getD_some]
      refine ⟨fun n => if n = 0 then 2 else if n = 1 then k else startOffset, ?_⟩
      show IntegerMutation.bitflip (maskLengths.getD (k % 6) 0)
        (startOffset % (bitLength - maskLengths.getD (k % 6) 0 + 1)) = _
      rw [hmod, hgetD, Nat.mod_eq_of_lt (by omega)]
  · rintro ⟨rnd, rfl⟩
    unfold IntegerMutation.drawn
    split
    · have hlt : rnd 1 % 21 < 21 := Nat.mod_lt _ (by decide)
      exact ⟨by unfold integerMaxIncrement; omega, by unfold integerMaxIncrement; omega⟩
    · trivial
    · have hlt : rnd 1 % 6 < maskLengths.length := Nat.mod_lt _ (by decide)
      refine ⟨?_, Nat.le_of_lt_succ (Nat.mod_lt _ (Nat.succ_pos _))⟩
      rw [List.getD_eq_getElem?_getD, List.getElem?_eq_getElem hlt]
      exact List.getElem_mem hlt

/-! ## The new value -/

/-- Shifting a small number is multiplying it. -/
theorem shiftLeft_ofNat (k : ℕ) {n : ℕ} (hn : n < 32) :
    Int32.ofInt k <<< Int32.ofNat n = Int32.ofInt ((k : Int) * 2 ^ n) := by
  have hsmod : ∀ n < 32, ((Int32.ofNat n).toBitVec.smod 32).toNat = n := by decide
  have hcast : (k : Int) * 2 ^ n = ((k * 2 ^ n : ℕ) : Int) := by push_cast; rfl
  apply Int32.toBitVec_inj.1
  rw [Int32.toBitVec_shiftLeft, BitVec.shiftLeft_eq', hsmod n hn, Int32.toBitVec_ofInt, Int32.toBitVec_ofInt, hcast,
    BitVec.ofInt_natCast, BitVec.ofInt_natCast]
  apply BitVec.eq_of_toNat_eq
  rw [BitVec.toNat_shiftLeft, BitVec.toNat_ofNat, BitVec.toNat_ofNat, Nat.shiftLeft_eq, Nat.mod_mul_mod]

/-- The lengths of masks are less than the number of bits, but for the last. -/
theorem maskLengths_lt {maskLen : ℕ} (hlen : maskLen ∈ maskLengths) (hne : maskLen ≠ 32) :
    0 < maskLen ∧ maskLen < 31 := by
  unfold maskLengths at hlen
  simp only [List.mem_cons, List.not_mem_nil, or_false] at hlen
  omega

/-- **The mask, as the language evaluates it.** -/
theorem bitflipped_eq {maskLen startOffset : ℕ} (hlen : maskLen ∈ maskLengths)
    (hstart : startOffset ≤ bitLength - maskLen) :
    bitflipped value maskLen startOffset = (Checked.mask maskLen startOffset).map (value ^^^ ·) := by
  by_cases hall : maskLen = 32
  · subst hall
    rfl
  obtain ⟨hpos, hlt⟩ := maskLengths_lt hlen hall
  -- the mask is `((1 << maskLen) - 1) << startOffset`, and `maskLen` is less than the number of bits
  have hbit : (1 : Int32) <<< Int32.ofNat maskLen = Int32.ofInt (2 ^ maskLen) := by
    have hshift := shiftLeft_ofNat 1 (show maskLen < 32 by omega)
    rwa [Nat.cast_one, one_mul] at hshift
  have hones : Int32.ofInt (2 ^ maskLen) - 1 = Int32.ofInt ((2 ^ maskLen - 1 : ℕ) : Int) := by
    have hone : (1 : Int32) = Int32.ofInt 1 := rfl
    push_cast [Nat.one_le_two_pow]
    rw [hone, ← Int32.ofInt_sub]
  have hstart' : startOffset < 32 := by
    unfold bitLength at hstart
    omega
  have hcast : (((2 ^ maskLen - 1 : ℕ) : Int) * 2 ^ startOffset) = (2 ^ maskLen - 1) * 2 ^ startOffset := by
    push_cast [Nat.one_le_two_pow]
    rfl
  unfold bitflipped
  rw [if_pos (show maskLen < bitLength by unfold bitLength; omega), hbit, hones, shiftLeft_ofNat _ hstart', hcast,
    Checked.mask_eq hpos hlt hstart]
  rfl

theorem negated_eq (value : Int32) : negated value = Checked.neg value := (Checked.neg_eq value).symm

/-- The bits of a mask that is shorter than the number are those that it inverts. -/
theorem mask_of_possible {maskLen startOffset : ℕ} (hm : (IntegerMutation.bitflip maskLen startOffset).Possible)
    (hne : maskLen ≠ 32) : startOffset < startOffset + maskLen ∧ startOffset < 32 ∧
      Checked.mask maskLen startOffset = some (Int32.ofInt ((2 ^ maskLen - 1) * 2 ^ startOffset)) := by
  obtain ⟨hlen, hstart⟩ := hm
  obtain ⟨hpos, hlt⟩ := maskLengths_lt hlen hne
  have hstart : startOffset ≤ 32 - maskLen := hstart
  exact ⟨by omega, by omega, Checked.mask_eq hpos hlt hstart⟩

/-- **When a value is defined**: always, but for the negation of the least number and for all bits at once. -/
theorem newValue_isSome_iff (hm : m.Possible) : (m.newValue value).isSome ↔
    ¬ (m = .negate ∧ value = Int32.minValue) ∧ ∀ startOffset, m ≠ .bitflip 32 startOffset := by
  cases m with
  | increment inc => simp [IntegerMutation.newValue]
  | negate =>
    -- the negation of the least number is no `int32_t`
    have hneg : (IntegerMutation.negate).newValue value = if value = Int32.minValue then none else some (-value) :=
      Checked.neg_eq value
    rw [hneg]
    by_cases hmin : value = Int32.minValue <;> simp [hmin]
  | bitflip maskLen startOffset =>
    by_cases hall : maskLen = 32
    · subst hall
      simp [IntegerMutation.newValue, Checked.mask_all]
    · obtain ⟨-, -, hmask⟩ := mask_of_possible hm hall
      simp [IntegerMutation.newValue, hmask, hall]

/-- **What is intended** is what the operations do, where they are defined. -/
theorem intends_newValue (hm : m.Possible) {value' : Int32} (hnew : m.newValue value = some value') :
    m.Intends value value' := by
  cases m with
  | increment inc =>
    cases hnew
    obtain ⟨hmin, hmax⟩ : -10 ≤ inc ∧ inc ≤ 10 := hm
    show (value + Int32.ofInt inc).toInt ≡ value.toInt + inc [ZMOD 2 ^ 32]
    rw [Int32.toInt_add, Int32.toInt_ofInt_of_le (by omega) (by omega)]
    exact Int.bmod_emod
  | negate =>
    have hneg : (if value = Int32.minValue then none else some (-value)) = some value' :=
      (Checked.neg_eq value).symm.trans hnew
    split at hneg
    · cases hneg
    · cases hneg
      show (-value).toInt ≡ -value.toInt [ZMOD 2 ^ 32]
      rw [Int32.toInt_neg]
      exact Int.bmod_emod
  | bitflip maskLen startOffset =>
    by_cases hall : maskLen = 32
    · subst hall
      cases hnew
    obtain ⟨hlt, hstart, hmask⟩ := mask_of_possible hm hall
    have hvalue : ∀ v, (IntegerMutation.bitflip maskLen startOffset).newValue v =
        some (v ^^^ Int32.ofInt ((2 ^ maskLen - 1) * 2 ^ startOffset)) := by
      intro v
      simp [IntegerMutation.newValue, hmask]
    rw [hvalue] at hnew
    cases hnew
    refine ⟨fun i hi => Checked.bit_xor_mask value hi, fun hsame => ?_, ?_⟩
    · -- the first bit of the mask is another one
      have hbit := congrArg (Checked.bit · startOffset) hsame
      simp only [Checked.bit_xor_mask value hstart, Nat.le_refl, hlt, and_self, decide_true, Bool.xor_true] at hbit
      cases hb : Checked.bit value startOffset <;> simp [hb] at hbit
    · rw [hvalue]
      refine congrArg some (Checked.ext_bit fun i hi => ?_)
      rw [Checked.bit_xor_mask _ hi, Checked.bit_xor_mask _ hi, Bool.xor_assoc, Bool.xor_self, Bool.xor_false]

/-! ## The operators -/

/-- The operator of index `k`. -/
def integerMutator (k : ℕ) : Int32 → FuzzM Addr :=
  [TestCaseMutator.incrementInteger, TestCaseMutator.negateInteger, TestCaseMutator.bitflip].getD k
    TestCaseMutator.negateInteger

theorem mutateInteger_run (value : Int32) (s : Fuzzer) : TestCaseMutator.mutateInteger value s =
    integerMutator (s.rnd 0 % 3) value { s with rnd := fun n => s.rnd (n + 1) } := by
  unfold TestCaseMutator.mutateInteger
  show (select ([_, _, _] : List (Int32 → FuzzM Addr)) s >>= fun p => p.1 value p.2) = _
  rw [select_eq (by simp) TestCaseMutator.negateInteger]
  rfl

/-- A number that is defined does not depend on what is drawn. -/
theorem give_defined {o : Option Int32} {value' : Int32} (ho : o = some value') (s : Fuzzer) :
    (TestCaseMutator.orUndefined o >>= fun v => givePool (·.getOrCreateIntegerValue v)) s =
      givePool (·.getOrCreateIntegerValue value') s := by
  rw [ho]
  rfl

/-- **The operator that is drawn** gives the pool the new value, where it is defined. -/
theorem mutateInteger_eq {value' : Int32} (hnew : (IntegerMutation.drawn s.rnd).newValue value = some value') :
    ∃ rnd, TestCaseMutator.mutateInteger value s =
      givePool (·.getOrCreateIntegerValue value') { s with rnd := rnd } := by
  have hpossible : (IntegerMutation.drawn s.rnd).Possible := possible_iff.2 ⟨s.rnd, rfl⟩
  have hlt : s.rnd 0 % 3 < 3 := Nat.mod_lt _ (by decide)
  rw [mutateInteger_run]
  rcases hk : s.rnd 0 % 3 with - | - | k
  · -- the increment
    have hdrawn : IntegerMutation.drawn s.rnd = .increment (-integerMaxIncrement + (s.rnd 1 % 21 : ℕ)) := by
      unfold IntegerMutation.drawn
      rw [hk]
      rfl
    rw [hdrawn] at hnew
    cases hnew
    exact ⟨_, rfl⟩
  · -- the negation
    have hdrawn : IntegerMutation.drawn s.rnd = .negate := by
      unfold IntegerMutation.drawn
      rw [hk]
      rfl
    rw [hdrawn] at hnew
    exact ⟨_, give_defined ((negated_eq value).trans hnew) _⟩
  · -- the flip
    obtain rfl : k = 0 := by omega
    have hdrawn : IntegerMutation.drawn s.rnd = .bitflip (maskLengths.getD (s.rnd 1 % 6) 0)
        (s.rnd 2 % (bitLength - maskLengths.getD (s.rnd 1 % 6) 0 + 1)) := by
      unfold IntegerMutation.drawn
      rw [hk]
      rfl
    rw [hdrawn] at hnew hpossible
    -- three numbers are drawn: the operator, the length of the mask and where it starts
    refine ⟨fun n => s.rnd (n + 3), ?_⟩
    show TestCaseMutator.bitflip value { s with rnd := fun n => s.rnd (n + 1) } = _
    unfold TestCaseMutator.bitflip
    show (select maskLengths { s with rnd := fun n => s.rnd (n + 1) } >>= fun p =>
      (next 0 (bitLength - p.1) >>= fun o =>
      (TestCaseMutator.orUndefined (bitflipped value p.1 o) >>= fun v =>
        givePool (·.getOrCreateIntegerValue v))) p.2) = _
    rw [select_eq (by decide) 0]
    show (next 0 (bitLength - maskLengths.getD (s.rnd 1 % 6) 0) { s with rnd := fun n => s.rnd (n + 2) } >>= fun p =>
      (TestCaseMutator.orUndefined (bitflipped value (maskLengths.getD (s.rnd 1 % 6) 0) p.1) >>= fun v =>
        givePool (·.getOrCreateIntegerValue v)) p.2) = _
    rw [next_eq (Nat.zero_le _), Nat.zero_add]
    exact give_defined ((bitflipped_eq hpossible.1 hpossible.2).trans hnew) _

/-- **Integers are mutated as intended** unless the least number is negated or all bits are to be flipped. -/
theorem mutatesInteger_iff (hpool : s.pool.InMemory) : MutatesInteger value s ↔
    ¬ (IntegerMutation.drawn s.rnd = .negate ∧ value = Int32.minValue) ∧
      ∀ startOffset, IntegerMutation.drawn s.rnd ≠ .bitflip 32 startOffset := by
  have hm : (IntegerMutation.drawn s.rnd).Possible := possible_iff.2 ⟨s.rnd, rfl⟩
  rw [← newValue_isSome_iff hm, Option.isSome_iff_exists]
  constructor
  · rintro ⟨value', -, -, hnew, -⟩
    exact ⟨value', hnew⟩
  · rintro ⟨value', hnew⟩
    obtain ⟨rnd, hrun⟩ := mutateInteger_eq hnew
    have hgives := ObjectPool.getOrCreateIntegerValue_gives hpool.ready.ok value'
    exact ⟨value', _, _, hnew, intends_newValue hm hnew, hrun, hgives.get⟩

/-- Five is incremented by ten less. -/
theorem five_mutatesInteger : MutatesInteger 5 ⟨.new, fun _ => 0⟩ := by
  refine (mutatesInteger_iff (s := ⟨.new, fun _ => 0⟩) .new).2 ⟨?_, ?_⟩
  · rintro ⟨hnegate, -⟩
    cases hnegate
  · intro startOffset hflip
    cases hflip

/-- The least number is negated, and all bits of the number one are flipped. -/
theorem undefined_integers : ¬ MutatesInteger Int32.minValue ⟨.new, fun _ => 1⟩ ∧
    ¬ MutatesInteger 1 ⟨.new, fun n => if n = 0 then 2 else 5⟩ := by
  constructor
  · rintro ⟨value', -, -, hnew, -⟩
    have hnone : (IntegerMutation.drawn fun _ => 1).newValue Int32.minValue = none := rfl
    rw [hnone] at hnew
    cases hnew
  · rintro ⟨value', -, -, hnew, -⟩
    have hnone : (IntegerMutation.drawn fun n => if n = 0 then 2 else 5).newValue 1 = none := rfl
    rw [hnone] at hnew
    cases hnew

end Caf
