import Caf.Bytes.Checked
import Caf.Spec.Mutator

/-!
# Mutated integers

What `MutateInteger` draws, what the operations of the language make of it, and what is intended.

* `IntegerMutation.newValue`: the new value, if it is defined.
* `MutatesInteger`: it is defined, it is the intended one, and it is what the pool is asked for.
-/

namespace Caf

/-- An operator of `MutateInteger`, with what it draws. -/
inductive IntegerMutation where
  | increment (inc : Int)
  | negate
  | bitflip (maskLen startOffset : ℕ)
  deriving DecidableEq

namespace IntegerMutation

/-- What can be drawn. -/
def Possible : IntegerMutation → Prop
  | increment inc => -integerMaxIncrement ≤ inc ∧ inc ≤ integerMaxIncrement
  | negate => True
  | bitflip maskLen startOffset => maskLen ∈ maskLengths ∧ startOffset ≤ bitLength - maskLen

/-- What is drawn from these raw numbers. -/
def drawn (rnd : ℕ → ℕ) : IntegerMutation :=
  match rnd 0 % 3 with
  | 0 => increment (-integerMaxIncrement + (rnd 1 % 21 : ℕ))
  | 1 => negate
  | _ =>
    let maskLen := maskLengths.getD (rnd 1 % 6) 0
    bitflip maskLen (rnd 2 % (bitLength - maskLen + 1))

/-- The new value, as far as the language defines it. The increment is added to an unsigned number. -/
def newValue : IntegerMutation → Int32 → Option Int32
  | increment inc, value => some (value + Int32.ofInt inc)
  | negate, value => Checked.neg value
  | bitflip maskLen startOffset, value => (Checked.mask maskLen startOffset).map (value ^^^ ·)

/-- **What the new value should be**: the sum or the negation modulo 2³², or the number with exactly the bits of the
mask inverted, which is another number and becomes the old one again. -/
def Intends : IntegerMutation → Int32 → Int32 → Prop
  | increment inc, value, value' => value'.toInt ≡ value.toInt + inc [ZMOD 2 ^ 32]
  | negate, value, value' => value'.toInt ≡ -value.toInt [ZMOD 2 ^ 32]
  | bitflip maskLen startOffset, value, value' =>
    (∀ i < 32, Checked.bit value' i =
      (Checked.bit value i ^^ decide (startOffset ≤ i ∧ i < startOffset + maskLen))) ∧
    value' ≠ value ∧ (bitflip maskLen startOffset).newValue value' = some value

end IntegerMutation

/-- **The integer is mutated as intended**, with the random numbers of `s`, and nothing on the way is undefined. -/
def MutatesInteger (value : Int32) (s : Fuzzer) : Prop :=
  ∃ value' a s', (IntegerMutation.drawn s.rnd).newValue value = some value' ∧
    (IntegerMutation.drawn s.rnd).Intends value value' ∧
    TestCaseMutator.mutateInteger value s = .ok (a, s') ∧ s'.heap[a]? = some (.literal (.integer value'))

end Caf
