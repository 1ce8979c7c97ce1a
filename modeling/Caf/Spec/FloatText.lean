import Caf.Bytes.Floating
import Caf.Bytes.Numeral
import Caf.Spec.JavaScript

/-!
# Float literals

A double as the number that it stands for, the default format of `std::ostream`, which is `%g` with six significant
digits, and what a float literal should say.
-/

namespace Caf

open Floating

namespace Double

def IsFinite (x : Double) : Prop := x.magnitude < 0x7ff0000000000000

/-- The number that the bits stand for. An infinity gets `2 ^ 1024`, the number that rounding takes it for. -/
def toRat (x : Double) : ℚ := (if x.signBit then -1 else 1) * value 52 (-1074) x.magnitude

/-- A finite number as `operator<<` writes it. -/
def numeral (x : Double) : Numeral :=
  let (D, X) := scientific 6 (value 52 (-1074) x.magnitude)
  Numeral.general 6 x.signBit D X

def ostreamText (x : Double) : StdString := x.numeral.text

/-- **`x` is the closest double to `d`.** -/
def Closest (x : Double) (d : ℚ) : Prop :=
  ∀ y : Double, y.isNaN = false → y.toRat ≠ x.toRat → |d - x.toRat| < |d - y.toRat|

/-- A decimal of at most six significant digits tells `x` from the other doubles. -/
def SixDigits (x : Double) : Prop := ∃ d, Significant 6 d ∧ x.Closest d

end Double

/-- The literal that is written for a float value. -/
def floatLiteral (store : CAFStore) (x : Double) : Except Error StdString :=
  writeLiteralValue store Double.ostreamText (.float x)

/-- **The literal denotes `x`**: it is a decimal literal, and `x` is the closest double to its number. -/
def DenotesClosest (store : CAFStore) (x : Double) : Prop :=
  ∃ t n, floatLiteral store x = .ok t ∧ Numeral.read t = some n ∧ x.Closest n.toRat

end Caf
