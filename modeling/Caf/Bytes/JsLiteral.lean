import Mathlib.Tactic.Common

/-!
# String literals of JavaScript

Single-quoted string literals in ASCII text, as ECMAScript reads them: a literal is a sequence of code units. Octal
escapes, Unicode escapes and line continuations are not read.

* `readBody_plain`, `readBody_escape`, `readBody_hex`: one character of a literal.
-/

namespace JsLiteral

/-- The value of a hexadecimal digit. -/
def hexDigit? (c : UInt8) : Option ℕ :=
  if 48 ≤ c ∧ c ≤ 57 then some (c.toNat - 48)
  else if 97 ≤ c ∧ c ≤ 102 then some (c.toNat - 87)
  else if 65 ≤ c ∧ c ≤ 70 then some (c.toNat - 55)
  else none

/-- A character that stands for itself: no quote, no backslash and no line terminator. -/
def isPlain (c : UInt8) : Bool := c < 128 && c != 39 && c != 92 && c != 10 && c != 13

/-- The code unit that a character stands for after a backslash. Digits, `x` and `u` begin longer escapes, and line
terminators continue the line. -/
def escaped? (c : UInt8) : Option UInt16 :=
  if c = 98 then some 8
  else if c = 102 then some 12
  else if c = 110 then some 10
  else if c = 114 then some 13
  else if c = 116 then some 9
  else if c = 118 then some 11
  else if c = 39 ∨ c = 92 ∨ isPlain c ∧ c ≠ 120 ∧ c ≠ 117 ∧ ¬ (48 ≤ c ∧ c ≤ 57) then some c.toUInt16
  else none

/-- The code units up to the quote that ends the literal, and the text after it. -/
def readBody : List UInt8 → Option (List UInt16 × List UInt8)
  | [] => none
  | 39 :: rest => some ([], rest)
  | 92 :: 120 :: high :: low :: rest => do
    let unit := 16 * (← hexDigit? high) + (← hexDigit? low)
    let (units, rest) ← readBody rest
    return (UInt16.ofNat unit :: units, rest)
  | 92 :: c :: rest => do
    let unit ← escaped? c
    let (units, rest) ← readBody rest
    return (unit :: units, rest)
  | c :: rest =>
    if isPlain c then do
      let (units, rest) ← readBody rest
      return (c.toUInt16 :: units, rest)
    else none

/-- The value of a text that is one single-quoted literal and nothing else. -/
def value? : List UInt8 → Option (List UInt16)
  | 39 :: rest =>
    match readBody rest with
    | some (units, []) => some units
    | _ => none
  | _ => none

variable {c high low : UInt8} {unit : UInt16} {m n : ℕ} {rest : List UInt8}

/-- A character that stands for itself. -/
theorem readBody_plain (hc : isPlain c = true) :
    readBody (c :: rest) = (readBody rest).map fun r => (c.toUInt16 :: r.1, r.2) := by
  have hquote : c ≠ 39 := by
    rintro rfl
    cases hc
  have hbackslash : c ≠ 92 := by
    rintro rfl
    cases hc
  rw [readBody, if_pos hc]
  · rcases readBody rest with - | ⟨units, rest⟩ <;> rfl
  · exact hquote
  · intro high low rest' h _
    exact hbackslash h
  · intro d rest' h _
    exact hbackslash h

/-- A character after a backslash. -/
theorem readBody_escape (hc : escaped? c = some unit) :
    readBody (92 :: c :: rest) = (readBody rest).map fun r => (unit :: r.1, r.2) := by
  have hx : c ≠ 120 := by
    rintro rfl
    cases hc
  rw [readBody, hc]
  · rcases readBody rest with - | ⟨units, rest⟩ <;> rfl
  · intro high low rest' h _
    exact hx h

/-- A character by its number. -/
theorem readBody_hex (hhigh : hexDigit? high = some m) (hlow : hexDigit? low = some n) :
    readBody (92 :: 120 :: high :: low :: rest) =
      (readBody rest).map fun r => (UInt16.ofNat (16 * m + n) :: r.1, r.2) := by
  rw [readBody, hhigh, hlow]
  rcases readBody rest with - | ⟨units, rest⟩ <;> rfl

end JsLiteral
