import Caf.Bytes.Quoted
import Caf.Spec.Dumper

/-!
# Quoted strings

What the dumper's texts for strings should be: different for different strings, and closed by their last character.
-/

namespace Caf

open Quoted

/-- What `DumpValue` prints for a string value, behind its type and a space. -/
def PrintsQuoted (s q : StdString) : Prop :=
  ∀ (store : CAFStore) (formatDouble : Double → StdString) (demangle : Option (StdString → Option StdString))
    (d : TestCaseDumper), d.dumpLiteral store formatDouble demangle (.string s) =
      .ok (((d.printWithColor valueTypeColor (text "String")).print (text " ")).print q)

/-- The texts for two strings differ, and each ends at its closing quote. -/
def Unambiguous (a b : StdString) : Prop :=
  ∃ p q, PrintsQuoted a p ∧ PrintsQuoted b q ∧ p ≠ q ∧ ClosesAtEnd p ∧ ClosesAtEnd q

/-! ## Escapes that a string spells out -/

/-- The value of a lower-case hexadecimal digit. -/
def lowerHexDigit? (c : UInt8) : Option ℕ :=
  if 48 ≤ c ∧ c ≤ 57 then some (c.toNat - 48)
  else if 97 ≤ c ∧ c ≤ 102 then some (c.toNat - 87)
  else none

/-- The character with this number, if it is not printable and has no name of its own. -/
def numberedChar? (high low : UInt8) : Option UInt8 := do
  let c := UInt8.ofNat (16 * (← lowerHexDigit? high) + (← lowerHexDigit? low))
  if isprint c ∨ c = 10 ∨ c = 9 ∨ c = 13 then none else some c

/-- The character that is named behind a backslash, and the length of its name. -/
def namedChar? : StdString → Option (UInt8 × ℕ)
  | [] => none
  | c :: rest =>
    if c = 110 then some (10, 1)
    else if c = 116 then some (9, 1)
    else if c = 114 then some (13, 1)
    else if c = 120 then
      match rest with
      | high :: low :: _ => (numberedChar? high low).map (·, 3)
      | _ => none
    else none

/-- A string up to its first NUL, with the characters that are not printable in place of their names. -/
def unspelled (s : StdString) : StdString := unescape namedChar? (cStr s)

end Caf
