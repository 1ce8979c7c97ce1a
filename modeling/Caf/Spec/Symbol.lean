import Caf.Bytes.Components
import Caf.Spec.Value

/-!
# Symbol names

The driver of the LLVM pass takes demangled names apart: `QualifiedName` holds the components of a name, `removeArgs`
removes arguments from one, and a constructor is a function whose last two components have one name.

* `SplitsAtSeparators`: what the components should be.
* `memberName`: the names of members of a class.
-/

namespace Caf.Symbol

/-! ## `removeArgs` -/

/-- From the end of the name to its start, up to where the brackets are closed. -/
def matchBack (counter : ℤ) : StdString → Option StdString
  | [] => none
  | ch :: rest =>
    let counter :=
      if ch = 41 ∨ ch = 62 then counter + 1
      else if ch = 40 ∨ ch = 60 then counter - 1
      else counter
    if counter = 0 then some rest.reverse else matchBack counter rest

/-- `removeArgs`. -/
def removeArgs (name : StdString) : StdString :=
  match name.getLast? with
  | none => []
  | some back => if back ≠ 41 ∧ back ≠ 62 then name else (matchBack 0 name.reverse).getD name

/-! ## `QualifiedName` -/

/-- `static_cast<int>(name.length())`, if the length is an `int`. Otherwise the result is up to the compiler. -/
def intLength (name : StdString) : Option ℕ := if name.length < 2 ^ 31 then some name.length else none

/-- The sum of two numbers, if it is an `int`. -/
def intAdd (a b : ℕ) : Option ℕ := if a + b < 2 ^ 31 then some (a + b) else none

/-- How a character changes `bracketDepth`. The source tests for `)` twice. -/
def depthStep (curr : UInt8) : ℤ :=
  if curr = 40 ∨ curr = 60 ∨ curr = 91 ∨ curr = 123 then 1
  else if curr = 41 ∨ curr = 62 ∨ curr = 93 ∨ curr = 41 then -1
  else 0

/-- The inner loop of `load`, in at most `fuel` turns: where `right` stops. -/
def scan (name : StdString) : ℕ → ℤ → ℕ → Option ℕ
  | 0, _, _ => none
  | fuel + 1, bracketDepth, right => do
    let length ← intLength name
    if right < length then
      if right + 1 < length ∧ bracketDepth = 0 ∧ name[right]? = some 58 ∧ name[right + 1]? = some 58 then return right
      else
        let curr ← name[right]?
        scan name fuel (bracketDepth + depthStep curr) (right + 1)
    else return right

/-- The turns of the outer loop from `left` on. -/
def loadFrom (name : StdString) (fuel : ℕ) : ℕ → ℕ → Option (List StdString)
  | 0, _ => none
  | turns + 1, left => do
    let length ← intLength name
    if left < length then
      let right ← scan name fuel 0 left
      let rest ← loadFrom name fuel turns (← intAdd right 2)
      return (name.drop left).take (right - left) :: rest
    else return []

/-- `load`: the components, if all operations on the way are defined and `fuel` turns are enough for each loop. -/
def load (fuel : ℕ) (name : StdString) : Option (List StdString) := loadFrom name fuel fuel 0

/-- `operator[]`. -/
def component (components : List StdString) (index : ℤ) : Option StdString :=
  if 0 ≤ index then components[index.toNat]? else components[(components.length + index).toNat]?

/-- `isConstructor`, of the demangled name. -/
def isConstructor (fuel : ℕ) (name : StdString) : Option Bool := do
  let name ← load fuel name
  if name.length < 2 then return false
  else
    let funcNameWithoutArgs := removeArgs (← component name (-1))
    let classNameWithoutArgs := removeArgs (← component name (-2))
    return funcNameWithoutArgs == classNameWithoutArgs

/-! ## Brackets -/

inductive Bracket where
  | round | angle | square | curly

def Bracket.opening : Bracket → UInt8
  | round => 40
  | angle => 60
  | square => 91
  | curly => 123

def Bracket.closing : Bracket → UInt8
  | round => 41
  | angle => 62
  | square => 93
  | curly => 125

/-- How many brackets of a kind a text opens and does not close. -/
def excess (k : Bracket) (s : StdString) : ℤ := s.count k.opening - s.count k.closing

/-- All brackets are closed, so what follows is outside of them. -/
def Outside (s : StdString) : Prop := ∀ k, excess k s = 0

/-- No bracket is closed before it is opened. -/
def Nested (s : StdString) : Prop := ∀ k front, front <+: s → 0 ≤ excess k front

/-- The brackets of each kind are balanced. -/
structure Balanced (s : StdString) : Prop where
  nested : Nested s
  outside : Outside s

section Decidability

variable {s : StdString}

instance decidableForallBracket {p : Bracket → Prop} [DecidablePred p] : Decidable (∀ k, p k) :=
  decidable_of_iff (p .round ∧ p .angle ∧ p .square ∧ p .curly)
    ⟨fun ⟨h₁, h₂, h₃, h₄⟩ k => match k with
      | .round => h₁
      | .angle => h₂
      | .square => h₃
      | .curly => h₄, fun h => ⟨h _, h _, h _, h _⟩⟩

instance decidableNested : Decidable (Nested s) :=
  decidable_of_iff (∀ k, ∀ front ∈ s.inits, 0 ≤ excess k front)
    (forall_congr' fun _ => forall_congr' fun front => imp_congr (List.mem_inits front s) Iff.rfl)

instance decidableOutside : Decidable (Outside s) := inferInstanceAs (Decidable (∀ k, excess k s = 0))

instance decidableBalanced : Decidable (Balanced s) :=
  decidable_of_iff (Nested s ∧ Outside s) ⟨fun h => ⟨h.1, h.2⟩, fun h => ⟨h.1, h.2⟩⟩

end Decidability

/-! ## What it is for -/

/-- The components are what one gets by cutting the name at the `::` that lie outside all brackets. -/
def SplitsAtSeparators (name : StdString) : Prop :=
  ∃ components turns, (∀ fuel ≥ turns, load fuel name = some components) ∧
    Components.Cut 58 Outside name components ∧ [58, 58].intercalate components = name

/-- The answer of `isConstructor`. -/
def Answers (name : StdString) (answer : Bool) : Prop := ∃ turns, ∀ fuel ≥ turns, isConstructor fuel name = some answer

/-- A name without brackets and colons. -/
structure PlainIdentifier (c : StdString) : Prop where
  ne_nil : c ≠ []
  colon : 58 ∉ c
  bracket : ∀ k : Bracket, k.opening ∉ c ∧ k.closing ∉ c

/-- Nothing, or a list of template arguments. -/
def TemplateArgs (a : StdString) : Prop := a = [] ∨ ∃ inner, Balanced inner ∧ a = 60 :: (inner ++ [62])

/-- A list of parameters. -/
def ParameterList (p : StdString) : Prop := ∃ inner, Balanced inner ∧ p = 40 :: (inner ++ [41])

/-- A qualified name in front of another component. -/
structure Scope (n : StdString) : Prop where
  balanced : Balanced n
  colon : n.getLast? ≠ some 58

/-- The name `N::C A₁::D A₂ P`, where `N::` may be left out. -/
def memberName (scope : Option StdString) (c a₁ d a₂ p : StdString) : StdString :=
  scope.elim [] (· ++ [58, 58]) ++ (c ++ a₁ ++ [58, 58] ++ (d ++ a₂ ++ p))

end Caf.Symbol
