import Caf.Run.InStep
import Caf.Spec.Value
import Mathlib.Logic.Function.Basic

/-!
# Optional values

An `Optional` is raw storage, in which there may be an object of the type of the values, and a flag. The operations
construct and destroy objects in the storage, so what they read of another `Optional`, or of the same one, depends on
their order.

* `OptionalOp.apply`: what an operation does to the objects.
* `OptionalOp.means`: what it means for the options that they stand for.
* `BehavesAsOption`: the two agree.
-/

namespace Caf

/-- What is used of the type of the values. -/
structure ValueType (T A : Type) where
  /-- The constructors, of arguments of other types and objects of this type. -/
  construct : List (A ⊕ T) → T
  /-- What stays behind when the value is moved out of an object. -/
  movedFrom : T → T
  /-- The destructor does nothing. -/
  trivialDestructor : Bool
  /-- To construct a value from another one, by copying or moving, is to make an equal one. -/
  construct_object : ∀ v, construct [.inr v] = v

/-- The members of an `Optional`: `_value`, which holds an object or not, and `_hasValue`. -/
structure Optional (T : Type) where
  storage : Option T
  hasValue : Bool

/-- What `value()` refers to, if it is read: an object in the storage. -/
def Optional.value {T : Type} (o : Optional T) : Except Error T :=
  match o.storage with
  | some v => .ok v
  | none => .error .badPointer

/-- The objects that exist, by name. -/
abbrev Optionals (Id T : Type) : Type := Id → Option (Optional T)

/-- An argument that is passed on to a constructor of the type of the values. -/
inductive Arg (Id T A : Type) where
  | other (x : A)
  | object (v : T)
  /-- The reference that `value()` returns. -/
  | contained (another : Id)

/-- An operation on the objects. A parameter of type `T` is constructed from `args`. -/
inductive OptionalOp (Id T A : Type) where
  | construct (this : Id)
  | constructValue (this : Id) (args : List (Arg Id T A))
  | copyConstruct (this another : Id)
  | moveConstruct (this another : Id)
  | destroy (this : Id)
  | copyAssign (this another : Id)
  | moveAssign (this another : Id)
  | emplace (this : Id) (args : List (Arg Id T A))
  | set (this : Id) (args : List (Arg Id T A))
  | drain (this : Id)
  | take (this : Id)

variable {Id T A : Type} [DecidableEq Id] (ty : ValueType T A)

/-! ## The operations -/

namespace Optionals

def empty : Optionals Id T := fun _ => none

def store (s : Optionals Id T) (this : Id) (o : Optional T) : Optionals Id T := Function.update s this (some o)

def object (s : Optionals Id T) (this : Id) : Except Error (Optional T) :=
  match s this with
  | some o => .ok o
  | none => .error .badPointer

def hasValue (s : Optionals Id T) (this : Id) : Except Error Bool := do
  return (← s.object this).hasValue

def value (s : Optionals Id T) (this : Id) : Except Error T := do
  (← s.object this).value

/-- An argument, when it is read. -/
def read (s : Optionals Id T) : Arg Id T A → Except Error (A ⊕ T)
  | .other x => return .inl x
  | .object v => return .inr v
  | .contained another => return .inr (← s.value another)

/-- `new(p) T(args...)`. -/
def constructed (s : Optionals Id T) (args : List (Arg Id T A)) : Except Error T := do
  return ty.construct (← args.mapM s.read)

/-- `drain`. What a destructor leaves in the storage can only be read if the destructor does nothing. -/
def drain (s : Optionals Id T) (this : Id) : Except Error (Optionals Id T) := do
  let o ← s.object this
  if o.hasValue then
    let v ← o.value
    return s.store this ⟨if ty.trivialDestructor then some v else none, false⟩
  else return s

/-- `emplace`. -/
def emplace (s : Optionals Id T) (this : Id) (args : List (Arg Id T A)) : Except Error (Optionals Id T) := do
  let s ← s.drain ty this
  return s.store this ⟨some (← s.constructed ty args), true⟩

/-- `take`. -/
def take (s : Optionals Id T) (this : Id) : Except Error (T × Optionals Id T) := do
  let o ← s.object this
  if o.hasValue then
    let ret ← o.value
    return (ret, s.store this ⟨some (ty.movedFrom ret), false⟩)
  else throw .assertion

/-- `set`, with a parameter that has been constructed. -/
def set (s : Optionals Id T) (this : Id) (value : T) : Except Error (Optionals Id T) :=
  s.emplace ty this [.object value]

/-- A new object with `_hasValue(false)`, as all constructors begin. -/
def new (s : Optionals Id T) (this : Id) : Except Error (Optionals Id T) :=
  match s this with
  | some _ => throw .badPointer
  | none => return s.store this ⟨none, false⟩

/-- `Optional(T value)`. -/
def constructValue (s : Optionals Id T) (this : Id) (value : T) : Except Error (Optionals Id T) := do
  (← s.new this).emplace ty this [.object value]

/-- How the copy constructor and the copy assignment end. -/
def copyFrom (s : Optionals Id T) (this another : Id) : Except Error (Optionals Id T) := do
  if ← s.hasValue another then s.emplace ty this [.contained another] else return s

/-- How the move constructor and the move assignment end. -/
def moveFrom (s : Optionals Id T) (this another : Id) : Except Error (Optionals Id T) := do
  if ← s.hasValue another then
    let (value, s) ← s.take ty another
    s.emplace ty this [.object value]
  else return s

/-- `Optional(const Optional<T>& another)`. -/
def copyConstruct (s : Optionals Id T) (this another : Id) : Except Error (Optionals Id T) := do
  (← s.new this).copyFrom ty this another

/-- `Optional(Optional<T>&& another)`. -/
def moveConstruct (s : Optionals Id T) (this another : Id) : Except Error (Optionals Id T) := do
  (← s.new this).moveFrom ty this another

/-- `~Optional`. -/
def destroy (s : Optionals Id T) (this : Id) : Except Error (Optionals Id T) := do
  return Function.update (← s.drain ty this) this none

/-- `operator=(const Optional<T>& another)`. -/
def copyAssign (s : Optionals Id T) (this another : Id) : Except Error (Optionals Id T) := do
  (← s.drain ty this).copyFrom ty this another

/-- `operator=(Optional<T>&& another)`. -/
def moveAssign (s : Optionals Id T) (this another : Id) : Except Error (Optionals Id T) := do
  (← s.drain ty this).moveFrom ty this another

end Optionals

/-- The objects after an operation, and what `take` returns. -/
def OptionalOp.apply (s : Optionals Id T) : OptionalOp Id T A → Except Error (Optionals Id T × Option T)
  | construct this => return (← s.new this, none)
  | constructValue this args => return (← s.constructValue ty this (← s.constructed ty args), none)
  | copyConstruct this another => return (← s.copyConstruct ty this another, none)
  | moveConstruct this another => return (← s.moveConstruct ty this another, none)
  | destroy this => return (← s.destroy ty this, none)
  | copyAssign this another => return (← s.copyAssign ty this another, none)
  | moveAssign this another => return (← s.moveAssign ty this another, none)
  | emplace this args => return (← s.emplace ty this args, none)
  | set this args => return (← s.set ty this (← s.constructed ty args), none)
  | drain this => return (← s.drain ty this, none)
  | take this => do
    let (ret, s) ← s.take ty this
    return (s, some ret)

/-! ## What they mean -/

/-- The options that the objects stand for. -/
abbrev OptionMap (Id T : Type) : Type := Id → Option (Option T)

namespace OptionMap

def empty : OptionMap Id T := fun _ => none

def become (m : OptionMap Id T) (this : Id) (v : Option T) : OptionMap Id T := Function.update m this (some v)

def read (m : OptionMap Id T) : Arg Id T A → Option (A ⊕ T)
  | .other x => some (.inl x)
  | .object v => some (.inr v)
  | .contained another => (m another).join.map .inr

def constructed (m : OptionMap Id T) (args : List (Arg Id T A)) : Option T := (args.mapM m.read).map ty.construct

end OptionMap

/-- What an operation means, if the objects are there that it needs. A copy makes the target equal to the source. A move
also leaves the source empty. -/
def OptionalOp.means (m : OptionMap Id T) : OptionalOp Id T A → Option (OptionMap Id T × Option T)
  | construct this => if (m this).isNone then some (m.become this none, none) else none
  | constructValue this args =>
    if (m this).isNone then (m.constructed ty args).map fun v => (m.become this (some v), none) else none
  | copyConstruct this another =>
    if (m this).isNone then (m another).map fun v => (m.become this v, none) else none
  | moveConstruct this another =>
    if (m this).isNone then (m another).map fun v => ((m.become this v).become another none, none) else none
  | destroy this => if (m this).isSome then some (Function.update m this none, none) else none
  | copyAssign this another =>
    if (m this).isSome then (m another).map fun v => (m.become this v, none) else none
  | moveAssign this another =>
    if (m this).isSome then (m another).map fun v => ((m.become this v).become another none, none) else none
  | emplace this args =>
    if (m this).isSome then (m.constructed ty args).map fun v => (m.become this (some v), none) else none
  | set this args =>
    if (m this).isSome then (m.constructed ty args).map fun v => (m.become this (some v), none) else none
  | drain this => if (m this).isSome then some (m.become this none, none) else none
  | take this => (m this).join.map fun v => (m.become this none, some v)

/-- `hasValue()` and `value()` are those of the option. -/
structure Optional.StandsFor (o : Optional T) (v : Option T) : Prop where
  hasValue : o.hasValue = v.isSome
  value : ∀ x, v = some x → o.value = .ok x

/-- The same objects exist, and each stands for its option. -/
def Agrees (s : Optionals Id T) (m : OptionMap Id T) : Prop := ∀ this, Option.Rel Optional.StandsFor (s this) (m this)

end Caf
