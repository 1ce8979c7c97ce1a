import Mathlib.Data.Set.Finite.Basic
import Caf.Graph.Search
import Caf.Spec.Store

/-!
# API extraction

`findFunctions` of `ExtractAPI.js` searches the objects that can be reached from the global object for functions, and
names each by the path to it. A name is the list of its bytes, as in the API store; values are taken up to the equality
of `Set`, which is `SameValueZero`.
-/

namespace Caf

/-- The values of a JavaScript heap, and what can be asked of them. `read` gives nothing when the read throws. -/
structure PropertyGraph (V : Type) where
  ownPropertyNames : V → List StdString
  read : V → StdString → Option V
  isNullish : V → Bool
  isFunction : V → Bool
  nullish_names : ∀ v, isNullish v = true → ownPropertyNames v = []
  nullish_function : ∀ v, isNullish v = true → isFunction v = false

structure FunctionInfo (V : Type) where
  id : ℕ
  name : StdString
  func : V

/-- The variables of `findFunctions`. -/
structure Finder (V : Type) where
  funcs : List (FunctionInfo V)
  queue : List (StdString × V)
  visited : List V
  id : ℕ

def excludedProperties : List StdString := [text "caller", text "callee", text "arguments"]
def cafNames : List StdString := [text "caf", text "CAFFuzzer"]

variable {V : Type} [DecidableEq V]

namespace PropertyGraph

variable (g : PropertyGraph V)

/-- The inner loop, for a property of `obj`. -/
def visitProperty (path : StdString) (obj : V) (s : Finder V) (name : StdString) : Finder V :=
  if excludedProperties.contains name then s
  else if cafNames.contains name then s
  else
    match g.read obj name with
    | none => s
    | some children =>
      if g.isNullish children then s
      else if children ∈ s.visited then s
      else
        let childrenPath := if 0 < path.length then path ++ [separator] else path
        { s with
          queue := s.queue ++ [(childrenPath ++ name, children)]
          visited := s.visited ++ [children] }

/-- A turn of the outer loop, after the `shift`. -/
def visitObject (path : StdString) (obj : V) (s : Finder V) : Finder V :=
  if g.isNullish obj then s
  else
    let s := if g.isFunction obj then { s with funcs := s.funcs ++ [⟨s.id, path, obj⟩], id := s.id + 1 } else s
    (g.ownPropertyNames obj).foldl (g.visitProperty path obj) s

/-- The outer loop. The number bounds its turns. -/
def loop : ℕ → Finder V → Option (List (FunctionInfo V))
  | turns, s =>
    match s.queue with
    | [] => some s.funcs
    | (path, obj) :: queue =>
      match turns with
      | 0 => none
      | turns + 1 => loop turns (g.visitObject path obj { s with queue := queue })

/-- `findFunctions.apply(global)`. -/
def findFunctions (global : V) (turns : ℕ) : Option (List (FunctionInfo V)) :=
  g.loop turns ⟨[], [([], global)], [global], 0⟩

end PropertyGraph

/-! ## What should be found -/

namespace PropertyGraph

variable (g : PropertyGraph V)

def Excluded (name : StdString) : Prop := name ∈ excludedProperties ∨ name ∈ cafNames

omit [DecidableEq V]

/-- A property of `u` that is not excluded, whose read does not throw, has the value `v`. -/
def Step (u v : V) : Prop := ∃ name ∈ g.ownPropertyNames u, ¬ Excluded name ∧ g.read u name = some v

def ReachesIn : ℕ → V → V → Prop
  | 0, u, v => u = v
  | n + 1, u, v => ∃ w, g.Step u w ∧ ReachesIn n w v

def Reachable (u v : V) : Prop := ∃ n, g.ReachesIn n u v

/-- The number of steps on a shortest path. -/
def Distance (u v : V) (n : ℕ) : Prop := g.ReachesIn n u v ∧ ∀ m, g.ReachesIn m u v → n ≤ m

/-- **Every function once**, with the ids in order, and the nearer ones first. -/
structure FindsEach (global : V) (funcs : List (FunctionInfo V)) : Prop where
  nodup : (funcs.map (·.func)).Nodup
  mem_iff : ∀ v, v ∈ funcs.map (·.func) ↔ g.isFunction v = true ∧ g.Reachable global v
  ids : funcs.map (·.id) = List.range funcs.length
  ordered : funcs.Pairwise fun f f' => ∀ m n, g.Distance global f.func m → g.Distance global f'.func n → m ≤ n

/-! ## What the names should say -/

/-- Follow own properties. -/
def follow : List StdString → V → Option V
  | [], v => some v
  | name :: rest, v => if name ∈ g.ownPropertyNames v then (g.read v name).bind (follow rest) else none

/-- The entry of the API store that holds an id. -/
def entryOf (s : CAFStore) (id : ℕ) : Option ℕ := s.funcIdToEntry.lookup (UInt32.ofNat id)

/-- **The names identify the functions**: cut at the dots they lead to them, and so they do in the way that the store
takes them apart, where those that are kept get entries of their own. -/
structure NamesIdentify (global : V) (funcs : List (FunctionInfo V)) : Prop where
  nodup : (funcs.map (·.name)).Nodup
  resolves : ∀ f ∈ funcs, g.follow (f.name.splitOn separator) global = some f.func
  loaded : ∀ f ∈ funcs, g.follow (components f.name) global = some f.func
  entries : ∀ kept : List (FunctionInfo V), kept.Sublist funcs → kept.length ≤ 2 ^ 32 →
    ∀ i j, i < j → j < kept.length →
    ∃ e e', entryOf (CAFStore.load (kept.map (·.name)) .new) i = some e ∧
      entryOf (CAFStore.load (kept.map (·.name)) .new) j = some e' ∧ e ≠ e'

/-- The properties that the search follows, with their values. -/
def properties (obj : V) : List (StdString × V) :=
  (g.ownPropertyNames obj).filterMap fun name =>
    if excludedProperties.contains name then none
    else if cafNames.contains name then none
    else
      match g.read obj name with
      | none => none
      | some children => if g.isNullish children then none else some (name, children)

/-- The values of these properties. -/
def next (obj : V) : List V := (g.properties obj).map Prod.snd

/-- The names on a path. -/
def namesOn : List ℕ → V → List StdString
  | [], _ => []
  | i :: p, v =>
    match (g.properties v)[i]? with
    | none => []
    | some (name, w) => name :: namesOn p w

/-- The names, without those that are empty at the start, cut at their dots. -/
def cut (names : List StdString) : List StdString :=
  if names.all (·.isEmpty) then [[]] else (names.dropWhile (·.isEmpty)).flatMap (·.splitOn separator)

/-- The names without the last one, if that is empty. -/
def withoutLastEmpty (names : List StdString) : List StdString :=
  if names.getLast? = some [] then names.dropLast else names

/-- **Cutting does not lead astray**: the names on the first of the shortest paths to a function, cut at their dots,
lead to the function too, with or without an empty one at the end. -/
def CutRight (global : V) : Prop :=
  ∀ v p, g.isFunction v = true → BreadthFirst.Earliest g.next global v p →
    g.follow (cut (g.namesOn p global)) global = some v ∧
      g.follow (withoutLastEmpty (cut (g.namesOn p global))) global = some v

end PropertyGraph

end Caf
