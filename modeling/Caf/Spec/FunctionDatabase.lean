import Mathlib.Logic.Function.Basic
import Caf.Spec.Store

/-!
# The function database

`FunctionDatabase` resolves the names of functions, and keeps what it resolves in a trie over their components. The
property resolver is a parameter: it gives the value of a property, if an object has it.
-/

namespace Caf

/-- `FunctionDatabase::TrieNode`. A pointer to a node is its index. -/
structure TrieNode (V : Type) where
  value : V
  children : List (StdString × ℕ)

structure FunctionDatabase (V : Type) where
  nodes : List (TrieNode V)
  funcIdToNode : FunctionIdType → Option ℕ

variable {V : Type}

namespace FunctionDatabase

/-- `FunctionDatabase::FunctionDatabase`. -/
def new (global : V) : FunctionDatabase V := ⟨[⟨global, []⟩], fun _ => none⟩

/-- `node->GetChild(name)`, if there is one. -/
def getChild (db : FunctionDatabase V) (node : ℕ) (name : StdString) : Option ℕ :=
  db.nodes[node]?.bind (·.children.lookup name)

/-- `node->AddChild(name, value)`, for a name that has no child yet. -/
def addChild (db : FunctionDatabase V) (node : ℕ) (name : StdString) (value : V) : ℕ × FunctionDatabase V :=
  (db.nodes.length,
    { db with
      nodes := db.nodes.modify node (fun n => { n with children := (name, db.nodes.length) :: n.children }) ++
        [⟨value, []⟩] })

variable (resolve : V → StdString → Option V)

/-- `GetNode` from a node on, for the components that the loop has not come to. Without the property there is no
node, and `AddFunction` exits. -/
def getNode : List StdString → ℕ → FunctionDatabase V → Except Error (ℕ × FunctionDatabase V)
  | [], node, db => .ok (node, db)
  | component :: rest, node, db =>
    match db.getChild node component with
    | some child => getNode rest child db
    | none =>
      match db.nodes[node]? with
      | none => .error .badPointer
      | some n =>
        match resolve n.value component with
        | none => .error .exit
        | some prop =>
          let (child, db) := db.addChild node component prop
          getNode rest child db

/-- `AddFunction`. The loop of `GetNode` over the name is the one of the API store. -/
def addFunction (db : FunctionDatabase V) (fn : Function) : Except Error (FunctionDatabase V) := do
  let (node, db) ← getNode resolve (components fn.name) 0 db
  return { db with funcIdToNode := Function.update db.funcIdToNode fn.id (some node) }

/-- A sequence of `AddFunction` calls. -/
def addFunctions (adds : List Function) (db : FunctionDatabase V) : Except Error (FunctionDatabase V) :=
  adds.foldlM (fun db fn => db.addFunction resolve fn) db

/-- `Populate`, for one order of the functions of a store. The source leaves the order open. -/
def populate (order : List Function) (db : FunctionDatabase V) : Except Error (FunctionDatabase V) :=
  db.addFunctions resolve order

/-- `GetFunction`. -/
def getFunction (db : FunctionDatabase V) (funcId : FunctionIdType) : Except Error (Option V) :=
  match db.funcIdToNode funcId with
  | none => .ok none
  | some node =>
    match db.nodes[node]? with
    | none => .error .badPointer
    | some n => .ok (some n.value)

end FunctionDatabase

/-- **Plain path resolution**: from the global object on, one component after the other. -/
def resolvePath (resolve : V → StdString → Option V) (global : V) (path : List StdString) : Option V :=
  path.foldlM resolve global

/-- The name that was added last under an id. -/
def lastName (adds : List Function) (id : FunctionIdType) : Option StdString :=
  (adds.reverse.find? (·.id = id)).map (·.name)

/-- The additions under each id are the same, in the same order. -/
def SameForEachId (adds adds' : List Function) : Prop :=
  ∀ id, adds'.filter (·.id = id) = adds.filter (·.id = id)

/-- The databases answer alike. -/
def SameLookups (db db' : FunctionDatabase V) : Prop := ∀ id, db'.getFunction id = db.getFunction id

/-- **Cached lookup is plain path resolution**, and the order of different ids does not matter. -/
structure LooksUp (resolve : V → StdString → Option V) (global : V) (adds : List Function) : Prop where
  plain : ∃ db, (FunctionDatabase.new global).addFunctions resolve adds = .ok db ∧
    ∀ id, db.getFunction id = .ok ((lastName adds id).bind fun name =>
      resolvePath resolve global (name.splitOn separator))
  order : ∀ adds', SameForEachId adds adds' →
    ∃ db db', (FunctionDatabase.new global).addFunctions resolve adds = .ok db ∧
      (FunctionDatabase.new global).addFunctions resolve adds' = .ok db' ∧ SameLookups db db'

/-- The functions of the store that have the same id are the same. -/
def DifferentIds (s : CAFStore) : Prop :=
  ∀ fs, s.functions = .ok fs → ∀ f ∈ fs, ∀ g ∈ fs, f.id = g.id → f = g

/-- **`Populate` gives the same database** for every order of the functions of a store. -/
def PopulatesAlike (resolve : V → StdString → Option V) (global : V) (s : CAFStore) : Prop :=
  ∀ fs order order', s.functions = .ok fs → order.Perm fs → order'.Perm fs →
    (∀ f ∈ fs, (resolvePath resolve global (f.name.splitOn separator)).isSome) →
    ∃ db db', (FunctionDatabase.new global).populate resolve order = .ok db ∧
      (FunctionDatabase.new global).populate resolve order' = .ok db' ∧ SameLookups db db'

/-- If the last component is empty, it resolves to the value that the others lead to. -/
def LastHarmless (resolve : V → StdString → Option V) (global : V) (name : StdString) : Prop :=
  ∀ path v, name.splitOn separator = path ++ [[]] → resolvePath resolve global path = some v → resolve v [] = some v

end Caf
