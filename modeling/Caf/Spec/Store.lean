import Caf.Spec.Value

/-!
# The API store

`CAFStore` keeps the API functions in a trie over the components of their names. An `Entry*` is
the index of the entry in `_entries`, which holds all entries in the order of their creation,
the root first.
-/

namespace Caf

/-- An API function. -/
structure Function where
  id : FunctionIdType
  name : StdString
  deriving DecidableEq

/-- `CAFStore::Entry`. -/
structure Entry where
  func : Option Function
  children : List (StdString × ℕ)
  descendents : List ℕ
  deriving DecidableEq

namespace Entry

def new : Entry := ⟨none, [], []⟩

def hasFunction (e : Entry) : Bool := e.func.isSome

/-- `_func.value()`, which reads uninitialised memory when there is no function. -/
def getFunction (e : Entry) : Except Error Function :=
  match e.func with
  | some f => .ok f
  | none => .error .badPointer

def getChild (e : Entry) (name : StdString) : Option ℕ := e.children.lookup name

/-- `_children.emplace`, which keeps a child that is there. -/
def addChild (e : Entry) (name : StdString) (child : ℕ) : Entry :=
  if (e.getChild name).isSome then e else { e with children := e.children ++ [(name, child)] }

def setFunction (e : Entry) (f : Function) : Entry := { e with func := some f }

def addDescendent (e : Entry) (d : ℕ) : Entry := { e with descendents := e.descendents ++ [d] }

end Entry

structure CAFStore where
  entries : List Entry
  funcIdToEntry : List (FunctionIdType × ℕ)

/-- `'.'`. -/
def separator : UInt8 := 46

/-- The turns of the loop over a name. What is left of it starts at `start`; a turn takes the
component up to the next separator and moves `start` behind that. -/
def splitName : ℕ → StdString → List StdString
  | 0, _ => []
  | turns + 1, name =>
    if name.isEmpty then []
    else
      let component := name.takeWhile (· != separator)
      component :: splitName turns (name.drop (component.length + 1))

/-- The components that `AddFunction` finds in a name. -/
def components (name : StdString) : List StdString := splitName name.length name

namespace CAFStore

def new : CAFStore := ⟨[.new], []⟩

def createEntry (s : CAFStore) : ℕ × CAFStore :=
  (s.entries.length, { s with entries := s.entries ++ [.new] })

/-- Change an entry in place. -/
def modifyEntry (s : CAFStore) (node : ℕ) (f : Entry → Entry) : CAFStore :=
  { s with entries := s.entries.modify node f }

/-- `node->GetChild(component)`, if there is one. -/
def child (s : CAFStore) (node : ℕ) (component : StdString) : Option ℕ :=
  s.entries[node]?.bind (·.getChild component)

/-- The function of an entry, if there is one. -/
def func (s : CAFStore) (node : ℕ) : Option Function := s.entries[node]?.bind (·.func)

/-- The descendents of an entry. -/
def descendents (s : CAFStore) (node : ℕ) : List ℕ := (s.entries[node]?.map (·.descendents)).getD []

/-- The child of `node` for a component, created when it is missing. -/
def enterChild (s : CAFStore) (node : ℕ) (component : StdString) : ℕ × CAFStore :=
  match s.child node component with
  | some child => (child, s)
  | none =>
    let (child, s) := s.createEntry
    (child, s.modifyEntry node (·.addChild component child))

/-- The path along the components, and the node where it ends. -/
def enterPath : List StdString → ℕ → CAFStore → List ℕ × ℕ × CAFStore
  | [], node, s => ([node], node, s)
  | component :: rest, node, s =>
    let (child, s) := s.enterChild node component
    let (path, last, s) := enterPath rest child s
    (node :: path, last, s)

/-- `_funcIdToEntry.emplace`, which keeps an entry that is there. -/
def emplaceFunc (s : CAFStore) (id : FunctionIdType) (node : ℕ) : CAFStore :=
  if (s.funcIdToEntry.lookup id).isSome then s
  else { s with funcIdToEntry := s.funcIdToEntry ++ [(id, node)] }

def addFunction (s : CAFStore) (func : Function) : CAFStore :=
  let (path, node, s) := enterPath (components func.name) 0 s
  let s := s.modifyEntry node (·.setFunction func)
  let s := path.foldl (fun s p => s.modifyEntry p (·.addDescendent node)) s
  s.emplaceFunc func.id node

/-- `Load` from `funcId` on, which wraps around. -/
def loadFrom (funcId : FunctionIdType) : List StdString → CAFStore → CAFStore
  | [], s => s
  | funcName :: names, s => loadFrom (funcId + 1) names (s.addFunction ⟨funcId, funcName⟩)

/-- `Load` of a list of function names. -/
def load (names : List StdString) (s : CAFStore) : CAFStore := loadFrom 0 names s

def getEntry (s : CAFStore) (index : ℕ) : Except Error Entry :=
  match s.entries[index]? with
  | some e => .ok e
  | none => .error .outOfRange

def getFunction (s : CAFStore) (id : FunctionIdType) : Except Error Function :=
  match s.funcIdToEntry.lookup id with
  | none => .error .outOfRange
  | some node => do (← s.getEntry node).getFunction

/-- The name of a function of the store. -/
def nameOf (s : CAFStore) (id : FunctionIdType) : StdString :=
  match s.getFunction id with
  | .ok f => f.name
  | .error _ => []

def getFunctionsCount (s : CAFStore) : ℕ := s.entries.countP (·.hasFunction)

/-- What a `FunctionIterator` yields. The source leaves the order open. -/
def functions (s : CAFStore) : Except Error (List Function) :=
  s.funcIdToEntry.mapM fun i => do (← s.getEntry i.2).getFunction

/-- `ToJson`: the names of the functions, in the order of the entries. -/
def toJson (s : CAFStore) : List StdString := s.entries.filterMap fun entry => entry.func.map (·.name)

/-- A sequence of `AddFunction` calls. -/
def addFunctions (fs : List Function) (s : CAFStore) : CAFStore := fs.foldl addFunction s

/-- Entry `d` lies in the subtree of entry `e`. -/
def InSubtree (s : CAFStore) (e d : ℕ) : Prop := Relation.ReflTransGen (fun a b => ∃ c, s.child a c = some b) e d

end CAFStore

/-- **The store keeps every function under its own id.** -/
structure KeepsFunctions (names : List StdString) (s : CAFStore) : Prop where
  get : ∀ (i : ℕ) name, names[i]? = some name →
    ∃ f, s.getFunction (UInt32.ofNat i) = .ok f ∧ f.id.toNat = i ∧ f.name = name
  count : s.getFunctionsCount = names.length
  iterate : ∃ fs, s.functions = .ok fs ∧ (fs.map fun f => (f.name, f.id.toNat)).Perm names.zipIdx

/-- **The stores have the same functions** under the same ids, and an id designates the same function in
both. -/
structure SameFunctions (a b : CAFStore) : Prop where
  functions : ∀ f, (∃ e ∈ a.entries, e.func = some f) ↔ ∃ e ∈ b.entries, e.func = some f
  designates : ∀ id, a.getFunction id = b.getFunction id

/-- Saving and reloading the store of these names keeps the ids. -/
def KeepsIds (names : List StdString) : Prop :=
  SameFunctions (CAFStore.load names .new) (CAFStore.load (CAFStore.load names .new).toJson .new)

/-- No name's path is a part of the path of an earlier name. -/
def PrefixesFirst (names : List StdString) : Prop :=
  ∀ (i j : ℕ) x y, names[i]? = some x → names[j]? = some y → i < j → ¬ components y <+: components x

/-- **The descendents of an entry** are the entries with functions in its subtree, and there are some. -/
structure DescendentsOK (s : CAFStore) (e : ℕ) : Prop where
  nonempty : s.descendents e ≠ []
  mem_iff : ∀ d, d ∈ s.descendents e ↔ s.InSubtree e d ∧ (s.func d).isSome

end Caf
