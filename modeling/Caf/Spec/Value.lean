import Caf.Graph.Walk

/-!
# Values, function calls and test cases

`Value` objects live in a heap and are designated by their address, as `Value*` does in
the source: arrays hold addresses, so they may be shared and may contain themselves.
`WellFormed` is the condition that references only point backwards.
-/

namespace Caf

open ObjectGraph

/-- The bytes of a `std::string`. -/
abbrev StdString := List UInt8

/-- A statement about all bytes can be checked. -/
theorem forall_byte {p : UInt8 → Prop} (h : ∀ n : Fin 256, p (UInt8.ofNat n.val)) (b : UInt8) : p b := by
  have hb := h ⟨b.toNat, UInt8.toNat_lt b⟩
  rwa [UInt8.ofNat_toNat] at hb

/-- The bytes of a string literal of the source. -/
def text (s : String) : StdString := s.toList.map fun c => UInt8.ofNat c.toNat

/-- A `double`, as the 64 bits of its IEEE 754 representation. -/
abbrev Double := UInt64

/-- A `Value*`. -/
abbrev Addr := ℕ

abbrev FunctionIdType := UInt32

namespace Double

/-- The bits without the sign. -/
def magnitude (x : Double) : ℕ := x.toNat % 2 ^ 63

def isNaN (x : Double) : Bool := 0x7ff0000000000000 < x.magnitude

def isInf (x : Double) : Bool := x.magnitude == 0x7ff0000000000000

/-- The sign bit. -/
def signBit (x : Double) : Bool := 2 ^ 63 ≤ x.toNat

/-- `std::numeric_limits<double>::quiet_NaN()`. -/
def quietNaN : Double := 0x7ff8000000000000

/-- `std::numeric_limits<double>::infinity()`. -/
def infinity : Double := 0x7ff0000000000000

/-- `-std::numeric_limits<double>::infinity()`. -/
def negInfinity : Double := 0xfff0000000000000

end Double

/-- The values that are neither arrays nor placeholders. -/
inductive Literal where
  | undefined
  | null
  | boolean (value : Bool)
  | string (value : StdString)
  | function (funcId : FunctionIdType)
  | integer (value : Int32)
  | float (value : Double)
  deriving DecidableEq

/-- A `Value` object. -/
inductive Value where
  | literal (l : Literal)
  | array (elements : List Addr)
  | placeholder (index : ℕ)
  deriving DecidableEq

/-- `ValueKind`, in the order of `CAF_VALUE_KIND_LIST`. -/
inductive ValueKind where
  | undefined | null | boolean | string | function | integer | float | array | placeholder
  deriving DecidableEq

/-- The underlying `uint8_t` of an enumerator. -/
def ValueKind.toByte : ValueKind → UInt8
  | undefined => 0
  | null => 1
  | boolean => 2
  | string => 3
  | function => 4
  | integer => 5
  | float => 6
  | array => 7
  | placeholder => 8

def ValueKind.ofByte? (b : UInt8) : Option ValueKind :=
  [undefined, null, boolean, string, function, integer, float, array, placeholder][b.toNat]?

def Literal.kind : Literal → ValueKind
  | undefined => .undefined
  | null => .null
  | boolean _ => .boolean
  | string _ => .string
  | function _ => .function
  | integer _ => .integer
  | float _ => .float

def Value.kind : Value → ValueKind
  | literal l => l.kind
  | array _ => .array
  | placeholder _ => .placeholder

theorem ValueKind.ofByte?_toByte (k : ValueKind) : ofByte? k.toByte = some k := by
  cases k <;> rfl

/-- The objects in memory. -/
abbrev Heap := List Value

/-- `FunctionCall`. An absent `this` is `nullptr` in the source. -/
structure FunctionCall where
  funcId : FunctionIdType
  thisValue : Option Addr
  ctor : Bool
  args : List Addr
  deriving DecidableEq

structure TestCase where
  storeRootEntryIndex : ℕ
  calls : List FunctionCall
  deriving DecidableEq

/-- The positions of a call: `this`, if there is one, and the arguments. -/
def FunctionCall.roots (call : FunctionCall) : List Addr := call.thisValue.toList ++ call.args

/-! ## The object graph -/

def Value.cell : Value → Cell Literal
  | literal l => .leaf l
  | array es => .node es
  | placeholder i => .result i

/-- Exchange the literals. -/
def Value.mapLiteral (f : Literal → Literal) : Value → Value
  | literal l => literal (f l)
  | array es => array es
  | placeholder i => placeholder i

/-- The heap as an object graph, with placeholders as references to earlier results. -/
def Heap.graph (h : Heap) : Graph Literal := fun a => h[a]?.map Value.cell

section Graph

variable {h : Heap} {a : Addr}

theorem Heap.graph_literal {l : Literal} : h.graph a = some (.leaf l) ↔ h[a]? = some (.literal l) := by
  simp only [Heap.graph, Option.map_eq_some_iff]
  exact ⟨fun ⟨v, hv, hc⟩ => by cases v <;> simp_all [Value.cell], fun hv => ⟨_, hv, rfl⟩⟩

theorem Heap.graph_array {es : List Addr} : h.graph a = some (.node es) ↔ h[a]? = some (.array es) := by
  simp only [Heap.graph, Option.map_eq_some_iff]
  exact ⟨fun ⟨v, hv, hc⟩ => by cases v <;> simp_all [Value.cell], fun hv => ⟨_, hv, rfl⟩⟩

theorem Heap.graph_placeholder {i : ℕ} :
    h.graph a = some (.result i) ↔ h[a]? = some (.placeholder i) := by
  simp only [Heap.graph, Option.map_eq_some_iff]
  exact ⟨fun ⟨v, hv, hc⟩ => by cases v <;> simp_all [Value.cell], fun hv => ⟨_, hv, rfl⟩⟩

theorem Heap.map_get_array (f : Literal → Literal) {es : List Addr} :
    (h.map (Value.mapLiteral f))[a]? = some (.array es) ↔ h[a]? = some (.array es) := by
  rw [List.getElem?_map]
  rcases h[a]? with - | v
  · simp
  · cases v <;> simp [Value.mapLiteral]

theorem Heap.map_get_placeholder (f : Literal → Literal) {i : ℕ} :
    (h.map (Value.mapLiteral f))[a]? = some (.placeholder i) ↔ h[a]? = some (.placeholder i) := by
  rw [List.getElem?_map]
  rcases h[a]? with - | v
  · simp
  · cases v <;> simp [Value.mapLiteral]

theorem Heap.map_get_literal (f : Literal → Literal) {l : Literal} :
    (h.map (Value.mapLiteral f))[a]? = some (.literal l) ↔ ∃ l', h[a]? = some (.literal l') ∧ f l' = l := by
  rw [List.getElem?_map]
  rcases h[a]? with - | v
  · simp
  · cases v <;> simp [Value.mapLiteral]

theorem Heap.lt_of_graph (h : Heap) (a : Addr) (c : Cell Literal) (hc : h.graph a = some c) :
    a < h.length := by
  obtain ⟨v, hv, -⟩ := Option.map_eq_some_iff.1 hc
  exact (List.getElem?_eq_some_iff.1 hv).1

end Graph

/-- **References only point backwards**: everything reachable from the positions of call
`i` exists, and every placeholder among it has a call index below `i`. -/
def WellFormed (h : Heap) (tc : TestCase) : Prop :=
  ∀ i call, tc.calls[i]? = some call → ∀ a ∈ call.roots, Sound h.graph i a

/-- `a` occurs in the test case, at a position of a call or inside an array. -/
def TestCase.Reaches (tc : TestCase) (h : Heap) (a : Addr) : Prop :=
  ∃ call ∈ tc.calls, ∃ r ∈ call.roots, Reach h.graph r a

/-- **Ids, counts and lengths fit in 32 bits**, the slot ids of arrays and return values
included: they are handed out one after the other from `0`. -/
structure FitsU32 (h : Heap) (tc : TestCase) : Prop where
  root : tc.storeRootEntryIndex < 2 ^ 32
  calls : tc.calls.length < 2 ^ 32
  args : ∀ call ∈ tc.calls, call.args.length < 2 ^ 32
  strings : ∀ a s, tc.Reaches h a → h[a]? = some (.literal (.string s)) → s.length < 2 ^ 32
  arrays : ∀ a es, tc.Reaches h a → h[a]? = some (.array es) → es.length < 2 ^ 32
  slots : ∀ arrays : List Addr, arrays.Nodup →
    (∀ a ∈ arrays, tc.Reaches h a ∧ ∃ es, h[a]? = some (.array es)) →
      arrays.length + tc.calls.length ≤ 2 ^ 32

/-- No float value of the test case is infinite. -/
def NoInfinity (h : Heap) (tc : TestCase) : Prop :=
  ∀ a x, tc.Reaches h a → h[a]? = some (.literal (.float x)) → x.isInf = false

/-- The objects at `K` exist, and those at `K` refer to each other only. -/
def Heap.closed (h : Heap) (K : List Addr) : Bool := K.all fun a =>
  match h[a]? with
  | some (.array es) => es.all K.contains
  | some _ => true
  | none => false

theorem Heap.mem_of_reach {h : Heap} {K : List Addr} (hK : h.closed K = true) {a b : Addr} (ha : a ∈ K)
    (hab : Reach h.graph a b) : b ∈ K := by
  induction hab with
  | refl => exact ha
  | @tail c d _ hs ih =>
    obtain ⟨es, hes, hd⟩ := hs
    have hc := List.all_eq_true.1 hK c ih
    simp only [Heap.graph_array.1 hes] at hc
    simpa using List.all_eq_true.1 hc d hd

/-- What went wrong in a run. -/
inductive Error where
  /-- `std::out_of_range`, thrown by `at`. -/
  | outOfRange
  /-- A pointer that designates no object. -/
  | badPointer
  /-- `CAF_UNREACHABLE`. -/
  | unreachable
  /-- A failed `assert`. -/
  | assertion
  /-- A random number from an empty range. -/
  | emptyRange
  /-- The process exits with an error message. -/
  | exit
  /-- The bound on the nesting of calls in this model was too small. -/
  | outOfFuel
  deriving DecidableEq

theorem bind_eq_ok {α β : Type} {x : Except Error α} {f : α → Except Error β} {r : β} :
    x >>= f = .ok r ↔ ∃ a, x = .ok a ∧ f a = .ok r := by
  rcases x with e | a
  · refine ⟨fun he => (by cases he), ?_⟩
    rintro ⟨a, ⟨⟩, -⟩
  · refine ⟨fun he => ⟨a, rfl, he⟩, ?_⟩
    rintro ⟨b, ⟨⟩, he⟩
    exact he

theorem map_eq_ok {α β : Type} {x : Except Error α} {f : α → β} {r : β} :
    x.map f = .ok r ↔ ∃ a, x = .ok a ∧ f a = r := by
  rcases x with e | a <;> simp [Except.map]

end Caf
