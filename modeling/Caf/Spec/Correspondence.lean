import Caf.Spec.Format

/-!
# Test cases that are the same but for their objects

Two test cases in two heaps correspond when their calls do, position by position, under one
bijection between their arrays.
-/

namespace Caf

open ObjectGraph

/-- Equal literals; any two NaNs count as equal. -/
def SameLiteral (l l' : Literal) : Prop :=
  l = l' ∨ ∃ x y : Double, l = .float x ∧ l' = .float y ∧ x.isNaN = true ∧ y.isNaN = true

/-- The same, but any two infinities count as equal, too. -/
def SameUpToInfinity (l l' : Literal) : Prop :=
  SameLiteral l l' ∨ ∃ x y : Double, l = .float x ∧ l' = .float y ∧ x.isInf = true ∧ y.isInf = true

/-- The objects at `a` and `b` have the same kind and content, literals up to `same` and arrays
up to `R`. -/
inductive SameValue (same : Literal → Literal → Prop) (h h' : Heap) (R : Addr → Addr → Prop) (a b : Addr) : Prop
  | literal {l l'} : h[a]? = some (.literal l) → h'[b]? = some (.literal l') → same l l' →
      SameValue same h h' R a b
  | placeholder {i} : h[a]? = some (.placeholder i) → h'[b]? = some (.placeholder i) →
      SameValue same h h' R a b
  | array {es es'} : h[a]? = some (.array es) → h'[b]? = some (.array es') → R a b →
      SameValue same h h' R a b

/-- Call by call: function, constructor flag, arguments and `this`. A missing `this` corresponds
to Undefined. -/
structure SameCall (same : Literal → Literal → Prop) (h h' : Heap) (R : Addr → Addr → Prop)
    (call call' : FunctionCall) : Prop where
  funcId : call.funcId = call'.funcId
  ctor : call.ctor = call'.ctor
  args : List.Forall₂ (SameValue same h h' R) call.args call'.args
  thisSome : ∀ a, call.thisValue = some a → ∃ b, call'.thisValue = some b ∧ SameValue same h h' R a b
  thisNone : call.thisValue = none →
    ∃ b, call'.thisValue = some b ∧ h'[b]? = some (.literal .undefined)

/-- `a` is an array of the test case. -/
def TestCase.HasArray (tc : TestCase) (h : Heap) (a : Addr) : Prop :=
  tc.Reaches h a ∧ ∃ es, h[a]? = some (.array es)

/-- `R` is a bijection between the arrays of the two test cases, whose elements correspond. -/
structure ArrayBijection (same : Literal → Literal → Prop) (h : Heap) (tc : TestCase) (h' : Heap)
    (tc' : TestCase) (R : Addr → Addr → Prop) : Prop where
  left : ∀ a b, R a b → tc.HasArray h a
  right : ∀ a b, R a b → tc'.HasArray h' b
  total : ∀ a, tc.HasArray h a → ∃ b, R a b
  surjective : ∀ b, tc'.HasArray h' b → ∃ a, R a b
  functional : ∀ a b b', R a b → R a b' → b = b'
  injective : ∀ a a' b, R a b → R a' b → a = a'
  elements : ∀ a b es es', R a b → h[a]? = some (.array es) → h'[b]? = some (.array es') →
    List.Forall₂ (SameValue same h h' R) es es'

/-- **The test cases correspond** under `R`. -/
structure Corresponds (same : Literal → Literal → Prop) (h : Heap) (tc : TestCase) (h' : Heap)
    (tc' : TestCase) (R : Addr → Addr → Prop) : Prop where
  root : tc.storeRootEntryIndex = tc'.storeRootEntryIndex
  bijection : ArrayBijection same h tc h' tc' R
  calls : List.Forall₂ (SameCall same h h' R) tc.calls tc'.calls

/-! ## Filling in `this` -/

/-- The call with a missing `this` replaced by the object `u`. -/
def FunctionCall.fillThis (u : Addr) (call : FunctionCall) : FunctionCall :=
  { call with thisValue := some (call.thisValue.getD u) }

/-- The test case with every missing `this` replaced by the object `u`. -/
def TestCase.fillThis (u : Addr) (tc : TestCase) : TestCase :=
  { tc with calls := tc.calls.map (FunctionCall.fillThis u) }

/-- The heap with one more object: an Undefined value. -/
def Heap.withUndefined (h : Heap) : Heap := h ++ [.literal .undefined]

theorem Heap.withUndefined_get (h : Heap) : h.withUndefined[h.length]? = some (.literal .undefined) := by
  simp [withUndefined]

theorem Heap.withUndefined_mono (h : Heap) {a : Addr} {v : Value} (ha : h[a]? = some v) :
    h.withUndefined[a]? = some v :=
  getElem?_grows (List.prefix_append _ _) ha

theorem Heap.withUndefined_graph (h : Heap) (a : Addr) (c : Cell Literal) (ha : h.graph a = some c) :
    h.withUndefined.graph a = some c := by
  simp only [graph, Option.map_eq_some_iff] at ha ⊢
  obtain ⟨v, hv, hc⟩ := ha
  exact ⟨v, h.withUndefined_mono hv, hc⟩

/-- Filling in `this` fills in its forest. -/
theorem walk_fillCall {h : Heap} {S S' : List Referent} {call : FunctionCall} {F : Forest Literal}
    (hw : Walk h.graph S call.thisValue.toList F S') :
    Walk h.withUndefined.graph S (call.fillThis h.length).thisValue.toList (fillThis F) S' := by
  cases hthis : call.thisValue with
  | none =>
    rw [hthis] at hw
    cases hw
    rw [FunctionCall.fillThis, hthis]
    exact .leaf (Heap.graph_literal.2 h.withUndefined_get) .nil
  | some a =>
    rw [hthis] at hw
    rw [FunctionCall.fillThis, hthis, fillThis_of_length hw.length_eq]
    exact hw.transfer h.withUndefined_graph

/-- Filling in `this` fills in the forests. -/
theorem walk_fillThis {h : Heap} {i : ℕ} {S S' : List Referent} {calls : List FunctionCall}
    {Fs : List (Step CallOp (Forest Literal))}
    (hw : WalkSteps h.graph i S (calls.map FunctionCall.step) Fs S') :
    WalkSteps h.withUndefined.graph i S ((calls.map (FunctionCall.fillThis h.length)).map FunctionCall.step)
      (Fs.map fillStep) S' := by
  induction calls generalizing i S Fs with
  | nil => cases hw; exact .nil
  | cons call calls ih =>
    cases hw with
    | cons h₁ h₂ h₃ => exact .cons (walk_fillCall h₁) (h₂.transfer h.withUndefined_graph) (ih h₃)

/-- The forests of a filled test case have its functions and one value for `this`. -/
theorem shape_fillThis {h : Heap} {tc : TestCase} {S : List Referent}
    {Fs : List (Step CallOp (Forest Literal))} (hw : WalkSteps h.graph 0 [] tc.steps Fs S)
    {st : Step CallOp (Forest Literal)} (hst : st ∈ Fs.map fillStep) :
    st.head.length = 1 ∧ ∃ call ∈ tc.calls, st.op = (call.funcId, call.ctor) := by
  obtain ⟨step, hstep, hop, hhead, -⟩ := (walk_fillThis hw).shape hst
  obtain ⟨filled, hfilled, rfl⟩ := List.mem_map.1 hstep
  obtain ⟨call, hcall, rfl⟩ := List.mem_map.1 hfilled
  exact ⟨hhead, call, hcall, hop⟩

end Caf
