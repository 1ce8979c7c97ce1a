import Caf.Spec.Serializer

/-!
# What the serializer writes

The serializer follows the walk of the heap: it writes the bytes of the walk's forest, and
its context numbers the walk's slots at every point.

* `serializeValues_walk`: a list of values.
* `serialize_walk`: a test case.
* `walkSteps_exists`: well-formed test cases have a walk.
-/

namespace Caf

open ObjectGraph LittleEndian

/-- The context assigns slot `k` to what `S` holds there, and nothing else. -/
structure SerializationContext.Numbers (c : SerializationContext) (S : List Referent) : Prop where
  next : c.indexAlloc = S.length
  value : ∀ (a : Addr) (k : ℕ), c.valueIndexes a = some k ↔ S[k]? = some (.node a)
  ret : ∀ i k : ℕ, c.retValueIndexes i = some k ↔ S[k]? = some (.result i)

/-- The contexts in `tr` number the slots of `T` up to the counts in `ms`. -/
abbrev Traces (T : List Referent) (ms : List ℕ) (tr : List SerializationContext) : Prop :=
  List.Forall₂ (fun m c => c.Numbers (T.take m)) ms tr

namespace SerializationContext

variable {c : SerializationContext} {S T : List Referent}

theorem numbers_new : new.Numbers [] := ⟨rfl, by simp [new], by simp [new]⟩

theorem Numbers.setNextValue (h : c.Numbers S) {a : Addr} (ha : .node a ∉ S) :
    (c.setNextValue a).Numbers (S ++ [.node a]) := by
  refine ⟨by simp [SerializationContext.setNextValue, h.next], fun b k => ?_, fun i k => ?_⟩
  · by_cases hba : b = a
    · subst hba
      simp only [SerializationContext.setNextValue, Function.update_self, h.next, Option.some.injEq]
      refine ⟨fun hk => by simp [← hk], fun hk => ?_⟩
      rcases getElem?_concat hk with hk | ⟨hk, -⟩
      · exact absurd (List.mem_of_getElem? hk) ha
      · exact hk.symm
    · simp only [SerializationContext.setNextValue, Function.update_of_ne hba, h.value]
      refine ⟨getElem?_grows (List.prefix_append _ _), fun hk => ?_⟩
      rcases getElem?_concat hk with hk | ⟨-, hr⟩
      · exact hk
      · cases hr; exact absurd rfl hba
  · simp only [SerializationContext.setNextValue, h.ret]
    refine ⟨getElem?_grows (List.prefix_append _ _), fun hk => ?_⟩
    rcases getElem?_concat hk with hk | ⟨-, hr⟩
    · exact hk
    · cases hr

theorem Numbers.setNextValueAsReturnValue (h : c.Numbers S) {i : ℕ} (hi : .result i ∉ S) :
    (c.setNextValueAsReturnValue i).Numbers (S ++ [.result i]) := by
  refine ⟨by simp [SerializationContext.setNextValueAsReturnValue, h.next], fun b k => ?_, fun j k => ?_⟩
  · simp only [SerializationContext.setNextValueAsReturnValue, h.value]
    refine ⟨getElem?_grows (List.prefix_append _ _), fun hk => ?_⟩
    rcases getElem?_concat hk with hk | ⟨-, hr⟩
    · exact hk
    · cases hr
  · by_cases hji : j = i
    · subst hji
      simp only [SerializationContext.setNextValueAsReturnValue, Function.update_self, h.next,
        Option.some.injEq]
      refine ⟨fun hk => by simp [← hk], fun hk => ?_⟩
      rcases getElem?_concat hk with hk | ⟨hk, -⟩
      · exact absurd (List.mem_of_getElem? hk) hi
      · exact hk.symm
    · simp only [SerializationContext.setNextValueAsReturnValue, Function.update_of_ne hji, h.ret]
      refine ⟨getElem?_grows (List.prefix_append _ _), fun hk => ?_⟩
      rcases getElem?_concat hk with hk | ⟨-, hr⟩
      · exact hk
      · cases hr; exact absurd rfl hji

theorem Numbers.take (h : c.Numbers S) (hT : S <+: T) : c.Numbers (T.take S.length) := by
  obtain ⟨U, rfl⟩ := hT
  simpa using h

/-- An object without a slot is written itself. -/
theorem Numbers.valueIndexes_none (h : c.Numbers S) {a : Addr} (ha : .node a ∉ S) :
    c.valueIndexes a = none := by
  cases hv : c.valueIndexes a with
  | none => rfl
  | some k => exact absurd (List.mem_of_getElem? ((h.value a k).1 hv)) ha

end SerializationContext

namespace TestCaseSerializer

variable {H : Heap} {S S' : List Referent} {as : List Addr} {F : Forest Literal} {fuel i : ℕ}
  {a : Addr} {s : TestCaseSerializer}

theorem writeLiteral_eq (l : Literal) : s.writeLiteral l = s.write l.encode := by
  cases l <;> simp [writeLiteral, writeKind, writeInt, write, Literal.encode, Literal.payload]
  case boolean b => cases b <;> rfl

/-- `m`, run from `s`, writes `bytes`, leaves a context that numbers `S`, and records one
context for each of the slot counts `ms`. -/
def Writes (m : Except Error TestCaseSerializer) (s : TestCaseSerializer) (bytes : List UInt8)
    (S : List Referent) (ms : List ℕ) : Prop :=
  ∃ c tr, m = .ok ⟨s.out ++ bytes, c, s.trace ++ tr⟩ ∧ c.Numbers S ∧ ∀ T, S <+: T → Traces T ms tr

theorem Writes.pure (hc : s.context.Numbers S) : Writes (.ok s) s [] S [] :=
  ⟨s.context, [], by simp, hc, fun _ _ => .nil⟩

theorem Writes.write (hc : s.context.Numbers S) (bytes : List UInt8) :
    Writes (.ok (s.write bytes)) s bytes S [] :=
  ⟨s.context, [], by simp [TestCaseSerializer.write], hc, fun _ _ => .nil⟩

/-- A value without elements. -/
theorem Writes.item (hc : s.context.Numbers S) (bytes : List UInt8) :
    Writes (.ok (s.write bytes).record) s bytes S [S.length] :=
  ⟨s.context, [s.context], rfl, hc, fun _ hT => .cons (hc.take hT) .nil⟩

theorem Writes.bind {m : Except Error TestCaseSerializer} {bytes bytes' : List UInt8}
    {ms ms' : List ℕ} {f : TestCaseSerializer → Except Error TestCaseSerializer}
    (h : Writes m s bytes S ms) (hS : S <+: S')
    (hf : ∀ t : TestCaseSerializer, t.context.Numbers S → Writes (f t) t bytes' S' ms') :
    Writes (m >>= f) s (bytes ++ bytes') S' (ms ++ ms') := by
  obtain ⟨c, tr, rfl, hc, htr⟩ := h
  obtain ⟨c', tr', hm, hc', htr'⟩ := hf ⟨s.out ++ bytes, c, s.trace ++ tr⟩ hc
  refine ⟨c', tr ++ tr', ?_, hc', fun T hT => List.rel_append (htr T (hS.trans hT)) (htr' T hT)⟩
  rw [← List.append_assoc, ← List.append_assoc]
  exact hm

/-! ## One value -/

theorem serializeValue_leaf {l : Literal} (hc : s.context.Numbers S) (hS : NodesIn H.graph S)
    (ha : H.graph a = some (.leaf l)) :
    serializeValue H (fuel + 1) a s = .ok (s.write l.encode).record := by
  have hn : .node a ∉ S := by
    intro hm
    obtain ⟨es, hes⟩ := hS a hm
    rw [ha] at hes
    cases hes
  simp only [serializeValue, Heap.graph_literal.1 ha, SerializationContext.substitute,
    hc.valueIndexes_none hn, writeLiteral_eq]
  rfl

theorem serializeValue_result {k : ℕ} (hc : s.context.Numbers S) (ha : H.graph a = some (.result i))
    (hk : S[k]? = some (.result i)) :
    serializeValue H (fuel + 1) a s = .ok (s.write (encodePlaceholder k)).record := by
  simp only [serializeValue, Heap.graph_placeholder.1 ha, SerializationContext.substitute,
    SerializationContext.getReturnValueIndex, (hc.ret i k).2 hk, writeInt, writeKind, write,
    List.append_assoc]
  rfl

theorem serializeValue_seen {es : List Addr} {k : ℕ} (hc : s.context.Numbers S)
    (ha : H.graph a = some (.node es)) (hk : S[k]? = some (.node a)) :
    serializeValue H (fuel + 1) a s = .ok (s.write (encodePlaceholder k)).record := by
  simp only [serializeValue, Heap.graph_array.1 ha, SerializationContext.substitute,
    SerializationContext.getValueIndex, (hc.value a k).2 hk, writeInt, writeKind, write,
    List.append_assoc]
  rfl

theorem serializeValue_node {es : List Addr} (hc : s.context.Numbers S)
    (ha : H.graph a = some (.node es)) (hn : .node a ∉ S) :
    serializeValue H (fuel + 1) a s =
      (.ok ({ s with context := s.context.setNextValue a }.write (encodeArrayHeader es.length)).record >>=
        fun s => es.foldlM (fun s e => serializeValue H fuel e s) s) := by
  simp only [serializeValue, Heap.graph_array.1 ha, SerializationContext.substitute,
    hc.valueIndexes_none hn, writeInt, writeKind, write, List.append_assoc]
  rfl

/-- The header of a new array: its slot is taken before the header is written. -/
theorem Writes.header (hc : s.context.Numbers S) (hn : .node a ∉ S) (bytes : List UInt8) :
    Writes (.ok ({ s with context := s.context.setNextValue a }.write bytes).record) s bytes
      (S ++ [.node a]) [S.length + 1] := by
  have hc' := hc.setNextValue hn
  refine ⟨_, [s.context.setNextValue a], rfl, hc', fun T hT => .cons ?_ .nil⟩
  have ht := hc'.take hT
  rwa [List.length_append, List.length_singleton] at ht

/-! ## Lists of values -/

/-- **A list of values**: the bytes of the walk's forest, and the numbers of its slots. -/
theorem serializeValues_walk (h : Walk H.graph S as F S') (hS : NodesIn H.graph S)
    (hc : s.context.Numbers S) (hf : F.depth ≤ fuel) :
    Writes (as.foldlM (fun s a => serializeValue H fuel a s) s) s (encodeValues F) S'
      (F.marks S.length) := by
  induction h generalizing s fuel with
  | nil => exact .pure hc
  | @leaf S a l as F S' ha hw ih =>
    obtain ⟨fuel, rfl⟩ := Forest.exists_fuel (by simp) hf
    have hf' : F.depth ≤ fuel + 1 := Nat.le_trans (Nat.le_max_right _ _) hf
    rw [List.foldlM_cons, serializeValue_leaf hc hS ha]
    exact (Writes.item hc l.encode).bind hw.prefix_slots fun t ht => ih hS ht hf'
  | @result S a i k as F S' ha hk hw ih =>
    obtain ⟨fuel, rfl⟩ := Forest.exists_fuel (by simp) hf
    have hf' : F.depth ≤ fuel + 1 := Nat.le_trans (Nat.le_max_right _ _) hf
    rw [List.foldlM_cons, serializeValue_result hc ha hk]
    exact (Writes.item hc _).bind hw.prefix_slots fun t ht => ih hS ht hf'
  | @seen S a es k as F S' ha hk hw ih =>
    obtain ⟨fuel, rfl⟩ := Forest.exists_fuel (by simp) hf
    have hf' : F.depth ≤ fuel + 1 := Nat.le_trans (Nat.le_max_right _ _) hf
    rw [List.foldlM_cons, serializeValue_seen hc ha hk]
    exact (Writes.item hc _).bind hw.prefix_slots fun t ht => ih hS ht hf'
  | @node S a es F₁ S₁ as F₂ S' ha hn h₁ h₂ ih₁ ih₂ =>
    obtain ⟨fuel, rfl⟩ := Forest.exists_fuel (by simp) hf
    simp only [Forest.depth] at hf
    have hS₀ : NodesIn H.graph (S ++ [.node a]) := by
      intro b hb
      rcases List.mem_append.1 hb with hb | hb
      · exact hS b hb
      · simp only [List.mem_singleton, Referent.node.injEq] at hb
        exact ⟨es, hb ▸ ha⟩
    have hlen := h₁.length_slots
    rw [List.foldlM_cons, serializeValue_node hc ha hn]
    have hw₁ := (Writes.header hc hn (encodeArrayHeader es.length)).bind h₁.prefix_slots
      fun t ht => ih₁ hS₀ ht (show F₁.depth ≤ fuel by omega)
    have hw₂ := hw₁.bind h₂.prefix_slots fun t ht => ih₂ (h₁.nodesIn hS₀) ht (show F₂.depth ≤ fuel + 1 by omega)
    simpa [encodeValues, Forest.marks, h₁.length_eq, hlen] using hw₂

/-! ## Calls -/

/-- `this`, or Undefined where it is missing. -/
theorem serializeThis_walk {call : FunctionCall} (h : Walk H.graph S call.step.head F S')
    (hS : NodesIn H.graph S) (hc : s.context.Numbers S) (hf : F.depth ≤ fuel) :
    Writes (serializeThis H fuel call s) s (encodeValues (fillThis F)) S'
      ((fillThis F).marks S.length) := by
  unfold serializeThis
  unfold FunctionCall.step at h
  cases hthis : call.thisValue with
  | none =>
    rw [hthis] at h
    cases h
    have hw := Writes.item hc (Literal.encode .undefined)
    simpa [writeLiteral_eq, fillThis, encodeValues, Forest.marks] using hw
  | some a =>
    rw [hthis] at h
    have hw := serializeValues_walk h hS hc hf
    rw [Option.toList_some, List.foldlM_cons] at hw
    rw [fillThis_of_length h.length_eq]
    simpa using hw

theorem fillThis_slots (F : Forest Literal) : (fillThis F).slots = F.slots := by
  cases F <;> rfl

theorem serializeFunctionCall_walk {call : FunctionCall} {F₁ F₂ : Forest Literal} {S₁ S₂ : List Referent}
    (h₁ : Walk H.graph S call.step.head F₁ S₁) (h₂ : Walk H.graph S₁ call.step.args F₂ S₂)
    (hS : NodesIn H.graph S) (hc : s.context.Numbers S) (hf₁ : F₁.depth ≤ fuel) (hf₂ : F₂.depth ≤ fuel) :
    Writes (serializeFunctionCall H fuel call s) s (encodeCall (fillStep ⟨call.step.op, F₁, F₂⟩)) S₂
      ((fillThis F₁).marks S.length ++ F₂.marks S₁.length) := by
  have hw₁ := (Writes.write hc (toBytes 4 call.funcId.toNat)).bind h₁.prefix_slots
    fun t ht => serializeThis_walk h₁ hS ht hf₁
  have hw₂ := hw₁.bind h₂.prefix_slots fun t ht =>
    (Writes.write ht (toBytes 1 call.ctor.toNat)).bind h₂.prefix_slots fun t ht =>
      (Writes.write ht (toBytes 4 call.args.length)).bind h₂.prefix_slots fun t ht =>
        serializeValues_walk h₂ (h₁.nodesIn hS) ht hf₂
  have hctor : toBytes 1 call.ctor.toNat = [call.ctor.toUInt8] := by cases call.ctor <;> rfl
  have hlen : F₂.length = call.args.length := h₂.length_eq
  have he : encodeCall (fillStep ⟨call.step.op, F₁, F₂⟩) =
      toBytes 4 call.funcId.toNat ++ encodeValues (fillThis F₁) ++
        (toBytes 1 call.ctor.toNat ++ (toBytes 4 call.args.length ++ encodeValues F₂)) := by
    simp [encodeCall, fillStep, hctor, hlen, FunctionCall.step]
  rw [he]
  exact hw₂

/-- **The calls**, from call `i` on. -/
theorem serializeCalls_walk {calls : List FunctionCall} {Fs : List (Step CallOp (Forest Literal))}
    (h : WalkSteps H.graph i S (calls.map FunctionCall.step) Fs S') (hS : NodesIn H.graph S)
    (hr : ResultsBelow i S) (hc : s.context.Numbers S) (hf : DepthLE fuel Fs) :
    Writes (serializeCalls H fuel i calls s) s (encodeCalls (Fs.map fillStep)) S'
      (stepMarks S.length (Fs.map fillStep)) := by
  induction calls generalizing i S Fs s with
  | nil =>
    cases h
    exact .pure hc
  | cons call calls ih =>
    cases h with
    | @cons _ _ op as bs F₁ S₁ F₂ S₂ _ Fs _ h₁ h₂ h₃ =>
      obtain ⟨hf₁, hf₂⟩ := hf _ List.mem_cons_self
      have hS₂ := h₂.nodesIn (h₁.nodesIn hS)
      have hr₂ := (hr.walk h₁).walk h₂
      have hw₁ := serializeFunctionCall_walk h₁ h₂ hS hc hf₁ hf₂
      have hret : ∀ t : TestCaseSerializer, t.context.Numbers S₂ →
          Writes (.ok { t with context := t.context.setNextValueAsReturnValue i }.record) t []
            (S₂ ++ [.result i]) [S₂.length + 1] := fun t ht => by
        have ht' := ht.setNextValueAsReturnValue (i := i) fun hm => Nat.lt_irrefl i ((hr₂ i).1 hm)
        refine ⟨_, [t.context.setNextValueAsReturnValue i], by simp [record], ht', fun T hT => .cons ?_ .nil⟩
        have hk := ht'.take hT
        rwa [List.length_append, List.length_singleton] at hk
      have hS₃ : NodesIn H.graph (S₂ ++ [.result i]) := fun b hb => hS₂ b (by simpa using hb)
      have hp : S₂ <+: S' := (List.prefix_append _ _).trans h₃.prefix_slots
      have hw := hw₁.bind hp fun t ht =>
        (hret t ht).bind h₃.prefix_slots fun t ht => ih h₃ hS₃ hr₂.succ ht
          fun st hst => hf st (List.mem_cons_of_mem _ hst)
      have hlen₁ := h₁.length_slots
      have hlen₂ := h₂.length_slots
      have hm : stepMarks S.length (fillStep ⟨(call.funcId, call.ctor), F₁, F₂⟩ :: Fs.map fillStep) =
          (fillThis F₁).marks S.length ++ F₂.marks S₁.length ++
            ([S₂.length + 1] ++ stepMarks (S₂ ++ [Referent.result i]).length (Fs.map fillStep)) := by
        simp only [stepMarks, Step.slots, fillStep, fillThis_slots, List.length_append, hlen₁, hlen₂]
        simp [Nat.add_assoc]
      rw [List.map_cons, encodeCalls, List.flatMap_cons, hm]
      exact hw

end TestCaseSerializer

/-! ## Test cases -/

section TestCase

variable {H : Heap} {tc : TestCase} {Fs : List (Step CallOp (Forest Literal))} {S : List Referent}

/-- **A well-formed test case has a walk.** -/
theorem walkSteps_exists (hw : WellFormed H tc) : ∃ Fs S, WalkSteps H.graph 0 [] tc.steps Fs S := by
  refine WalkSteps.exists H.lt_of_graph ResultsBelow.nil fun j st hj a ha => ?_
  rw [TestCase.steps, List.getElem?_map, Option.map_eq_some_iff] at hj
  obtain ⟨call, hcall, rfl⟩ := hj
  rw [Nat.zero_add]
  exact hw j call hcall a ha

/-- The forests of a test case are no deeper than its heap is long. -/
theorem depthLE_of_walk {fuel : ℕ} (h : WalkSteps H.graph 0 [] tc.steps Fs S) (hfuel : H.length + 1 ≤ fuel) :
    DepthLE fuel Fs := by
  intro st hst
  have hd := h.depth_le H.lt_of_graph ResultsBelow.nil List.nodup_nil st hst
  exact ⟨Nat.le_trans hd.1 hfuel, Nat.le_trans hd.2 hfuel⟩

/-- **What is written for a test case**: the bytes of its forests, under the numbers of the
walk's slots. -/
theorem serialize_walk (h : WalkSteps H.graph 0 [] tc.steps Fs S) :
    ∃ c tr, TestCaseSerializer.serialize H tc =
        .ok ⟨encodeTestCase tc.storeRootEntryIndex (Fs.map fillStep), c, tr⟩ ∧
      c.Numbers S ∧ Traces S (stepMarks 0 (Fs.map fillStep)) tr := by
  have hd : DepthLE (H.length + 1) Fs := depthLE_of_walk h (Nat.le_refl _)
  obtain ⟨c, tr, hs, hc, htr⟩ := TestCaseSerializer.serializeCalls_walk
    (s := (TestCaseSerializer.new.writeInt 4 tc.storeRootEntryIndex).writeInt 4 tc.calls.length)
    h (by intro a ha; cases ha) ResultsBelow.nil SerializationContext.numbers_new hd
  have hlen : Fs.length = tc.calls.length := by rw [h.length_eq, TestCase.steps, List.length_map]
  refine ⟨c, tr, ?_, hc, htr S (List.prefix_refl _)⟩
  rw [TestCaseSerializer.serialize, hs]
  simp [encodeTestCase, hlen, TestCaseSerializer.writeInt, TestCaseSerializer.write,
    TestCaseSerializer.new]

end TestCase

end Caf
