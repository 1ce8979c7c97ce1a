import Caf.Proof.Region
import Caf.Proof.Requests
import Caf.Proof.Synthesis

/-!
# What the deserializer accepts

Whatever the bytes are, references point backwards: a placeholder field names the result of a finished
call, or an array, whose own placeholders were made while at most the present call was read. So the
invariant bounds all placeholders that the slots lead to by the index of the present call.

* `Decoding`: the invariant.
* `deserialize_outcome`: what is accepted is well formed, and no null pointer is ever read.
* `accepted_usable`: so it can be written again and synthesised.
-/

namespace Caf

open ObjectGraph Run TestCaseDeserializer

variable {N n : ℕ}

/-- The invariant rule for a reading loop. -/
theorem outcome_readEach {S V : Type} {E : Error → Prop} {read : S → Except Error (V × S)} {push : V → S → S}
    (I : List V → S → Prop) {count : ℕ} {s : S} (h₀ : I [] s)
    (hstep : ∀ done s, I done s → Outcome E (fun r => I (done ++ [r.1]) (push r.1 r.2)) (read s)) :
    Outcome E (fun r => I r.1 r.2) (readEach read push count s) := by
  suffices hgen : ∀ done s, I done s → Outcome E (fun r => I (done ++ r.1) r.2) (readEach read push count s) from
    hgen [] s h₀
  induction count with
  | zero =>
    intro done s hI
    show I (done ++ []) s
    rwa [List.append_nil]
  | succ count ih =>
    intro done s hI
    rw [readEach_succ]
    refine (hstep done s hI).bind fun r hr => (ih (done ++ [r.1]) (push r.1 r.2) hr).bind fun r' hr' => ?_
    rwa [List.append_assoc] at hr'

/-- The state while call `n` is read, when there were `N` objects at first. -/
structure Decoding (N n : ℕ) (s : TestCaseDeserializer) : Prop where
  ok : ObjectPoolOK s.pool
  length : N ≤ s.pool.heap.length
  region : Region N (Below n) s.pool.heap
  slots : ∀ (k : ℕ) a, s.context.pool[k]? = some (some a) → Okay N (Below n) s.pool.heap a
  result : ∀ k i, s.context.retValueIndex k = some i → i < n
  absent : ∀ k : ℕ, s.context.pool[k]? = some none → (s.context.retValueIndex k).isSome

/-- A value was read: it is right, and nothing that was there has changed. -/
structure DecodedValue (N n : ℕ) (s : TestCaseDeserializer) (a : Addr) (s' : TestCaseDeserializer) : Prop where
  decoding : Decoding N n s'
  ext : s.pool.Extends s'.pool
  okay : Okay N (Below n) s'.pool.heap a

theorem below_mono {m : ℕ} (h : n ≤ m) (v : Value) (hv : Below n v) : Below m v :=
  fun j hj => Nat.lt_of_lt_of_le (hv j hj) h

theorem below_array (es : List Addr) : Below n (.array es) := by
  intro j hj
  cases hj

namespace Decoding

variable {s : TestCaseDeserializer}

/-- The invariant is about neither the bytes nor the record. -/
theorem withInput (h : Decoding N n s) (input : MemoryInputStream) (trace : List DeserializationContext) :
    Decoding N n ⟨input, s.pool, s.context, trace⟩ :=
  ⟨h.ok, h.length, h.region, h.slots, h.result, h.absent⟩

/-- **The pool gives a value** without elements. -/
theorem give (h : Decoding N n s) (input : MemoryInputStream) {r : Addr × ObjectPool} {v : Value}
    (hg : Gives s.pool v r) (ht : Touches s.pool r) (hv : Below n v) (hne : ∀ es, v ≠ .array es) :
    DecodedValue N n s r.1 ({ s with input := input, pool := r.2 } : TestCaseDeserializer).record := by
  refine ⟨⟨hg.ok, ?_, ht.region h.region, ?_, h.result, h.absent⟩, hg.ext, v, hg.get, hv, fun es hes =>
    absurd hes (hne es)⟩
  · exact Nat.le_trans h.length hg.ext.length_le
  · exact fun k a hk => (h.slots k a hk).grow hg.ext

theorem giveLiteral (h : Decoding N n s) (input : MemoryInputStream) (l : Literal) :
    DecodedValue N n s (s.pool.getLiteral l).1
      ({ s with input := input, pool := (s.pool.getLiteral l).2 } : TestCaseDeserializer).record := by
  obtain ⟨l', hg, -⟩ := ObjectPool.getLiteral_gives_blurred h.ok l
  refine h.give input hg (touches_getLiteral s.pool l) ?_ ?_
  · intro j hj
    cases hj
  · intro es hes
    cases hes

/-- A new array gets the next slot. -/
theorem startArray (h : Decoding N n s) (input : MemoryInputStream) :
    Decoding N n ({ s with
      input := input
      pool := s.pool.createArrayValue.2
      context := s.context.setNextValue s.pool.createArrayValue.1 } : TestCaseDeserializer).record := by
  have hg := ObjectPool.createArrayValue_gives h.ok
  refine ⟨hg.ok, Nat.le_trans h.length hg.ext.length_le, ?_, fun k a hk => ?_, h.result, fun k hk => ?_⟩
  · refine h.region.add fun es hes e he => ?_
    cases hes
    cases he
  · rcases getElem?_concat hk with hk | ⟨-, ha⟩
    · exact (h.slots k a hk).grow hg.ext
    · cases ha
      exact ⟨_, hg.get, below_array [], fun _ _ => h.length⟩
  · rcases getElem?_concat hk with hk | ⟨-, hnone⟩
    · exact h.absent k hk
    · cases hnone

/-- An element is pushed onto an array. -/
theorem pushElement (h : Decoding N n s) (array : Addr) {element : Addr} (he : Okay N (Below n) s.pool.heap element) :
    Decoding N n (TestCaseDeserializer.pushElement array element s) := by
  have hP : ∀ es, s.pool.heap[array]? = some (.array es) → Below n (.array (es ++ [element])) :=
    fun es _ => below_array _
  refine ⟨h.ok.push array element, ?_, h.region.push he hP, fun k a hk => (h.slots k a hk).push hP, h.result, h.absent⟩
  show N ≤ (s.pool.push array element).heap.length
  rw [ObjectPool.push_length]
  exact h.length

/-- The next call may refer to the result of this one. -/
theorem nextCall (h : Decoding N n s) :
    Decoding N (n + 1) ({ s with context := s.context.setNextValueAsReturnValue n } : TestCaseDeserializer).record := by
  have hmono := below_mono (Nat.le_succ n)
  refine ⟨h.ok, h.length, h.region.mono hmono, fun k a hk => ?_, fun k i hi => ?_, fun k hk => ?_⟩
  · rcases getElem?_concat hk with hk | ⟨-, hnone⟩
    · exact (h.slots k a hk).mono hmono
    · cases hnone
  · change Function.update s.context.retValueIndex s.context.pool.length (some n) k = some i at hi
    by_cases hkl : k = s.context.pool.length
    · rw [hkl, Function.update_self] at hi
      cases hi
      exact Nat.lt_succ_self n
    · rw [Function.update_of_ne hkl] at hi
      exact Nat.lt_succ_of_lt (h.result k i hi)
  · change (Function.update s.context.retValueIndex s.context.pool.length (some n) k).isSome
    by_cases hkl : k = s.context.pool.length
    · rw [hkl, Function.update_self]
      rfl
    · rw [Function.update_of_ne hkl]
      rcases getElem?_concat hk with hk | ⟨hk, -⟩
      · exact h.absent k hk
      · exact absurd hk hkl

end Decoding

theorem DecodedValue.trans {s s₁ s₂ : TestCaseDeserializer} {a b : Addr} (h : DecodedValue N n s a s₁)
    (h' : DecodedValue N n s₁ b s₂) : DecodedValue N n s b s₂ :=
  ⟨h'.decoding, h.ext.trans h'.ext, h'.okay⟩

/-- **A value is read**, and no null pointer. -/
theorem deserializeValue_outcome {fuel : ℕ} {s : TestCaseDeserializer} (h : Decoding N n s) :
    Outcome (· ≠ .badPointer) (fun r => DecodedValue N n s r.1 r.2) (deserializeValue fuel s) := by
  induction fuel generalizing s with
  | zero => exact (by decide : Error.outOfFuel ≠ .badPointer)
  | succ fuel ih =>
    rw [deserializeValue]
    rcases s.input.readByte with ⟨kind, input⟩
    dsimp only
    rcases ValueKind.ofByte? kind with - | kind
    · exact (by decide : Error.unreachable ≠ .badPointer)
    cases kind with
    | undefined => exact h.giveLiteral _ .undefined
    | null => exact h.giveLiteral _ .null
    | boolean => exact h.giveLiteral _ (.boolean _)
    | string => exact h.giveLiteral _ (.string _)
    | function => exact h.giveLiteral _ (.function _)
    | integer => exact h.giveLiteral _ (.integer _)
    | float => exact h.giveLiteral _ (.float _)
    | array =>
      rcases input.readInt 4 with ⟨size, input⟩
      have hg := ObjectPool.createArrayValue_gives h.ok
      -- the objects that were there stay, for elements are pushed onto the new array only
      refine (outcome_readEach (fun _ s' => Decoding N n s' ∧ s.pool.Extends s'.pool ∧
        Okay N (Below n) s'.pool.heap s.pool.createArrayValue.1)
        ⟨h.startArray input, hg.ext, _, hg.get, below_array [], fun _ _ => h.length⟩
        fun _ s' hI => (ih hI.1).mono fun r hr => ?_).bind fun r hr => ⟨hr.1, hr.2.1, hr.2.2⟩
      obtain ⟨-, hx, hok⟩ := hI
      refine ⟨hr.decoding.pushElement _ hr.okay, ?_, (hok.grow hr.ext).push fun es _ => below_array _⟩
      exact push_extends (hx.trans hr.ext) (Nat.le_refl _)
    | placeholder =>
      rcases input.readInt 4 with ⟨index, input⟩
      dsimp only
      unfold DeserializationContext.isReturnValueIndex DeserializationContext.getReturnValueIndex
        DeserializationContext.getValue
      cases hret : s.context.retValueIndex index with
      | some i =>
        refine h.give _ (ObjectPool.getPlaceholderValue_gives h.ok i) (touches_getPlaceholderValue _ _) ?_ ?_
        · rintro j ⟨⟩
          exact h.result index i hret
        · rintro es ⟨⟩
      | none =>
        rcases hslot : s.context.pool[index]? with - | - | a
        · exact (by decide : Error.outOfRange ≠ .badPointer)
        · have := h.absent index hslot
          rw [hret] at this
          cases this
        · exact ⟨h.withInput _ _, ObjectPool.Extends.refl _, h.slots index a hslot⟩

/-- A call was read. -/
structure DecodedCall (N n : ℕ) (s : TestCaseDeserializer) (call : FunctionCall) (s' : TestCaseDeserializer) :
    Prop where
  decoding : Decoding N n s'
  ext : s.pool.Extends s'.pool
  okay : ∀ a ∈ call.roots, Okay N (Below n) s'.pool.heap a

theorem deserializeFunctionCall_outcome {fuel : ℕ} {s : TestCaseDeserializer} (h : Decoding N n s) :
    Outcome (· ≠ .badPointer) (fun r => DecodedCall N n s r.1 r.2) (deserializeFunctionCall fuel s) := by
  rw [deserializeFunctionCall]
  refine (deserializeValue_outcome (h.withInput _ s.trace)).bind ?_
  rintro ⟨thisValue, s₁⟩ h₁
  dsimp only at h₁ ⊢
  rcases s₁.input.readByte with ⟨isCtor, input⟩
  dsimp only
  rcases input.readInt 4 with ⟨argsCount, input⟩
  dsimp only
  have hargs : Outcome (· ≠ .badPointer) (fun r => Decoding N n r.2 ∧ s₁.pool.Extends r.2.pool ∧
      ∀ a ∈ r.1, Okay N (Below n) r.2.pool.heap a)
      (readEach (deserializeValue fuel) (fun _ s => s) argsCount ⟨input, s₁.pool, s₁.context, s₁.trace⟩) := by
    refine outcome_readEach (fun args s' => Decoding N n s' ∧ s₁.pool.Extends s'.pool ∧
      ∀ a ∈ args, Okay N (Below n) s'.pool.heap a) ⟨h₁.decoding.withInput _ _, ObjectPool.Extends.refl _, by simp⟩ ?_
    rintro args s' ⟨hd, hx, hokay⟩
    refine (deserializeValue_outcome hd).mono fun r hr => ⟨hr.decoding, hx.trans hr.ext, fun a ha => ?_⟩
    rcases List.mem_append.1 ha with ha | ha
    · exact (hokay a ha).grow hr.ext
    · rw [List.mem_singleton.1 ha]
      exact hr.okay
  refine hargs.bind ?_
  rintro ⟨args, s₂⟩ ⟨hd, hx, hokay⟩
  refine ⟨hd, h₁.ext.trans hx, fun a ha => ?_⟩
  rcases List.mem_append.1 ha with ha | ha
  · rw [List.mem_singleton.1 ha]
    exact h₁.okay.grow hx
  · exact hokay a ha

/-- **Calls are read**, and call `n + k` refers to earlier ones only. -/
theorem deserializeCalls_outcome {fuel count : ℕ} {s : TestCaseDeserializer} (h : Decoding N n s) :
    Outcome (· ≠ .badPointer) (fun r => s.pool.Extends r.2.pool ∧ ∀ (k : ℕ) call, r.1[k]? = some call →
      ∀ a ∈ call.roots, r.2.pool.heap.Holds (Below (n + k)) a) (deserializeCalls fuel count n s) := by
  induction count generalizing n s with
  | zero =>
    refine ⟨ObjectPool.Extends.refl _, fun k call hk => ?_⟩
    cases hk
  | succ count ih =>
    rw [deserializeCalls]
    refine (deserializeFunctionCall_outcome h).bind fun r₁ h₁ => (ih h₁.decoding.nextCall).bind fun r₂ h₂ => ?_
    obtain ⟨hx, hholds⟩ := h₂
    refine ⟨h₁.ext.trans hx, fun k call hk a ha => ?_⟩
    cases k with
    | zero =>
      cases hk
      exact (h₁.decoding.region.holds (h₁.okay a ha)).grow hx
    | succ k =>
      rw [show n + (k + 1) = n + 1 + k by omega]
      exact hholds k call hk a ha

/-- At the start nothing has a slot. -/
theorem decoding_start {pool : ObjectPool} (hp : ObjectPoolOK pool) (input : MemoryInputStream) :
    Decoding pool.heap.length 0 (new input pool) where
  ok := hp
  length := Nat.le_refl _
  region := Region.start _ _
  slots := by rintro k a ⟨⟩
  result := by rintro k i ⟨⟩
  absent := by rintro k ⟨⟩

/-- **Whatever is accepted is well formed**, and no null pointer is ever read. -/
theorem deserialize_outcome {fuel : ℕ} {pool : ObjectPool} (hp : ObjectPoolOK pool) (input : MemoryInputStream) :
    Outcome (· ≠ .badPointer) (fun r => WellFormed r.2.pool.heap r.1) (deserialize fuel (new input pool)) := by
  rw [deserialize]
  refine (deserializeCalls_outcome ((decoding_start hp input).withInput _ [])).bind fun r hr => ?_
  intro i call hcall a ha
  have hholds := hr.2 i call hcall a ha
  rw [Nat.zero_add] at hholds
  exact sound_iff.2 hholds

/-- **What is accepted can be used**: it is well formed, no null pointer was read for it, it can be written
again, and Synthesis finds everything it refers to. -/
theorem accepted_usable {pool : ObjectPool} (hp : pool.Reachable) (fuel : ℕ) (input : MemoryInputStream) :
    deserialize fuel (new input pool) ≠ .error .badPointer ∧
      ∀ tc s, deserialize fuel (new input pool) = .ok (tc, s) →
        WellFormed s.pool.heap tc ∧ (∃ s', TestCaseSerializer.serialize s.pool.heap tc = .ok s') ∧
          ∀ store : CAFStore, store.HasCalled tc → WritesScript store s.pool.heap tc := by
  have houtcome : Outcome (· ≠ .badPointer) _ (deserialize fuel (new input pool)) := deserialize_outcome hp.ok input
  refine ⟨fun hbad => ?_, fun tc s hread => ?_⟩
  · rw [hbad] at houtcome
    exact houtcome rfl
  · rw [hread] at houtcome
    have hw : WellFormed s.pool.heap tc := houtcome
    obtain ⟨Fs, S, hwalk⟩ := walkSteps_exists hw
    obtain ⟨c, tr, hser, -⟩ := serialize_walk hwalk
    exact ⟨hw, ⟨_, hser⟩, fun store hstore => writesScript_of_walk hwalk hstore⟩

/-- One call, whose `this` is an array with itself as its element, and another with the first result. -/
def cyclicBytes : List UInt8 :=
  [0, 0, 0, 0, 2, 0, 0, 0, 7, 0, 0, 0, 7, 1, 0, 0, 0, 8, 0, 0, 0, 0, 5, 0, 0, 0, 0,
    8, 0, 0, 0, 8, 0, 0, 0, 0, 0, 1, 0, 0, 0, 8, 1, 0, 0, 0]

theorem cyclic_accepted_usable : ∃ tc s, deserialize 9 (new ⟨cyclicBytes, fun _ => 0⟩ .new) = .ok (tc, s) ∧
    WellFormed s.pool.heap tc ∧ WritesScript sampleStore s.pool.heap tc := by
  obtain ⟨tc, s, hread, hcalls⟩ : ∃ tc s, deserialize 9 (new ⟨cyclicBytes, fun _ => 0⟩ .new) = .ok (tc, s) ∧
      tc.calls = [⟨7, some 0, true, []⟩, ⟨8, some 0, false, [1]⟩] := ⟨_, _, rfl, rfl⟩
  obtain ⟨hw, -, hsynth⟩ := (accepted_usable .new 9 ⟨cyclicBytes, fun _ => 0⟩).2 tc s hread
  refine ⟨tc, s, hread, hw, hsynth sampleStore fun call hcall => ?_⟩
  rw [hcalls] at hcall
  rcases List.mem_cons.1 hcall with rfl | hcall
  · exact ⟨⟨7, [102]⟩, rfl⟩
  · rw [List.mem_singleton.1 hcall]
    exact ⟨⟨8, [103, 46, 104]⟩, rfl⟩

end Caf
