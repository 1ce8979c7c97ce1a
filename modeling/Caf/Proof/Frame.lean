import Caf.Proof.Mutator
import Caf.Spec.Frame

/-!
# What a mutation leaves alone

The operators that write to one call only add objects to the heap, so whatever they do not replace looks the same.

* `SameStructure.of_grows`: a heap with more objects.
* `callOperator_edits`: what each operator writes.
* `leavesAlone`: everything else.
-/

namespace Caf

open ObjectGraph Run Caf.Random

variable {gen : TestCaseGenerator} {s s' : Fuzzer} {tc tc' : TestCase} {h h' : Heap} {a : Addr} {op : CallOperator}

/-! ## Structure -/

/-- **A value in a heap with more objects.** -/
theorem SameStructure.of_grows (ha : h.Holds (fun _ => True) a) (hx : h <+: h') : SameStructure h a h' a := by
  -- every object that can be reached corresponds to itself
  have hsame : ∀ b, h.Holds (fun _ => True) b →
      SameValue Eq h h' (fun b b' => b = b' ∧ h.Holds (fun _ => True) b) b b := by
    intro b hb
    obtain ⟨v, hv, -⟩ := hb.here
    have hv' := getElem?_grows hx hv
    cases v with
    | literal l => exact .literal hv hv' rfl
    | placeholder i => exact .placeholder hv hv'
    | array es => exact .array hv hv' ⟨rfl, hb⟩
  refine ⟨_, hsame a ha, ?_⟩
  rintro b _ es es' ⟨rfl, hb⟩ hes hes'
  have heq : es' = es := by
    rw [getElem?_grows hx hes] at hes'
    cases hes'
    rfl
  subst heq
  refine List.forall₂_same.2 fun e he => hsame e ?_
  exact hb.elements hes he

/-! ## The operators -/

/-- The chosen call has been edited, and objects have only been added. -/
structure EditsOne (op : CallOperator) (tc : TestCase) (s : Fuzzer) (tc' : TestCase) (s' : Fuzzer) : Prop where
  edit : ∃ (n : ℕ) (call call' : FunctionCall), tc.calls[n]? = some call ∧
    tc' = TestCaseMutator.setFunctionCall tc n call' ∧
    op.Edits call call'
  grows : s.heap <+: s'.heap

/-- A call is read, if it exists. -/
theorem ensures_getFunctionCall {n : ℕ} {f : FunctionCall → FuzzM TestCase} {P : TestCase → Fuzzer → Prop}
    (hf : ∀ call, tc.calls[n]? = some call → Ensures (fun _ => True) (f call) s P) :
    Ensures (fun _ => True) (TestCaseMutator.getFunctionCall tc n >>= f) s P := by
  cases hcall : tc.calls[n]? with
  | none =>
    refine Ensures.bind (P := fun _ _ => False) ?_ (by simp)
    unfold TestCaseMutator.getFunctionCall
    rw [hcall]
    exact .throw trivial
  | some call => exact ensures_existingCall hcall (hf call hcall)

/-- A candidate is chosen, if there is one. -/
theorem ensures_selectCandidate {p : ℕ → Bool} {f : ℕ → FuzzM TestCase} {P : TestCase → Fuzzer → Prop}
    (hf : ∀ n rnd call, tc.calls[n]? = some call → p call.args.length = true →
      Ensures (fun _ => True) (f n) { s with rnd := rnd } P) :
    Ensures (fun _ => True) (TestCaseMutator.selectCandidate tc p >>= f) s P := by
  unfold TestCaseMutator.selectCandidate
  by_cases hempty : (TestCaseMutator.candidates tc p).isEmpty = true
  · rw [if_pos hempty]
    exact Ensures.bind (P := fun _ _ => False) (.throw trivial) (by simp)
  · rw [if_neg hempty]
    refine ensures_draw (Draws.select (by simpa using hempty)) fun n rnd hn => ?_
    unfold TestCaseMutator.candidates at hn
    obtain ⟨-, hany⟩ := List.mem_filter.1 hn
    obtain ⟨call, hcall, hp⟩ := (Option.any_eq_true _ _).1 hany
    exact hf n rnd call hcall hp

/-- The values of a call, whatever call it is. -/
theorem holds_root (hw : WellFormed s.heap tc) {n : ℕ} {call : FunctionCall} (hcall : tc.calls[n]? = some call)
    (ha : a ∈ call.roots) : s.heap.Holds (fun _ => True) a :=
  ((wellFormed_iff.1 hw).values n call hcall a ha).mono fun _ _ => trivial

/-- **What each operator writes.** -/
theorem callOperator_edits (op : CallOperator) (h : PoolReady s.pool) (hw : WellFormed s.heap tc) :
    Ensures (fun _ => True) (op.run gen tc) s (EditsOne op tc s) := by
  have hgenerates : ∀ n, Generates gen.store tc.storeRootEntryIndex n fun _ => True := fun n =>
    generates_true gen.store tc.storeRootEntryIndex n
  have hgenerate : ∀ (n : ℕ) (rnd : ℕ → ℕ), Ensures (fun _ => True)
      (gen.generateValue tc.storeRootEntryIndex ⟨n⟩) { s with rnd := rnd } fun _ s' => s.heap <+: s'.heap := by
    intro n rnd
    have hnew := generateValue_ensures (s := { s with rnd := rnd }) (hgenerates n) h
    exact (hnew.excuse fun _ _ => trivial).mono fun a s' ha => ha.ext
  have hmutate : ∀ (n : ℕ) (rnd : ℕ → ℕ) a, s.heap.Holds (fun _ => True) a → Ensures (fun _ => True)
      (TestCaseMutator.mutateValue gen tc.storeRootEntryIndex n a) { s with rnd := rnd } fun _ s' =>
        s.heap <+: s'.heap := by
    intro n rnd a ha
    have hnew := mutateValue_ensures (s := { s with rnd := rnd }) (hgenerates n) h ha
    exact (hnew.excuse fun _ _ => trivial).mono fun a s' ha => ha.ext
  cases op with
  | mutateThis =>
    show Ensures _ (TestCaseMutator.mutateThis gen tc) s _
    unfold TestCaseMutator.mutateThis
    refine ensures_draw (Draws.next (Nat.zero_le _)) fun n rnd _ => ?_
    refine ensures_getFunctionCall fun call hcall => ?_
    have hreceiver : Ensures (fun _ => True)
        (TestCaseMutator.mutateReceiver gen tc.storeRootEntryIndex n call.thisValue) { s with rnd := rnd } fun _ s' =>
          s.heap <+: s'.heap := by
      unfold TestCaseMutator.mutateReceiver
      cases hthis : call.thisValue with
      | none => exact hgenerate n rnd
      | some a => exact hmutate n rnd a (holds_root hw hcall (List.mem_append_left _ (by simp [hthis])))
    exact hreceiver.bind fun a s' hx => .pure ⟨⟨n, call, _, hcall, rfl, a, rfl⟩, hx⟩
  | mutateCtor =>
    show Ensures _ (TestCaseMutator.mutateCtor tc) s _
    unfold TestCaseMutator.mutateCtor
    refine ensures_draw (Draws.next (Nat.zero_le _)) fun n rnd _ => ?_
    refine ensures_getFunctionCall fun call hcall => ?_
    exact .pure ⟨⟨n, call, _, hcall, rfl, rfl⟩, List.prefix_refl _⟩
  | addArgument =>
    show Ensures _ (TestCaseMutator.addArgument gen tc) s _
    unfold TestCaseMutator.addArgument
    refine ensures_selectCandidate fun n rnd _ _ _ => ?_
    refine ensures_getFunctionCall fun call hcall => ?_
    exact (hgenerate n rnd).bind fun a s' hx => .pure ⟨⟨n, call, _, hcall, rfl, a, rfl⟩, hx⟩
  | removeArgument =>
    show Ensures _ (TestCaseMutator.removeArgument tc) s _
    unfold TestCaseMutator.removeArgument
    refine ensures_selectCandidate fun n rnd c hc hargs => ?_
    refine ensures_getFunctionCall fun call hcall => ?_
    obtain rfl : c = call := Option.some.inj (hc.symm.trans hcall)
    -- only calls with arguments are candidates
    have hpos : 0 < c.args.length := of_decide_eq_true hargs
    refine ensures_draw (Draws.next (Nat.zero_le _)) fun i rnd' hi => ?_
    have hlt : i < c.args.length := lastIndex_lt (by omega) hi.2
    exact .pure ⟨⟨n, c, _, hcall, rfl, i, hlt, rfl⟩, List.prefix_refl _⟩
  | mutateArgument =>
    show Ensures _ (TestCaseMutator.mutateArgument gen tc) s _
    unfold TestCaseMutator.mutateArgument
    refine ensures_selectCandidate fun n rnd _ _ _ => ?_
    refine ensures_getFunctionCall fun call hcall => ?_
    refine ensures_draw (Draws.next (Nat.zero_le _)) fun i rnd' _ => ?_
    rcases hi : call.args[i]? with - | arg
    · exact .throw trivial
    · have hlt := (List.getElem?_eq_some_iff.1 hi).1
      have harg := holds_root hw hcall (List.mem_append_right _ (List.mem_of_getElem? hi))
      exact (hmutate n rnd' arg harg).bind fun a s' hx => .pure ⟨⟨n, call, _, hcall, rfl, i, hlt, a, rfl⟩, hx⟩

/-- **Everything else is left alone.** -/
theorem leavesAlone (hpool : s.pool.InMemory) (hw : WellFormed s.heap tc) (hrun : op.run gen tc s = .ok (tc', s')) :
    LeavesAlone op s.heap tc s'.heap tc' := by
  have hedits := Ensures.of_ok (callOperator_edits op hpool.ready hw) hrun
  obtain ⟨n, call, call', hcall, htc, hedit⟩ := hedits.edit
  have hlt := (List.getElem?_eq_some_iff.1 hcall).1
  have hcalls : tc'.calls = tc.calls.set n call' := by
    rw [htc]
    rfl
  refine ⟨by rw [htc]; rfl, by rw [hcalls, List.length_set], ⟨n, call, call', hcall, ?_, hedit, fun m hm => ?_⟩,
    fun c hc a ha => ?_, fun b es hb => getElem?_grows hedits.grows hb⟩
  · rw [hcalls, List.getElem?_set_self hlt]
  · rw [hcalls, List.getElem?_set_ne hm.symm]
  · obtain ⟨m, hm⟩ := List.mem_iff_getElem?.1 hc
    exact SameStructure.of_grows (holds_root hw hm ha) hedits.grows

/-- The argument of the last call of three that share an array is mutated. -/
theorem cyclic_leavesAlone :
    ∃ tc s, CallOperator.mutateArgument.run ⟨smallStore, {}⟩ cyclicCase ⟨cyclicPool, fun _ => 0⟩ =
    .ok (tc, s) ∧ LeavesAlone .mutateArgument cyclicPool.heap cyclicCase s.heap tc := by
  obtain ⟨tc, s, hrun⟩ : ∃ tc s, CallOperator.mutateArgument.run ⟨smallStore, {}⟩ cyclicCase ⟨cyclicPool, fun _ => 0⟩ =
    .ok (tc, s) := ⟨_, _, rfl⟩
  exact ⟨tc, s, hrun, leavesAlone (s := ⟨cyclicPool, fun _ => 0⟩) cyclicPool_inMemory cyclicCase_wellFormed hrun⟩

end Caf
