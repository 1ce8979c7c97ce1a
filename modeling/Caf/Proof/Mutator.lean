import Caf.Proof.Replaced
import Mathlib.Data.List.Flatten

/-!
# One mutation

Whichever operator is chosen, a sane test case stays sane, keeps its root entry and at least one call, and no
array gets a second place in it.

* `mutate_ensures`: what `Mutate` does, and what is needed for this.
-/

namespace Caf

open ObjectGraph Run Caf.Random PlaceholderFixer

variable {I : FunctionIdType → Prop} {gen : TestCaseGenerator} {root : ℕ} {s s' : Fuzzer} {tc tc' : TestCase}

/-- All values in the positions of calls. -/
def TestCase.roots (tc : TestCase) : List Addr := tc.calls.flatMap FunctionCall.roots

theorem OwnArrays.sublist {h : Heap} {as bs : List Addr} (ha : OwnArrays h as) (hs : bs.Sublist as) :
    OwnArrays h bs := by
  obtain ⟨T, hm, hT⟩ := ha
  obtain ⟨S, hS, hsub⟩ := hm.sublist hs
  exact ⟨S, hS, hsub.nodup hT⟩

/-! ## Arrays when calls are inserted and removed -/

theorem newPlaceholder_ensures {E : Error → Prop} (h : PoolReady s.pool) (j : ℕ) :
    Ensures E (givePool (·.getPlaceholderValue j)) s fun a s' => NewValue (fun _ => True) s.pool a s'.pool :=
  ensures_givePool (newValue_placeholder h trivial)

theorem fixAdded_new (index : ℕ) : FixerNew (TestCaseMutator.fixAdded index) := by
  intro k j s h
  unfold TestCaseMutator.fixAdded
  exact newPlaceholder_ensures h _

theorem fixRemoved_new (gen : TestCaseGenerator) (root index : ℕ) :
    FixerNew (TestCaseMutator.fixRemoved gen root index) := by
  intro k j s h
  unfold TestCaseMutator.fixRemoved
  split
  · exact (generateValue_ensures (generates_true gen.store root k) h).excuse fun _ _ => trivial
  · exact newPlaceholder_ensures h _

theorem addFunctionCall_ownArrays (h : PoolReady s.pool) (hown : OwnArrays s.heap tc.roots) :
    Ensures (fun _ => True) (TestCaseMutator.addFunctionCall gen tc) s fun tc' s' => OwnArrays s'.heap tc'.roots := by
  unfold TestCaseMutator.addFunctionCall
  refine ensures_draw (Draws.next (Nat.zero_le _)) fun index rnd hindex => ?_
  have hcall := (generateFunctionCall_ensures (s := { s with rnd := rnd })
    (generates_true gen.store tc.storeRootEntryIndex index) h).excuse (D := fun _ => True) fun _ _ => trivial
  refine hcall.bind ?_
  rintro call s₁ ⟨hnew, -⟩
  refine ensures_insertFunctionCall hindex.2 ?_
  refine fix_ownArrays (fixAdded_new index) hnew.ready ?_
  have hr := (Refilled.generated hnew).context ((tc.calls.take index).flatMap FunctionCall.roots)
    ((tc.calls.drop index).flatMap FunctionCall.roots)
  rw [List.nil_append, ← List.flatMap_append, List.take_append_drop] at hr
  have howned := hr.ownArrays hown
  rwa [← List.flatMap_cons, ← List.flatMap_append, ← insertIdx_eq hindex.2] at howned

theorem removeFunctionCall_ownArrays (h : PoolReady s.pool) (hown : OwnArrays s.heap tc.roots) :
    Ensures (fun _ => True) (TestCaseMutator.removeFunctionCall gen tc) s fun tc' s' =>
      OwnArrays s'.heap tc'.roots := by
  unfold TestCaseMutator.removeFunctionCall
  refine ensures_draw (Draws.next (Nat.zero_le _)) fun index rnd hindex => ?_
  refine ensures_eraseFunctionCall (fun _ => ?_) fun _ => trivial
  refine fix_ownArrays (s := { s with rnd := rnd }) (fixRemoved_new gen tc.storeRootEntryIndex index) h
    (hown.sublist ?_)
  exact (List.eraseIdx_sublist _ _).flatMap _

/-! ## Any operator -/

/-- **What a mutation keeps.** -/
structure Mutates (I : FunctionIdType → Prop) (h : Heap) (tc tc' : TestCase) (s' : Fuzzer) : Prop where
  ready : PoolReady s'.pool
  root : tc'.storeRootEntryIndex = tc.storeRootEntryIndex
  nonempty : tc'.calls ≠ []
  sane : Sane I s'.heap tc'
  own : OwnArrays h tc.roots → OwnArrays s'.heap tc'.roots

theorem EditsCall.mutates (he : EditsCall I tc s tc' s') (hs : Sane I s.heap tc) (hne : tc.calls ≠ []) :
    Mutates I s.heap tc tc' s' := by
  obtain ⟨n, call, call', he⟩ := he
  refine ⟨he.values.ready, ?_, ?_, he.sane hs, he.roots.ownArrays⟩
  · rw [he.eq]
    rfl
  · rw [← List.length_pos_iff, he.length, List.length_pos_iff]
    exact hne

theorem addFunctionCall_mutates (hI : Admits gen.store tc.storeRootEntryIndex I) (h : PoolReady s.pool)
    (hs : Sane I s.heap tc) :
    Ensures (Blocked gen tc.storeRootEntryIndex) (TestCaseMutator.addFunctionCall gen tc) s fun tc' s' =>
      Mutates I s.heap tc tc' s' := by
  have hadd := (addFunctionCall_ensures hI h hs).excuse (D := Blocked gen tc.storeRootEntryIndex) fun _ => Stuck.blocked
  by_cases hown : OwnArrays s.heap tc.roots
  · refine (hadd.and (addFunctionCall_ownArrays h hown)).mono ?_
    rintro tc' s' ⟨⟨hready, index, -, hi⟩, hown'⟩
    have hlen := hi.length
    refine ⟨hready, hi.root, fun hnil => ?_, hi.sane hs, fun _ => hown'⟩
    rw [hnil] at hlen
    simp at hlen
  · refine hadd.mono ?_
    rintro tc' s' ⟨hready, index, -, hi⟩
    have hlen := hi.length
    refine ⟨hready, hi.root, fun hnil => ?_, hi.sane hs, fun hown' => absurd hown' hown⟩
    rw [hnil] at hlen
    simp at hlen

theorem removeFunctionCall_mutates (hI : Admits gen.store tc.storeRootEntryIndex I) (h : PoolReady s.pool)
    (hs : Sane I s.heap tc)
    (hlen : 1 < tc.calls.length) :
    Ensures (Blocked gen tc.storeRootEntryIndex) (TestCaseMutator.removeFunctionCall gen tc) s fun tc' s' =>
      Mutates I s.heap tc tc' s' := by
  have hne : tc.calls ≠ [] := List.ne_nil_of_length_pos (by omega)
  have hremove := (@removeFunctionCall_ensures _ gen _ _ h hs hne).excuse (D := Blocked gen tc.storeRootEntryIndex)
    fun _ => Stuck.blocked
  have hleft : ∀ {index h' tc'}, Erased gen index s.heap tc h' tc' → tc'.calls ≠ [] := by
    intro index h' tc' he hnil
    have hlength := he.retargeted.length
    rw [hnil, List.length_eraseIdx_of_lt he.lt] at hlength
    simp only [List.length_nil] at hlength
    omega
  by_cases hown : OwnArrays s.heap tc.roots
  · refine (hremove.and (removeFunctionCall_ownArrays h hown)).mono ?_
    rintro tc' s' ⟨⟨hready, index, -, he⟩, hown'⟩
    exact ⟨hready, he.root, hleft he, he.sane hI hs, fun _ => hown'⟩
  · refine hremove.mono ?_
    rintro tc' s' ⟨hready, index, -, he⟩
    exact ⟨hready, he.root, hleft he, he.sane hI hs, fun hown' => absurd hown' hown⟩

/-- **`Mutate`**, of a test case with at least one call. -/
theorem mutate_ensures (hI : Admits gen.store tc.storeRootEntryIndex I) (h : PoolReady s.pool) (hs : Sane I s.heap tc)
    (hne : tc.calls ≠ []) :
    Ensures (Blocked gen tc.storeRootEntryIndex) (TestCaseMutator.mutate gen tc) s fun tc' s' =>
      Mutates I s.heap tc tc' s' := by
  have hedit : ∀ {E : Error → Prop} {x : FuzzM TestCase} {rnd : ℕ → ℕ},
      Ensures E x { s with rnd := rnd } (EditsCall I tc { s with rnd := rnd }) →
        Ensures E x { s with rnd := rnd } fun tc' s' => Mutates I s.heap tc tc' s' := fun hx =>
    hx.mono fun tc' s' he => he.mutates hs hne
  apply ensures_mutate
  · exact fun _ rnd => addFunctionCall_mutates (s := { s with rnd := rnd }) hI h hs
  · exact fun hlen rnd => removeFunctionCall_mutates (s := { s with rnd := rnd }) hI h hs hlen
  · exact fun rnd => hedit (mutateThis_ensures (s := { s with rnd := rnd }) hI h hs hne)
  · exact fun rnd => hedit (mutateCtor_ensures (s := { s with rnd := rnd }) h hne)
  · exact fun hany rnd => hedit (addArgument_ensures (s := { s with rnd := rnd }) hI h hany)
  · exact fun hany rnd => hedit (removeArgument_ensures (s := { s with rnd := rnd }) h hany)
  · exact fun hany rnd => hedit (mutateArgument_ensures (s := { s with rnd := rnd }) hI h hs hany)

end Caf
