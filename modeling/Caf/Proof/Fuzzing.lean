import Caf.Proof.Descendents
import Caf.Proof.Mutator
import Caf.Proof.Serialize

/-!
# Whole runs of the fuzzer

What one mutation keeps holds of every test case that a fuzzer can come to.

* `fuzzed_keeps`: the invariant of a run.
* `mutate_returns`: no mutation can fail.
* `references_point_backwards`, `stays_in_root`: what it says.
-/

namespace Caf

open ObjectGraph Run Caf.Random

variable {I : FunctionIdType → Prop} {gen : TestCaseGenerator} {root : ℕ} {s s' : Fuzzer} {tc tc' tc₀ : TestCase}
  {pool pool₀ : ObjectPool}

/-! ## The invariant -/

/-- What holds of every test case of a fuzzer. -/
structure Kept (I : FunctionIdType → Prop) (root : ℕ) (pool : ObjectPool) (tc : TestCase) : Prop where
  ready : PoolReady pool
  root : tc.storeRootEntryIndex = root
  nonempty : tc.calls ≠ []
  sane : Sane I pool.heap tc

/-- Other objects do not matter. -/
theorem Sane.grow {h h' : Heap} (hs : Sane I h tc) (hx : h <+: h') : Sane I h' tc :=
  ⟨hs.callees, fun n call hcall a ha => (hs.values n call hcall a ha).grow hx⟩

theorem OwnArrays.grow {h h' : Heap} {as : List Addr} (ho : OwnArrays h as) (hx : h <+: h') : OwnArrays h' as := by
  obtain ⟨T, hm, hT⟩ := ho
  exact ⟨T, hm.grow hx, hT⟩

/-- **Any number of mutations** keep the invariant. -/
theorem Mutations.keeps (hI : Admits gen.store root I) (hm : Mutations gen pool₀ tc₀ pool tc)
    (h₀ : Kept I root pool₀ tc₀) :
    Kept I root pool tc ∧ (OwnArrays pool₀.heap tc₀.roots → OwnArrays pool.heap tc.roots) := by
  induction hm with
  | start => exact ⟨h₀, id⟩
  | @mutate pool rnd tc tc' s _ hrun ih =>
    obtain ⟨hk, hown⟩ := ih
    obtain rfl := hk.root
    have hmut := (mutate_ensures (s := ⟨pool, rnd⟩) hI hk.ready hk.sane hk.nonempty).of_ok hrun
    exact ⟨⟨hmut.ready, hmut.root, hmut.nonempty, hmut.sane⟩, fun ho => hmut.own (hown ho)⟩
  | create _ hpool hx ih =>
    obtain ⟨hk, hown⟩ := ih
    exact ⟨⟨hpool.ready, hk.root, hk.nonempty, hk.sane.grow hx⟩, fun ho => (hown ho).grow hx⟩

/-- Without calls to generate there is no test case. -/
theorem generateTestCase_noCalls (hmax : gen.options.maxCalls = 0) (s : Fuzzer) :
    gen.generateTestCase root s = .error .emptyRange := by
  unfold TestCaseGenerator.generateTestCase Random.next
  rw [hmax]
  rfl

/-- **A generated test case** satisfies the invariant, and its arrays are its own. -/
theorem generated_kept (hI : Admits gen.store root I) (h : PoolReady s.pool) (hmax : 1 ≤ gen.options.maxCalls) :
    Ensures (Stuck gen.store root) (gen.generateTestCase root) s fun tc s' =>
      Kept I root s'.pool tc ∧ OwnArrays s'.heap tc.roots := by
  refine (generateTestCase_ensures (P := Allowed I) hI.generates h hmax).mono ?_
  rintro tc s' ⟨hroot, hne, hnew⟩
  refine ⟨⟨hnew.values.ready, hroot, hne, fun call hcall => ?_, hnew.holds⟩, ?_⟩
  · obtain ⟨d, hd, f, hf, hid⟩ := hnew.callees call hcall
    rw [← hid]
    exact hI d hd f hf
  · obtain ⟨T, hm, hT, -⟩ := hnew.values.made
    exact ⟨T, hm, hT⟩

/-- **The invariant of a run.** -/
theorem fuzzed_keeps (hI : Admits gen.store root I) (hf : Fuzzed gen root pool tc) :
    Kept I root pool tc ∧ OwnArrays pool.heap tc.roots := by
  obtain ⟨pool₀, rnd, tc₀, s₀, hpool, hrun, hm⟩ := hf
  have hmax : 1 ≤ gen.options.maxCalls := by
    by_contra hzero
    rw [generateTestCase_noCalls (by omega)] at hrun
    cases hrun
  obtain ⟨hk, hown⟩ := (generated_kept (s := ⟨pool₀, rnd⟩) hI hpool.ready hmax).of_ok hrun
  obtain ⟨hk', hown'⟩ := hm.keeps hI hk
  exact ⟨hk', hown' hown⟩

/-! ## References -/

/-- A well-formed test case can be serialized. -/
theorem serialize_returns {h : Heap} (hw : WellFormed h tc) : ∃ out, TestCaseSerializer.serialize h tc = .ok out := by
  obtain ⟨Fs, S, hwalk⟩ := walkSteps_exists hw
  obtain ⟨c, tr, hser, -⟩ := serialize_walk hwalk
  exact ⟨_, hser⟩

/-- **References only point backwards.** A generated test case is well formed, and so is every mutated one.
Generating stops only when the root entry leads to no function or no calls are allowed, and mutating when the root
entry leads to no function or the limits leave nothing to do. No test case of a fuzzer refers to a call without a
return value. -/
theorem references_point_backwards (hpool : s.pool.InMemory) :
    Ensures (fun e => Stuck gen.store root e ∨ gen.options.maxCalls = 0) (gen.generateTestCase root) s
      (fun tc s' => tc.calls ≠ [] ∧ WellFormed s'.heap tc) ∧
    (∀ tc, WellFormed s.heap tc → tc.calls ≠ [] → Ensures (Blocked gen tc.storeRootEntryIndex)
      (TestCaseMutator.mutate gen tc) s fun tc' s' => tc'.calls ≠ [] ∧ WellFormed s'.heap tc') ∧
    (∀ tc pool' tc', WellFormed s.heap tc → tc.calls ≠ [] → Mutations gen s.pool tc pool' tc' →
      WellFormed pool'.heap tc' ∧ ∃ out, TestCaseSerializer.serialize pool'.heap tc' = .ok out) ∧
    ∀ pool' tc, Fuzzed gen root pool' tc →
      WellFormed pool'.heap tc ∧ ∃ out, TestCaseSerializer.serialize pool'.heap tc = .ok out := by
  refine ⟨?_, fun tc hw hne => ?_, fun tc pool' tc' hw hne hm => ?_, fun pool' tc hf => ?_⟩
  · by_cases hmax : 1 ≤ gen.options.maxCalls
    · refine ((generated_kept (admits_true _ _) hpool.ready hmax).excuse fun e he => .inl he).mono ?_
      rintro tc s' ⟨hk, -⟩
      exact ⟨hk.nonempty, wellFormed_iff.2 hk.sane⟩
    · exact .of_error (generateTestCase_noCalls (by omega) s) (.inr (by omega))
  · refine (mutate_ensures (admits_true _ _) hpool.ready (wellFormed_iff.1 hw) hne).mono ?_
    exact fun tc' s' hm => ⟨hm.nonempty, wellFormed_iff.2 hm.sane⟩
  · have hk := (hm.keeps (admits_true gen.store tc.storeRootEntryIndex) ⟨hpool.ready, rfl, hne, wellFormed_iff.1 hw⟩).1
    have hw' := wellFormed_iff.2 hk.sane
    exact ⟨hw', serialize_returns hw'⟩
  · have hk := (fuzzed_keeps (admits_true gen.store root) hf).1
    have hw := wellFormed_iff.2 hk.sane
    exact ⟨hw, serialize_returns hw⟩

/-- Three calls that share a cyclic array can be mutated. -/
theorem cyclic_references_point_backwards :
    (∃ tc s, TestCaseMutator.mutate ⟨smallStore, {}⟩ cyclicCase ⟨cyclicPool, fun _ => 0⟩ = .ok (tc, s) ∧
      WellFormed s.heap tc) ∧
      ∃ tc s, (⟨smallStore, {}⟩ : TestCaseGenerator).generateTestCase 0 ⟨cyclicPool, fun _ => 0⟩ = .ok (tc, s) ∧
        WellFormed s.heap tc := by
  obtain ⟨hgenerate, hmutate, -⟩ :=
    @references_point_backwards ⟨smallStore, {}⟩ 0 ⟨cyclicPool, fun _ => 0⟩ cyclicPool_inMemory
  constructor
  · obtain ⟨tc, s, hrun⟩ : ∃ tc s,
        TestCaseMutator.mutate ⟨smallStore, {}⟩ cyclicCase ⟨cyclicPool, fun _ => 0⟩ = .ok (tc, s) := ⟨_, _, rfl⟩
    exact ⟨tc, s, hrun, ((hmutate cyclicCase cyclicCase_wellFormed (by decide)).of_ok hrun).2⟩
  · obtain ⟨tc, s, hrun⟩ : ∃ tc s,
        (⟨smallStore, {}⟩ : TestCaseGenerator).generateTestCase 0 ⟨cyclicPool, fun _ => 0⟩ = .ok (tc, s) := ⟨_, _, rfl⟩
    exact ⟨tc, s, hrun, (hgenerate.of_ok hrun).2⟩

/-- A pool with an empty string. -/
def emptyStringPool : ObjectPool := ((PoolOp.get (.string [])).apply .new).2

/-- A call on the empty string. -/
def emptyStringCase : TestCase := ⟨0, [⟨7, some 0, false, []⟩]⟩

/-- Random numbers that choose the first operator, and no new value. -/
def keepValue (n : ℕ) : ℕ := if n < 2 then 0 else one.toNat

theorem emptyStringCase_wellFormed : WellFormed emptyStringPool.heap emptyStringCase := by
  intro n call hcall a ha
  rcases n with - | n
  · cases hcall
    rw [List.mem_singleton.1 ha]
    exact sound_iff.2 (.flat (v := .literal (.string [])) rfl (by simp) (by rintro j ⟨⟩))
  · cases hcall

/-- **Limits of zero** leave nothing to generate, and nothing to do to an empty string. -/
theorem zero_limits_fail :
    (¬ ∃ tc s, (⟨smallStore, { maxCalls := 0 }⟩ : TestCaseGenerator).generateTestCase 0 ⟨.new, fun _ => 0⟩ =
      .ok (tc, s)) ∧
      WellFormed emptyStringPool.heap emptyStringCase ∧
      ¬ ∃ tc s, TestCaseMutator.mutate ⟨smallStore, { maxCalls := 1, maxStringLength := 0 }⟩ emptyStringCase
        ⟨emptyStringPool, keepValue⟩ = .ok (tc, s) := by
  refine ⟨?_, emptyStringCase_wellFormed, ?_⟩
  · rintro ⟨tc, s, hrun⟩
    cases hrun
  · rintro ⟨tc, s, hrun⟩
    have hfail : TestCaseMutator.mutate ⟨smallStore, { maxCalls := 1, maxStringLength := 0 }⟩ emptyStringCase
        ⟨emptyStringPool, keepValue⟩ = .error .assertion := rfl
    rw [hfail] at hrun
    cases hrun

/-! ## No failures -/

/-- Every entry of a store with a function leads to functions. -/
theorem hasFunctions_addFunctions {fs : List Function} (hfs : fs ≠ [])
    (hroot : root < (CAFStore.addFunctions fs .new).entries.length) :
    (CAFStore.addFunctions fs .new).HasFunctions root := by
  obtain ⟨paths, h⟩ := CAFStore.addFunctions_inv fs
  obtain ⟨p, hp⟩ : ∃ p, paths[root]? = some p := ⟨_, List.getElem?_eq_getElem (h.trie.length ▸ hroot)⟩
  obtain ⟨d₀, hd₀⟩ := h.exists_descendent hfs hp
  refine ⟨List.ne_nil_of_mem hd₀, fun d hd => ?_⟩
  obtain ⟨-, -, -, -, -, hf⟩ := (h.mem_iff root d).1 hd
  exact hf

/-- **No mutation can fail**, when the store has a function and strings and arrays may have an element, whatever the
arrays are shared with, however long strings and arrays are, and whatever is drawn. -/
theorem mutate_returns {fs : List Function} (hfs : fs ≠ []) (hstore : gen.store = CAFStore.addFunctions fs .new)
    (hstring : 1 ≤ gen.options.maxStringLength) (harray : 1 ≤ gen.options.maxArrayLength) (hpool : s.pool.InMemory)
    (hwf : WellFormed s.heap tc) (hne : tc.calls ≠ []) (hroot : tc.storeRootEntryIndex < gen.store.entries.length) :
    ∃ tc' s', TestCaseMutator.mutate gen tc s = .ok (tc', s') ∧ tc'.calls ≠ [] := by
  have hmutate := mutate_ensures (admits_true gen.store tc.storeRootEntryIndex) hpool.ready (wellFormed_iff.1 hwf) hne
  have hfunctions : gen.store.HasFunctions tc.storeRootEntryIndex := by
    rw [hstore] at hroot ⊢
    exact hasFunctions_addFunctions hfs hroot
  have hnone : ∀ e, ¬ Blocked gen tc.storeRootEntryIndex e := by
    rintro e ⟨-, hno | hno | hno⟩
    · exact hno hfunctions
    · omega
    · omega
  obtain ⟨tc', s', hrun, hm⟩ := hmutate.returns hnone
  exact ⟨tc', s', hrun, hm.nonempty⟩

theorem cyclic_mutate_returns :
    ∃ tc s, TestCaseMutator.mutate ⟨smallStore, {}⟩ cyclicCase ⟨cyclicPool, fun n => n⟩ = .ok (tc, s) ∧ tc.calls ≠ [] :=
  @mutate_returns ⟨smallStore, {}⟩ ⟨cyclicPool, fun n => n⟩ cyclicCase [⟨7, [102]⟩] (by decide) rfl (by decide)
    (by decide)
    cyclicPool_inMemory cyclicCase_wellFormed (by decide) (by decide)

/-! ## The root entry -/

/-- The descendents of an entry are in its subtree. -/
theorem heldIn_of_descendent {fs : List Function} {store : CAFStore} (hstore : store = CAFStore.addFunctions fs .new) :
    Admits store root (store.HeldIn root) := by
  subst hstore
  intro d hd f hf
  obtain ⟨paths, h⟩ := CAFStore.addFunctions_inv fs
  obtain ⟨p, q, hp, -⟩ := (h.mem_iff root d).1 hd
  exact ⟨d, ((h.mem_iff_inSubtree hp d).1 hd).1, f, hf, rfl⟩

/-- **A test case never leaves its root entry**: its functions, and the function values in it, are held in the
subtree of the entry. -/
theorem stays_in_root {fs : List Function} (hstore : gen.store = CAFStore.addFunctions fs .new)
    (hf : Fuzzed gen root pool tc) :
    tc.storeRootEntryIndex = root ∧ ∀ call ∈ tc.calls, gen.store.HeldIn root call.funcId ∧
      ∀ a ∈ call.roots, ∀ b id, Reach pool.heap.graph a b → pool.heap[b]? = some (.literal (.function id)) →
        gen.store.HeldIn root id := by
  have hk := (fuzzed_keeps (heldIn_of_descendent hstore) hf).1
  refine ⟨hk.root, fun call hcall => ⟨hk.sane.callees call hcall, fun a ha b id hb hget => ?_⟩⟩
  obtain ⟨n, hn⟩ := List.mem_iff_getElem?.1 hcall
  obtain ⟨v, hv, hallowed⟩ := hk.sane.values n call hn a ha b hb
  rw [hget] at hv
  cases hv
  exact hallowed.2 id rfl

/-- Two modules with a function each. The second module has entry 3, and its function entry 4. -/
def moduleStore : CAFStore := CAFStore.addFunctions [⟨7, text "fs.open"⟩, ⟨8, text "os.exec"⟩] .new

/-- Random numbers for two calls: with an array of a function and of an array, and with an array of a placeholder and
of a function. -/
def nestedDraws (n : ℕ) : ℕ :=
  [1, 0, one.toNat, one.toNat, 1, 7, 2, 4, 0, 7, 1, 0, 0, one.toNat, one.toNat, 1, 7, 2, 8, 0, 4, 0].getD n 0

/-- The calls, after one more has been added in front. -/
def nestedCalls : List FunctionCall :=
  [⟨8, some 5, true, []⟩, ⟨8, none, false, [2]⟩, ⟨8, none, false, [6]⟩]

/-- Their objects, behind those of the pool. The reference in the last array follows the call that it is to. -/
def nestedHeap : Heap :=
  [.array [1, 0], .placeholder 0, .array [3, 4], .literal (.function 8), .array [5], .literal .undefined,
    .array [7, 3], .placeholder 1]

theorem nested_run : Outcome (fun _ => False) (fun r => Outcome (fun _ => False)
    (fun r => r.1.calls = nestedCalls ∧ r.2.heap = nestedHeap)
    (TestCaseMutator.mutate ⟨moduleStore, {}⟩ r.1 ⟨r.2.pool, fun _ => 0⟩))
    ((⟨moduleStore, {}⟩ : TestCaseGenerator).generateTestCase 3 ⟨cyclicPool, nestedDraws⟩) := by decide +kernel

/-- A test case that was generated from the entry of a module and mutated once, next to a cyclic array. -/
theorem nested_fuzzed : ∃ (s : Fuzzer) (tc : TestCase), tc.calls = nestedCalls ∧ s.heap = nestedHeap ∧
    Fuzzed ⟨moduleStore, {}⟩ 3 s.pool tc := by
  obtain ⟨⟨tc₀, s₀⟩, hgen, hmutate⟩ := nested_run.returns
  obtain ⟨⟨tc, s⟩, hmut, hcalls, hheap⟩ := hmutate.returns
  exact ⟨s, tc, hcalls, hheap, cyclicPool, _, tc₀, s₀, cyclicPool_inMemory, hgen, .mutate .start hmut⟩

/-- All functions that are called, and that are in arguments, are those of the module. -/
theorem small_stays_in_root : ∃ (pool : ObjectPool) (tc : TestCase), tc.calls = nestedCalls ∧ pool.heap = nestedHeap ∧
    Fuzzed ⟨moduleStore, {}⟩ 3 pool tc ∧ tc.storeRootEntryIndex = 3 ∧
    ∀ call ∈ tc.calls, moduleStore.HeldIn 3 call.funcId ∧ ∀ a ∈ call.roots, ∀ b id, Reach pool.heap.graph a b →
      pool.heap[b]? = some (.literal (.function id)) → moduleStore.HeldIn 3 id := by
  obtain ⟨s, tc, hcalls, hheap, hf⟩ := nested_fuzzed
  obtain ⟨hroot, hheld⟩ := @stays_in_root _ _ _ _ [⟨7, text "fs.open"⟩, ⟨8, text "os.exec"⟩] rfl hf
  exact ⟨s.pool, tc, hcalls, hheap, hf, hroot, hheld⟩

end Caf
