import Caf.Proof.Fuzzing
import Caf.Proof.TreeShaped

/-!
# Sizes of values

What is generated stays within the limits of the options, and so does what becomes of it when it is mutated.

* `generateValue_withinBounds`: levels, sizes and placeholders of a generated value.
* `mutateValue_keeps_sizes`: sizes of strings and arrays.
-/

namespace Caf

open ObjectGraph Run Caf.Random

variable {gen : TestCaseGenerator} {root n : ℕ} {p q : ObjectPool} {s : Fuzzer} {a : Addr} {fs : List Function}

/-- A root entry of a store with functions never leads nowhere. -/
theorem not_stuck (hfs : fs ≠ []) (hstore : gen.store = CAFStore.addFunctions fs .new)
    (hroot : root < gen.store.entries.length) (e : Error) : ¬ Stuck gen.store root e := by
  rintro ⟨-, hno⟩
  rw [hstore] at hroot hno
  exact hno (hasFunctions_addFunctions hfs hroot)

/-! ## Generated values -/

theorem sized_of_flat {o : Options} {v : Value} (hstring : ∀ str, v ≠ .literal (.string str))
    (harray : ∀ es, v ≠ .array es) :
    Sized o v :=
  ⟨fun str hv => absurd hv (hstring str), fun es hv => absurd hv (harray es)⟩

/-- What is generated has the sizes that are allowed, and placeholders for earlier calls. -/
theorem generatesWithin_sized (gen : TestCaseGenerator) (root n : ℕ) :
    GeneratesWithin gen root n fun v => Sized gen.options v ∧ Below n v := by
  refine ⟨fun l _ hl => ⟨⟨fun str hv => ?_, ?_⟩, ?_⟩, fun d _ f _ => ⟨sized_of_flat ?_ ?_, ?_⟩,
    fun j hj => ⟨sized_of_flat ?_ ?_, fun i hi => ?_⟩, fun _ es hes => ⟨⟨?_, fun es' hv => ?_⟩, ?_⟩⟩
  · cases hv
    exact hl str rfl
  · rintro es ⟨⟩
  · rintro j ⟨⟩
  · rintro str ⟨⟩
  · rintro es ⟨⟩
  · rintro j ⟨⟩
  · rintro str ⟨⟩
  · rintro es ⟨⟩
  · cases hi
    exact hj
  · rintro str ⟨⟩
  · cases hv
    exact hes
  · rintro j ⟨⟩

/-- A pool without long strings. -/
theorem PoolReady.supply_sized (h : PoolReady p) {o : Options} (hstrings : p.StringsWithin o.maxStringLength) :
    Supply (fun v => Sized o v ∧ Below n v) p := by
  refine ⟨h, fun a ha => ?_⟩
  obtain ⟨l, -, hget⟩ := h.plain a ha
  refine ⟨_, hget, ⟨fun str hv => ?_, ?_⟩, ?_⟩
  · rw [hv] at hget
    exact hstrings a str ha hget
  · rintro es ⟨⟩
  · rintro j ⟨⟩

/-- **Generated values respect their bounds**, in every pool whose strings do. -/
theorem generateValue_withinBounds (hfs : fs ≠ []) (hstore : gen.store = CAFStore.addFunctions fs .new)
    (hroot : root < gen.store.entries.length) (params : GeneratePlaceholderValueParams) (hpool : s.pool.InMemory)
    (hstrings : s.pool.StringsWithin gen.options.maxStringLength) :
    ∃ a s', gen.generateValue root params s = .ok (a, s') ∧
      WithinBounds gen.options params.currCallIndex s.pool a s'.pool := by
  have hgenerate := generateValue_supplied (s := s) (generatesWithin_sized gen root params.currCallIndex)
    (hpool.ready.supply_sized hstrings)
  obtain ⟨a, s', hrun, hnew⟩ := hgenerate.returns (not_stuck hfs hstore hroot)
  obtain ⟨T, hm, hT, hfresh⟩ := hnew.new.made
  have hmade := hm.mono (Q := fun _ => True) fun _ _ => trivial
  refine ⟨a, s', hrun, hnew.levels.mono ?_, fun b hb => ?_, fun b hb hes => ?_, fun path path' b hp hp' hb => ?_⟩
  · unfold generatedLevels
    split <;> omega
  · obtain ⟨v, hv, hsized, hbelow⟩ := hm.holds List.mem_cons_self b hb
    exact ⟨v, hv, hsized, hbelow⟩
  · obtain ⟨es, hes⟩ := hes
    exact hfresh b (hm.mem_of_reach List.mem_cons_self hb hes)
  · exact (hmade.follow_unique hT (i := 0) (j := 0) rfl rfl hp hp' hb).2

theorem emptyStringPool_inMemory : emptyStringPool.InMemory := .op _ .new

theorem emptyStringPool_stringsWithin : emptyStringPool.StringsWithin 10 := by
  intro a str ha hget
  obtain rfl : a = 0 := List.mem_singleton.1 ha
  cases hget
  exact Nat.zero_le _

/-- Random numbers for an array of an array, of a function and of a string. -/
def valueDraws (n : ℕ) : ℕ :=
  [one.toNat, 7, 3, one.toNat, 7, 1, one.toNat, 7, 1, one.toNat, 4, 0, one.toNat, 3, 2, 0, 1].getD n 0

/-- The inner array has a reference to an earlier call. -/
def valueHeap : Heap :=
  [.literal (.string []), .array [2, 4, 5], .array [3], .placeholder 1, .literal (.function 8),
    .literal (.string (text "ab"))]

theorem value_run : Outcome (fun _ => False) (fun r => r.1 = 1 ∧ r.2.heap = valueHeap)
    ((⟨moduleStore, {}⟩ : TestCaseGenerator).generateValue 3 ⟨2⟩ ⟨emptyStringPool, valueDraws⟩) := by decide +kernel

theorem small_generateValue_withinBounds :
    ∃ s', (⟨moduleStore, {}⟩ : TestCaseGenerator).generateValue 3 ⟨2⟩ ⟨emptyStringPool, valueDraws⟩ = .ok (1, s') ∧
      s'.heap = valueHeap ∧ WithinBounds {} 2 emptyStringPool 1 s'.pool := by
  obtain ⟨⟨_, s'⟩, hrun, rfl, hheap⟩ := value_run.returns
  obtain ⟨a, t, hreturns, hbounds⟩ := @generateValue_withinBounds ⟨moduleStore, {}⟩ 3 ⟨emptyStringPool, valueDraws⟩
    [⟨7, text "fs.open"⟩, ⟨8, text "os.exec"⟩] (by decide) rfl (by decide) ⟨2⟩ emptyStringPool_inMemory
    emptyStringPool_stringsWithin
  rw [hrun] at hreturns
  cases hreturns
  exact ⟨s', hrun, hheap, hbounds⟩

/-! ## Mutated values -/

/-- What is generated for any call has the sizes that are allowed. -/
theorem generatesWithin_sizes (gen : TestCaseGenerator) (root n : ℕ) :
    GeneratesWithin gen root n (Sized gen.options) := by
  have h := generatesWithin_sized gen root n
  exact ⟨fun l hl hstr => (h.literal l hl hstr).1, fun d hd f hf => (h.function d hd f hf).1,
    fun j hj => (h.placeholder j hj).1, fun hdepth es hes => (h.array hdepth es hes).1⟩

/-- Limits that are not zero leave something to do. -/
theorem workable_of_pos {o : Options} (hstring : 1 ≤ o.maxStringLength) (harray : 1 ≤ o.maxArrayLength) (v : Value) :
    Workable o v :=
  ⟨fun _ => by omega, fun _ => by omega⟩

/-- **Mutation keeps sizes within the limits**, at every depth. A string or an array that has reached its limit, or is
beyond it, does not become longer. Mutating stops early only if the root entry leads to no function. -/
theorem mutateValue_keeps_sizes (hstring : 1 ≤ gen.options.maxStringLength) (harray : 1 ≤ gen.options.maxArrayLength)
    (hpool : s.pool.InMemory) {fuel depth : ℕ} (hfuel : gen.options.maxDepth + 1 < fuel + depth) (hpos : fuel ≠ 0) :
    (∀ a, s.pool.StringsWithin gen.options.maxStringLength → s.heap.Holds (Sized gen.options) a →
      Ensures (Stuck gen.store root) (TestCaseMutator.mutateValueAt gen root n fuel a depth) s fun a' s' =>
        s'.heap.Holds (Sized gen.options) a') ∧
    (∀ str : StdString, gen.options.maxStringLength ≤ str.length →
      ∃ a' s' str', TestCaseMutator.mutateString gen str s = .ok (a', s') ∧
        s'.heap[a']? = some (.literal (.string str')) ∧ str'.length ≤ str.length) ∧
    ∀ a es, s.heap[a]? = some (.array es) → s.heap.Holds (fun _ => True) a → gen.options.maxArrayLength ≤ es.length →
      Ensures (Stuck gen.store root) (TestCaseMutator.mutateArray gen root n
          (fun element => TestCaseMutator.mutateValueAt gen root n fuel element depth) es) s fun a' s' =>
        ∃ es', s'.heap[a']? = some (.array es') ∧ es'.length ≤ es.length := by
  have hwork := workable_of_pos hstring harray
  refine ⟨fun a hstrings ha => ?_, fun str hstr => ?_, fun a es hget ha hes => ?_⟩
  · -- a mutated value is no longer than the old one, or within the limits
    have hmutable : ∀ v, Sized gen.options v → Mutable gen.options (Stuck gen.store root) (Sized gen.options) v := by
      intro v hv
      refine ⟨fun str hstr str' hle => ⟨fun t ht => ?_, by rintro es ⟨⟩⟩,
        fun es hes es' hle => ⟨by rintro t ⟨⟩, fun fs hfs => ?_⟩, fun hw => absurd (hwork v) hw⟩
      · cases ht
        have := hv.1 str hstr
        omega
      · cases hfs
        have := hv.2 es hes
        omega
    have hsupply : Supply (Sized gen.options) s.pool := by
      refine ⟨hpool.ready, fun b hb => ?_⟩
      obtain ⟨v, hv, hsized, -⟩ := (hpool.ready.supply_sized (n := 0) hstrings).values b hb
      exact ⟨v, hv, hsized⟩
    exact (mutateValueAt_remade (generatesWithin_sizes gen root n) (fun _ => id) hsupply (ha.mono hmutable) hfuel
      hpos).mono fun _ _ hr => hr.holds ha
  · have hrun : Ensures (fun _ => False) (TestCaseMutator.mutateString gen str) s fun a s' =>
        GivesString (max str.length gen.options.maxStringLength) s.pool a s'.pool :=
      mutateString_gives fun hw => hw (hwork _)
    obtain ⟨a', s', hok, hgives⟩ := hrun.returns fun _ => id
    obtain ⟨str', hget, hle⟩ := hgives.get hpool.ready
    exact ⟨a', s', str', hok, hget, by omega⟩
  · -- sizes do not matter for the elements
    have hgenerates : Generates gen.store root n fun _ => True :=
      ⟨fun _ _ => trivial, fun _ _ _ _ => trivial, fun _ _ => trivial, fun _ => trivial⟩
    have hmutable : ∀ v, Mutable gen.options (Stuck gen.store root) (fun _ => True) v := fun v =>
      ⟨fun _ _ _ _ => trivial, fun _ _ _ _ => trivial, fun hw => absurd (hwork v) hw⟩
    have hsupply := hpool.ready.supply (P := fun _ => True) fun _ _ => trivial
    have hrun := mutateArray_remade hgenerates.within (fun _ => id) hsupply hget (hmutable _) fun e he rnd =>
      mutateValueAt_remade (s := { s with rnd := rnd }) hgenerates.within (fun _ => id) hsupply
        ((ha.elements hget he).mono fun v _ => hmutable v) hfuel hpos
    refine hrun.mono fun a' s' hr => ?_
    obtain ⟨es', hget', hle⟩ := hr.size
    exact ⟨es', hget', by omega⟩

theorem emptyStringPool_sized : emptyStringPool.heap.Holds (Sized {}) 0 := by
  intro b hb
  rcases Relation.ReflTransGen.cases_head hb with rfl | ⟨e, he, -⟩
  · refine ⟨_, rfl, ⟨fun str hv => ?_, ?_⟩⟩
    · cases hv
      exact Nat.zero_le _
    · rintro es ⟨⟩
  · obtain ⟨es, hes, -⟩ := succ_iff.1 he
    cases hes

theorem small_mutateValue_keeps_sizes :
    (∃ a s, TestCaseMutator.mutateValueAt ⟨smallStore, {}⟩ 0 1 4 0 1 ⟨emptyStringPool, fun n => n⟩ = .ok (a, s) ∧
      s.heap.Holds (Sized {}) a) ∧
      ∃ a s str, TestCaseMutator.mutateString ⟨smallStore, {}⟩ (text "0123456789") ⟨emptyStringPool, fun n => n⟩ =
        .ok (a, s) ∧
        s.heap[a]? = some (.literal (.string str)) ∧ str.length ≤ 10 := by
  obtain ⟨hvalue, hstr, -⟩ := @mutateValue_keeps_sizes ⟨smallStore, {}⟩ 0 1 ⟨emptyStringPool, fun n => n⟩
    (by decide) (by decide) emptyStringPool_inMemory 4 1 (by decide) (by decide)
  obtain ⟨a, s, hrun⟩ : ∃ a s,
      TestCaseMutator.mutateValueAt ⟨smallStore, {}⟩ 0 1 4 0 1 ⟨emptyStringPool, fun n => n⟩ = .ok (a, s) := ⟨_, _, rfl⟩
  exact ⟨⟨a, s, hrun, (hvalue 0 emptyStringPool_stringsWithin emptyStringPool_sized).of_ok hrun⟩,
    hstr (text "0123456789") (by decide)⟩

end Caf
