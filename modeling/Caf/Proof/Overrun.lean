import Caf.Proof.Levels
import Caf.Proof.Limits

/-!
# Limits over whole runs

A generated call may have five arguments, whatever the options say, and a generated array may be mutated to one with
more levels than allowed.

* `fuzzed_withinLimits_iff`: numbers of calls and arguments.
* `depth_respected_iff`: levels.
-/

namespace Caf

open ObjectGraph Run Caf.Random PlaceholderFixer

variable {gen : TestCaseGenerator} {root n m : ℕ} {p : ObjectPool} {tc : TestCase} {a : Addr} {fs : List Function}

/-! ## What may be generated -/

namespace May

theorem entryAt {store : CAFStore} {i : ℕ} {entry : Entry} (h : store.entries[i]? = some entry) :
    May (store.entryAt i) p fun e q => e = entry ∧ q = p := by
  refine of_eq (fun rnd => ?_) ⟨rfl, rfl⟩
  unfold CAFStore.entryAt CAFStore.getEntry
  rw [h]
  rfl

theorem selectFunction {store : CAFStore} (h : store.HasFunctions root) :
    May (store.selectFunction root) p fun _ q => q = p := by
  obtain ⟨hne, hall⟩ := h
  obtain ⟨d, hd⟩ := List.exists_mem_of_ne_nil _ hne
  obtain ⟨entry, hentry⟩ : ∃ entry, store.entries[root]? = some entry := by
    by_contra hnone
    refine hne ?_
    unfold CAFStore.descendents
    rw [Option.eq_none_iff_forall_ne_some.2 fun e he => hnone ⟨e, he⟩]
    rfl
  obtain ⟨e, he⟩ : ∃ e, store.entries[d]? = some e := by
    by_contra hnone
    have hsome := hall d hd
    unfold CAFStore.func at hsome
    rw [Option.eq_none_iff_forall_ne_some.2 fun e he => hnone ⟨e, he⟩] at hsome
    cases hsome
  rw [descendents_eq hentry] at hd
  obtain ⟨f, hf⟩ := Option.isSome_iff_exists.1 (hall d (by rwa [descendents_eq hentry]))
  rw [func_eq_of_entry he] at hf
  unfold CAFStore.selectFunction
  refine (entryAt hentry).bind ?_
  rintro _ _ ⟨rfl, rfl⟩
  refine (select hd).bind ?_
  rintro _ _ ⟨rfl, rfl⟩
  refine (entryAt he).bind ?_
  rintro _ q ⟨rfl, rfl⟩
  refine May.bind (Q := fun g r => g = f ∧ r = q) (of_eq (fun rnd => ?_) ⟨rfl, rfl⟩) ?_
  · unfold Entry.getFunction
    rw [hf]
    rfl
  · rintro _ _ ⟨rfl, rfl⟩
    exact pure rfl

/-- A value that stays right when arrays get elements. -/
def Stable (T : Option Addr → ObjectPool → Prop) : Prop :=
  ∀ o p q, T o p → Widens p.heap q.heap → T o q

/-- **A test case of one call** may be generated, with any number of arguments up to five. -/
theorem generate_oneCall {T : Option Addr → ObjectPool → Prop} (hT : Stable T) (hmax : 1 ≤ gen.options.maxCalls)
    (hfunctions : gen.store.HasFunctions root) (hthis : May (gen.generateThis root ⟨0⟩) p T) (hm : m ≤ 5) :
    May (gen.generateTestCase root) p fun tc q =>
      ∃ call, tc = ⟨root, [call]⟩ ∧ call.args.length = m ∧ T call.thisValue q := by
  have hcall : May (gen.generateFunctionCall 0 root) p fun call q => call.args.length = m ∧ T call.thisValue q := by
    unfold TestCaseGenerator.generateFunctionCall
    refine (selectFunction hfunctions).bind ?_
    rintro id _ rfl
    refine hthis.bind fun thisValue q hvalue => ?_
    refine (withProbability (by decide) (by decide) false).bind ?_
    rintro _ _ ⟨rfl, rfl⟩
    refine (next (k := m) (Nat.zero_le m) hm).bind ?_
    rintro argsCount q ⟨hcount, rfl⟩
    rw [hcount]
    refine May.bind (Q := fun args r => args.length = m ∧ T thisValue r) ?_ fun args r hargs => pure hargs
    refine (mapM (fun _ r => T thisValue r) hvalue ?_).mono fun args r hargs =>
      ⟨by rw [hargs.1, List.length_range], hargs.2⟩
    intro _ _ _ q hq
    exact (generate_undefined gen.options.maxDepth 1 q).mono fun _ r hw => hT _ _ _ hq hw
  unfold TestCaseGenerator.generateTestCase
  refine (next (k := 1) (Nat.le_refl 1) hmax).bind ?_
  rintro _ p ⟨rfl, rfl⟩
  rw [List.range_one, List.mapM_cons]
  refine May.bind (Q := fun calls q => ∃ call, calls = [call] ∧ call.args.length = m ∧ T call.thisValue q) ?_ ?_
  · refine hcall.bind fun call q hq => ?_
    rw [List.mapM_nil]
    exact (pure (Q := fun calls r => calls = [] ∧ r = q) ⟨rfl, rfl⟩).bind fun calls r hr => pure
      ⟨call, by rw [hr.1], by rw [hr.2]; exact hq⟩
  · rintro calls q ⟨call, rfl, hq⟩
    exact pure ⟨call, rfl, hq⟩

end May

/-! ## Calls and arguments -/

/-- Nothing is asked of values. -/
theorem valueInvariant_true (gen : TestCaseGenerator) (root : ℕ) :
    ValueInvariant gen root (fun _ => True) fun _ _ => True := by
  have hany : ∀ {α : Type} (x : FuzzM α) (s : Fuzzer), Ensures (fun _ => True) x s fun _ _ => True := fun x s =>
    ensures_iff.2 ⟨fun _ _ _ => trivial, fun _ _ => trivial⟩
  have hrightly : ∀ x s, Rightly (fun _ => True) (fun _ _ => True) x s := fun x s =>
    (hany x s).mono fun _ _ _ => ⟨⟨trivial, fun _ => id⟩, trivial⟩
  exact ⟨fun _ _ => trivial, fun _ _ _ _ => id, fun _ s _ => hrightly _ s, fun _ s _ _ _ => hrightly _ s,
    fun _ s _ => hrightly _ s, fun _ _ _ _ _ _ s _ _ => (hany _ s).mono fun _ _ _ => ⟨⟨trivial, fun _ => id⟩, trivial⟩⟩

/-- **The limits of calls and arguments** hold over whole runs just if five arguments are allowed. -/
theorem fuzzed_withinLimits_iff (hfs : fs ≠ []) (hstore : gen.store = CAFStore.addFunctions fs .new)
    (hroot : root < gen.store.entries.length) (hmax : 1 ≤ gen.options.maxCalls) :
    (∀ pool tc, Fuzzed gen root pool tc → tc.WithinLimits gen.options) ↔ 5 ≤ gen.options.maxArguments := by
  constructor
  · intro hlimits
    have hfunctions : gen.store.HasFunctions root := by
      rw [hstore] at hroot ⊢
      exact hasFunctions_addFunctions hfs hroot
    have hthis : May (gen.generateThis root ⟨0⟩) .new fun _ _ => True := by
      unfold TestCaseGenerator.generateThis
      refine (May.withProbability (by decide) (by decide) false).bind ?_
      rintro _ _ ⟨rfl, rfl⟩
      exact May.pure trivial
    -- the number of arguments is drawn up to five, and not up to what the options say
    obtain ⟨rnd, tc, s, hrun, call, rfl, hargs, -⟩ :=
      (May.generate_oneCall (fun _ _ _ _ _ => trivial) hmax hfunctions hthis (Nat.le_refl 5)).run
    obtain ⟨-, -, hall⟩ := hlimits s.pool _ ⟨.new, rnd, _, s, .new, hrun, .start⟩
    exact hargs ▸ hall call (List.mem_singleton_self call)
  · intro hfive pool tc hf
    have hright := fuzzed_right (valueInvariant_true gen root) hfive (Nat.le_refl _) hf
    exact ⟨hright.pos, hright.le, fun call hcall => (hright.calls call hcall).args⟩

theorem small_fuzzed_withinLimits : 5 ≤ ({ maxCalls := 1 } : Options).maxArguments ∧
    ∀ pool tc, Fuzzed ⟨smallStore, { maxCalls := 1 }⟩ 0 pool tc → tc.WithinLimits { maxCalls := 1 } := by
  have hfive : 5 ≤ ({ maxCalls := 1 } : Options).maxArguments := by decide
  exact ⟨hfive, (@fuzzed_withinLimits_iff ⟨smallStore, { maxCalls := 1 }⟩ 0 [⟨7, [102]⟩] (by decide) rfl (by decide)
    (by decide)).2 hfive⟩

/-- Random numbers for one call with five arguments. -/
def fiveArguments (n : ℕ) : ℕ := [0, 0, one.toNat, one.toNat, 5].getD n 0

/-- **Too many arguments** are generated when none are allowed. -/
theorem five_arguments : ∃ pool tc, Fuzzed ⟨smallStore, { maxArguments := 0 }⟩ 0 pool tc ∧
    ¬ tc.WithinLimits { maxArguments := 0 } := by
  obtain ⟨tc, s, hrun, call, hcall, hargs⟩ : ∃ tc s,
      (⟨smallStore, { maxArguments := 0 }⟩ : TestCaseGenerator).generateTestCase 0 ⟨.new, fiveArguments⟩ = .ok (tc, s) ∧
        ∃ call ∈ tc.calls, call.args.length = 5 := ⟨_, _, rfl, _, List.mem_cons_self, rfl⟩
  refine ⟨s.pool, tc, ⟨.new, fiveArguments, tc, s, .new, hrun, .start⟩, fun hlimits => ?_⟩
  have hle : call.args.length ≤ 0 := hlimits.2.2 call hcall
  omega

/-! ## Levels -/

/-- No array, or an empty one because arrays cannot have elements. -/
def Shallow (o : Options) (v : Value) : Prop := ∀ es, v = .array es → es = [] ∧ o.maxArrayLength = 0

/-- The object at `a` is shallow. -/
def ShallowAt (o : Options) (p : ObjectPool) (a : Addr) : Prop := ∃ v, p.heap[a]? = some v ∧ Shallow o v

theorem ShallowAt.levels {o : Options} (h : ShallowAt o p a) : LevelsLE p.heap 1 a := by
  obtain ⟨v, hv, hshallow⟩ := h
  by_cases harray : ∃ es, v = .array es
  · obtain ⟨es, rfl⟩ := harray
    obtain ⟨rfl, -⟩ := hshallow es rfl
    exact .empty hv
  · exact .flat hv fun es hes => harray ⟨es, hes⟩

theorem generatesWithin_shallow (hflat : gen.options.maxDepth = 1 ∨ gen.options.maxArrayLength = 0) (n : ℕ) :
    GeneratesWithin gen root n (Shallow gen.options) := by
  refine ⟨fun l _ _ => ?_, fun d _ f _ => ?_, fun j _ => ?_, fun hdepth es hes fs hfs => ?_⟩
  · rintro es ⟨⟩
  · rintro es ⟨⟩
  · rintro es ⟨⟩
  · cases hfs
    rcases hflat with hone | hzero
    · omega
    · exact ⟨List.length_eq_zero_iff.1 (by omega), hzero⟩

/-- **Shallow values stay so**, when there is one level only. -/
theorem valueInvariant_shallow (hflat : gen.options.maxDepth = 1 ∨ gen.options.maxArrayLength = 0) :
    ValueInvariant gen root PoolReady (ShallowAt gen.options) := by
  have hgrows : ∀ (p q : ObjectPool) (a : Addr), p.heap <+: q.heap → ShallowAt gen.options p a →
      ShallowAt gen.options q a := by
    rintro p q a hx ⟨v, hv, hshallow⟩
    exact ⟨v, getElem?_grows hx hv, hshallow⟩
  have hproceeds : ∀ {p q : ObjectPool}, PoolReady q → p.Extends q → Proceeds PoolReady (ShallowAt gen.options) p q :=
    fun hq hx => ⟨hq, fun a ha => hgrows _ _ a hx ha⟩
  have hsupply : ∀ {p : ObjectPool}, PoolReady p → Supply (Shallow gen.options) p := by
    intro p hp
    refine hp.supply fun l _ => ?_
    rintro es ⟨⟩
  have hnew : ∀ {p q : ObjectPool} {a : Addr}, NewValue (Shallow gen.options) p a q →
      Proceeds PoolReady (ShallowAt gen.options) p q ∧ ShallowAt gen.options q a := fun h =>
    ⟨hproceeds h.ready h.ext, (h.holds List.mem_cons_self).here⟩
  -- what is generated, what is mutated, what refers to a call and what is fixed
  refine ⟨fun p hp => hp.ready, hgrows, fun n s hs => ?_, fun n s a hs ha => ?_, fun j s hs => ?_, ?_⟩
  · exact ((generateValue_supplied (generatesWithin_shallow hflat n) (hsupply hs)).excuse fun _ _ => trivial).mono
      fun a s' h => hnew h.new
  · obtain ⟨v, hv, hshallow⟩ := ha
    have hmutable : Mutable gen.options (fun _ => True) (Shallow gen.options) v := by
      refine ⟨fun _ _ _ _ => by rintro es ⟨⟩, fun es hes es' hle fs hfs => ?_, fun _ => trivial⟩
      cases hfs
      obtain ⟨rfl, hzero⟩ := hshallow es hes
      rw [List.length_nil] at hle
      exact ⟨List.length_eq_zero_iff.1 (by omega), hzero⟩
    have hholds : ∀ {P : Value → Prop}, P v → s.heap.Holds P a := by
      intro P hP
      by_cases harray : ∃ es, v = .array es
      · obtain ⟨es, rfl⟩ := harray
        obtain ⟨rfl, -⟩ := hshallow es rfl
        exact .array hv hP (by simp)
      · exact .flat hv (fun es hes => harray ⟨es, hes⟩) hP
    refine (mutateValueAt_remade (generatesWithin_shallow hflat n) (fun _ _ => trivial) (hsupply hs) (hholds hmutable)
      (by omega) (by omega)).mono fun a' s' h => ?_
    exact ⟨hproceeds h.supply.ready h.mutated.ext, (h.holds (hholds hshallow)).here⟩
  · refine ensures_givePool (R := fun a q => Proceeds PoolReady (ShallowAt gen.options) s.pool q ∧
      ShallowAt gen.options q a) (hnew (newValue_placeholder hs ?_))
    rintro es ⟨⟩
  · -- an empty array has nothing to fix
    intro fixer hfix k fuel a F s hs ha
    cases fuel with
    | zero => exact .throw trivial
    | succ fuel =>
      obtain ⟨v, hv, hshallow⟩ := ha
      unfold fixValue
      refine (readValue_ensures hv).bind ?_
      rintro w t ⟨hw, ht⟩
      subst w t
      cases v with
      | literal l => exact .pure ⟨.refl hs, _, hv, hshallow⟩
      | placeholder j =>
        refine (hfix k j s hs).bind ?_
        rintro a' s' ⟨hp, ha'⟩
        exact .pure ⟨hp, ha'⟩
      | array es =>
        obtain ⟨rfl, -⟩ := hshallow es rfl
        dsimp only
        split
        · exact .pure ⟨.refl hs, _, hv, hshallow⟩
        · exact .pure ⟨.refl hs, _, hv, hshallow⟩

/-- An array as `this`. -/
def ArrayThis (thisValue : Option Addr) (p : ObjectPool) : Prop := ∃ a, thisValue = some a ∧ Deep p.heap 1 a

/-- **A run may exceed the depth**: a call on an array is generated, and the array is mutated. -/
theorem may_exceed_depth (hfunctions : gen.store.HasFunctions root) (hmax : 1 ≤ gen.options.maxCalls)
    (hdepth : 2 ≤ gen.options.maxDepth) (hsize : 1 ≤ gen.options.maxArrayLength) :
    ∃ pool tc, Fuzzed gen root pool tc ∧ ∃ call ∈ tc.calls, ∃ a ∈ call.roots,
      Deep pool.heap gen.options.maxDepth a := by
  have hstable : May.Stable ArrayThis := by
    rintro o p q ⟨a, ho, hd⟩ hw
    exact ⟨a, ho, hd.widen hw⟩
  have hthis : May (gen.generateThis root ⟨0⟩) .new ArrayThis := by
    unfold TestCaseGenerator.generateThis
    refine (May.withProbability (by decide) (by decide) true).bind ?_
    rintro _ _ ⟨rfl, rfl⟩
    have hdeep : May (gen.generateValue root ⟨0⟩) .new fun a q => Deep q.heap 1 a ∧ Widens ObjectPool.new.heap q.heap :=
      May.generate_deep hsize (by omega) (by omega)
    exact (hdeep.mono fun a q ha => ⟨a, rfl, ha.1⟩).map
  obtain ⟨rnd, tc, s, hrun, call, htc, -, a, ha, hd⟩ :=
    (May.generate_oneCall hstable hmax hfunctions hthis (Nat.zero_le 5)).run
  have hmutate : May (TestCaseMutator.mutate gen tc) s.pool fun tc' q =>
      ∃ call ∈ tc'.calls, ∃ a ∈ call.roots, Deep q.heap gen.options.maxDepth a := by
    -- the receiver is mutated as a value of the first level
    have hviable : TestCaseMutator.mutateThis gen ∈ TestCaseMutator.mutators gen tc := by
      simp [TestCaseMutator.mutators]
    unfold TestCaseMutator.mutate
    rw [if_neg (by simpa using List.ne_nil_of_mem hviable)]
    refine (May.select hviable).bind ?_
    rintro _ _ ⟨rfl, rfl⟩
    unfold TestCaseMutator.mutateThis
    refine (May.next (k := 0) (Nat.le_refl 0) (Nat.zero_le _)).bind ?_
    rintro _ _ ⟨rfl, rfl⟩
    refine May.bind (Q := fun c r => c = call ∧ r = s.pool) ?_ ?_
    · subst htc
      exact May.pure ⟨rfl, rfl⟩
    · rintro c q ⟨hc, hq⟩
      subst c q
      rw [ha]
      cases hd with
      | succ hes _ _ =>
        refine (May.mutate_deep hsize (by omega) hes).bind ?_
        rintro a' r ⟨hdeep, -⟩
        subst htc
        exact May.pure ⟨_, List.mem_cons_self, a', List.mem_cons_self, hdeep⟩
  obtain ⟨rnd', tc', s', hrun', hdeep⟩ := hmutate.run
  exact ⟨s'.pool, tc', ⟨.new, rnd, tc, s, .new, hrun, .mutate .start hrun'⟩, hdeep⟩

/-- **Levels are respected** by one mutation just if the value is no array, or arrays cannot have elements, and every
operator has something to do; and by whole runs just if values have only one level, or there are no calls. -/
theorem depth_respected_iff (hfs : fs ≠ []) (hstore : gen.store = CAFStore.addFunctions fs .new)
    (hroot : root < gen.store.entries.length) (hdepth : 1 ≤ gen.options.maxDepth) :
    (∀ pool n a, pool.InMemory → LevelsLE pool.heap gen.options.maxDepth a →
      (MutatesWithinDepth gen root n pool a ↔ (IsArray pool.heap a → gen.options.maxArrayLength = 0) ∧
        ∀ b v, Reach pool.heap.graph a b → pool.heap[b]? = some v → Workable gen.options v)) ∧
    ((∀ pool tc, Fuzzed gen root pool tc → tc.LevelsWithin gen.options.maxDepth pool.heap) ↔
      gen.options.maxCalls = 0 ∨ gen.options.maxDepth = 1 ∨ gen.options.maxArrayLength = 0) := by
  refine ⟨fun pool n a hpool ha => mutatesWithinDepth_iff hfs hstore hroot hdepth hpool ha, ?_, ?_⟩
  · intro hlevels
    by_contra hnot
    push Not at hnot
    obtain ⟨hmax, hone, hsize⟩ := hnot
    have hfunctions : gen.store.HasFunctions root := by
      rw [hstore] at hroot ⊢
      exact hasFunctions_addFunctions hfs hroot
    obtain ⟨pool, tc, hf, call, hcall, a, ha, hdeep⟩ :=
      may_exceed_depth hfunctions (by omega) (by omega) (by omega)
    exact Nat.lt_irrefl _ (hdeep.lt (hlevels pool tc hf call hcall a ha))
  · intro hlimits pool tc hf call hcall a ha
    -- without calls there are no runs, since the generator draws a number from one on
    have hmax : gen.options.maxCalls ≠ 0 := by
      obtain ⟨pool₀, rnd, tc₀, s₀, -, hrun, -⟩ := hf
      intro hzero
      rw [generateTestCase_noCalls hzero] at hrun
      cases hrun
    have hright := fuzzed_right (m := max 5 gen.options.maxArguments)
      (valueInvariant_shallow (hlimits.resolve_left hmax))
      (Nat.le_max_left _ _) (Nat.le_max_right _ _) hf
    exact (((hright.calls call hcall).values a ha).levels).mono hdepth

theorem small_depth_respected :
    MutatesWithinDepth ⟨smallStore, {}⟩ 0 1 emptyStringPool 0 ∧
      ∀ pool tc, Fuzzed ⟨smallStore, { maxDepth := 1 }⟩ 0 pool tc → tc.LevelsWithin 1 pool.heap := by
  have hvalue := (@depth_respected_iff ⟨smallStore, {}⟩ 0 [⟨7, [102]⟩] (by decide) rfl (by decide) (by decide)).1
  have hruns := (@depth_respected_iff ⟨smallStore, { maxDepth := 1 }⟩ 0 [⟨7, [102]⟩] (by decide) rfl (by decide)
    (by decide)).2
  refine ⟨(hvalue emptyStringPool 1 0 emptyStringPool_inMemory (.flat rfl (by rintro es ⟨⟩))).2 ⟨?_, ?_⟩,
    hruns.2 (.inr (.inl rfl))⟩
  · rintro ⟨es, hes⟩
    cases hes
  · exact fun b v _ _ => workable_of_pos (by decide) (by decide) v

/-- A pool with an empty array. -/
def emptyArrayPool : ObjectPool := ObjectPool.new.createArrayValue.2

/-- Random numbers that push an element of three levels. -/
def pushDeep (n : ℕ) : ℕ := [one.toNat, one.toNat, 0, 7, 1, 7, 1, 0].getD n 0

/-- **An empty array gets four levels** when three are allowed. -/
theorem empty_array_deepened : emptyArrayPool.InMemory ∧ LevelsLE emptyArrayPool.heap 3 0 ∧
    ∃ a s, TestCaseMutator.mutateValue ⟨smallStore, { maxDepth := 3 }⟩ 0 0 0 ⟨emptyArrayPool, pushDeep⟩ = .ok (a, s) ∧
      ¬ LevelsLE s.heap 3 a := by
  refine ⟨.op .createArray .new, (LevelsLE.empty rfl).mono (by decide), ?_⟩
  obtain ⟨a, s, hrun, h₁, h₂, h₃⟩ : ∃ (a : Addr) (s : Fuzzer),
      TestCaseMutator.mutateValue ⟨smallStore, { maxDepth := 3 }⟩ 0 0 0 ⟨emptyArrayPool, pushDeep⟩ = .ok (a, s) ∧
        s.heap[a]? = some (.array [1]) ∧ s.heap[1]? = some (.array [2]) ∧ s.heap[2]? = some (.array [3]) :=
    ⟨_, _, rfl, rfl, rfl, rfl⟩
  have hdeep : Deep s.heap 3 a :=
    .succ h₁ (List.mem_singleton_self 1) (.succ h₂ (List.mem_singleton_self 2)
      (.succ h₃ (List.mem_singleton_self 3) (.zero 3)))
  exact ⟨a, s, hrun, fun hl => Nat.lt_irrefl 3 (hdeep.lt hl)⟩

end Caf
