import Caf.Proof.Frame
import Caf.Proof.Sizes

/-!
# From values to test cases

Whatever is kept by generating and mutating values is kept by whole runs of the fuzzer, and so is the number of
arguments of a call, if new calls do not have too many.

* `ValueInvariant`: what is kept of the pool and its values.
* `mutate_right`: one mutation.
* `fuzzed_right`: a whole run.
-/

namespace Caf

open ObjectGraph Run Caf.Random PlaceholderFixer

/-- A pool to go on with: it is good, and values that were right are so still. -/
structure Proceeds (G : ObjectPool → Prop) (V : ObjectPool → Addr → Prop) (p q : ObjectPool) : Prop where
  good : G q
  keeps : ∀ a, V p a → V q a

/-- If the program returns, the value is right. -/
def Rightly (G : ObjectPool → Prop) (V : ObjectPool → Addr → Prop) (x : FuzzM Addr) (s : Fuzzer) : Prop :=
  Ensures (fun _ => True) x s fun a s' => Proceeds G V s.pool s'.pool ∧ V s'.pool a

/-- **What the generator and the mutator keep** of a good pool and of right values, and the placeholder fixer if its
function does. -/
structure ValueInvariant (gen : TestCaseGenerator) (root : ℕ) (G : ObjectPool → Prop) (V : ObjectPool → Addr → Prop) :
    Prop where
  memory : ∀ p : ObjectPool, p.InMemory → G p
  grows : ∀ (p q : ObjectPool) (a : Addr), p.heap <+: q.heap → V p a → V q a
  generate : ∀ n s, G s.pool → Rightly G V (gen.generateValue root ⟨n⟩) s
  mutate : ∀ n s a, G s.pool → V s.pool a → Rightly G V (TestCaseMutator.mutateValue gen root n a) s
  placeholder : ∀ j s, G s.pool → Rightly G V (givePool (·.getPlaceholderValue j)) s
  fix : ∀ fixer : Fixer, (∀ k j s, G s.pool → Rightly G V (fixer k j) s) → ∀ k fuel a F s, G s.pool → V s.pool a →
    Ensures (fun _ => True) (fixValue fixer k fuel a F) s fun r s' => Proceeds G V s.pool s'.pool ∧ V s'.pool r.1

variable {gen : TestCaseGenerator} {root m : ℕ} {G : ObjectPool → Prop} {V : ObjectPool → Addr → Prop} {s s' : Fuzzer}
  {p q r : ObjectPool} {tc tc' : TestCase} {call : FunctionCall} {calls : List FunctionCall} {fixer : Fixer}

theorem Proceeds.refl (h : G p) : Proceeds G V p p := ⟨h, fun _ => id⟩

theorem Proceeds.trans (h : Proceeds G V p q) (h' : Proceeds G V q r) : Proceeds G V p r :=
  ⟨h'.good, fun a ha => h'.keeps a (h.keeps a ha)⟩

/-- A call with at most `m` arguments, and with right values. -/
structure RightCall (V : ObjectPool → Addr → Prop) (m : ℕ) (p : ObjectPool) (call : FunctionCall) : Prop where
  args : call.args.length ≤ m
  values : ∀ a ∈ call.roots, V p a

theorem RightCall.proceeds (hc : RightCall V m p call) (h : Proceeds G V p q) : RightCall V m q call :=
  ⟨hc.args, fun a ha => h.keeps a (hc.values a ha)⟩

/-- A test case with such calls, neither none nor too many. -/
structure RightCase (gen : TestCaseGenerator) (root : ℕ) (V : ObjectPool → Addr → Prop) (m : ℕ) (p : ObjectPool)
    (tc : TestCase) : Prop where
  root : tc.storeRootEntryIndex = root
  pos : 1 ≤ tc.calls.length
  le : tc.calls.length ≤ gen.options.maxCalls
  calls : ∀ call ∈ tc.calls, RightCall V m p call

/-- A step to another test case. -/
def StepsTo (gen : TestCaseGenerator) (root : ℕ) (G : ObjectPool → Prop) (V : ObjectPool → Addr → Prop) (m : ℕ)
    (p : ObjectPool) (tc' : TestCase) (s' : Fuzzer) : Prop :=
  Proceeds G V p s'.pool ∧ RightCase gen root V m s'.pool tc'

/-! ## Generated calls -/

theorem generateThis_right (hV : ValueInvariant gen root G V) (n : ℕ) (h : G s.pool) :
    Ensures (fun _ => True) (gen.generateThis root ⟨n⟩) s fun thisValue s' =>
      Proceeds G V s.pool s'.pool ∧ ∀ a ∈ thisValue.toList, V s'.pool a := by
  unfold TestCaseGenerator.generateThis
  refine ensures_draw (Draws.withProbability _) fun b rnd _ => ?_
  cases b
  · exact .pure ⟨.refl h, by simp⟩
  · refine ((hV.generate n { s with rnd := rnd } h).mono ?_).map
    rintro a s' ⟨hp, ha⟩
    refine ⟨hp, fun b hb => ?_⟩
    rw [List.mem_singleton.1 hb]
    exact ha

/-- **A new call** has at most five arguments. -/
theorem generateFunctionCall_right (hV : ValueInvariant gen root G V) (hm : 5 ≤ m) (n : ℕ) (h : G s.pool) :
    Ensures (fun _ => True) (gen.generateFunctionCall n root) s fun call s' =>
      Proceeds G V s.pool s'.pool ∧ RightCall V m s'.pool call := by
  unfold TestCaseGenerator.generateFunctionCall
  refine (selectFunction_ensures.excuse (D := fun _ => True) fun _ _ => trivial).bind ?_
  rintro calleeId s₀ ⟨hpool, -⟩
  dsimp only
  rw [← hpool] at h ⊢
  set params := if n ≠ 0 then GeneratePlaceholderValueParams.setCurrentCallIndex {} n else {} with hparams
  refine (generateThis_right hV params.currCallIndex h).bind ?_
  rintro thisValue s₁ ⟨hp₁, hthis⟩
  refine ensures_draw (Draws.withProbability _) fun ctor rnd _ => ?_
  refine ensures_draw (Draws.next (Nat.zero_le 5)) fun argsCount rnd' hcount => ?_
  have hargs : Ensures (fun _ => True) ((List.range argsCount).mapM fun _ => gen.generateValue root params)
      { s₁ with rnd := rnd' } fun args s' => args.length = (List.range argsCount).length ∧
        Proceeds G V s₁.pool s'.pool ∧ ∀ a ∈ args, V s'.pool a := by
    refine Ensures.mapM (fun args (s' : Fuzzer) => Proceeds G V s₁.pool s'.pool ∧ ∀ a ∈ args, V s'.pool a)
      ⟨.refl hp₁.good, by simp⟩ ?_
    rintro done i s' - ⟨hp, hdone⟩
    refine (hV.generate params.currCallIndex s' hp.good).mono ?_
    rintro a s'' ⟨hp', ha⟩
    refine ⟨hp.trans hp', fun b hb => ?_⟩
    rcases List.mem_append.1 hb with hb | hb
    · exact hp'.keeps b (hdone b hb)
    · rw [List.mem_singleton.1 hb]
      exact ha
  refine hargs.bind ?_
  rintro args s₂ ⟨hlen, hp₂, hvalues⟩
  refine .pure ⟨hp₁.trans hp₂, ?_, fun a ha => ?_⟩
  · rw [List.length_range] at hlen
    show args.length ≤ m
    omega
  · rcases List.mem_append.1 ha with ha | ha
    · exact hp₂.keeps a (hthis a ha)
    · exact hvalues a ha

/-- **A generated test case.** -/
theorem generateTestCase_right (hV : ValueInvariant gen root G V) (hm : 5 ≤ m)
    (hmax : 1 ≤ gen.options.maxCalls) (h : G s.pool) :
    Ensures (fun _ => True) (gen.generateTestCase root) s (StepsTo gen root G V m s.pool) := by
  unfold TestCaseGenerator.generateTestCase
  refine ensures_draw (Draws.next hmax) fun callsCount rnd hcount => ?_
  have hcalls : Ensures (fun _ => True) ((List.range callsCount).mapM fun i => gen.generateFunctionCall i root)
      { s with rnd := rnd } fun calls s' => calls.length = (List.range callsCount).length ∧
        Proceeds G V s.pool s'.pool ∧ ∀ call ∈ calls, RightCall V m s'.pool call := by
    refine Ensures.mapM (fun calls (s' : Fuzzer) =>
      Proceeds G V s.pool s'.pool ∧ ∀ call ∈ calls, RightCall V m s'.pool call) ⟨.refl h, by simp⟩ ?_
    rintro done i s' - ⟨hp, hdone⟩
    refine (generateFunctionCall_right hV hm i hp.good).mono ?_
    rintro call s'' ⟨hp', hcall⟩
    refine ⟨hp.trans hp', fun c hc => ?_⟩
    rcases List.mem_append.1 hc with hc | hc
    · exact (hdone c hc).proceeds hp'
    · rw [List.mem_singleton.1 hc]
      exact hcall
  refine hcalls.bind ?_
  rintro calls s' ⟨hlen, hp, hall⟩
  rw [List.length_range] at hlen
  refine .pure ⟨hp, rfl, ?_, ?_, hall⟩
  · show 1 ≤ calls.length
    omega
  · show calls.length ≤ _
    omega

/-! ## Fixed calls -/

/-- The fixer gives right values. -/
abbrev FixesRightly (G : ObjectPool → Prop) (V : ObjectPool → Addr → Prop) (fixer : Fixer) : Prop :=
  ∀ k j s, G s.pool → Rightly G V (fixer k j) s

theorem fixAdded_rightly (hV : ValueInvariant gen root G V) (index : ℕ) :
    FixesRightly G V (TestCaseMutator.fixAdded index) := by
  intro k j s h
  unfold TestCaseMutator.fixAdded
  exact hV.placeholder _ s h

theorem fixRemoved_rightly (hV : ValueInvariant gen root G V) (index : ℕ) :
    FixesRightly G V (TestCaseMutator.fixRemoved gen root index) := by
  intro k j s h
  unfold TestCaseMutator.fixRemoved
  split
  · exact hV.generate k s h
  · exact hV.placeholder _ s h

theorem fixValues_right (hV : ValueInvariant gen root G V) (hfix : FixesRightly G V fixer) {k fuel : ℕ}
    {as F : List Addr}
    (h : G s.pool) (has : ∀ a ∈ as, V s.pool a) :
    Ensures (fun _ => True) (fixValues fixer k fuel as F) s fun r s' =>
      Proceeds G V s.pool s'.pool ∧ r.1.length = as.length ∧ ∀ a ∈ r.1, V s'.pool a := by
  induction as generalizing F s with
  | nil => exact .pure ⟨.refl h, rfl, by simp⟩
  | cons a as ih =>
    unfold fixValues
    refine (hV.fix fixer hfix k fuel a F s h (has a List.mem_cons_self)).bind ?_
    rintro ⟨a', F₁⟩ s₁ ⟨hp₁, ha'⟩
    dsimp only at ha' ⊢
    refine (ih hp₁.good fun b hb => hp₁.keeps b (has b (List.mem_cons_of_mem _ hb))).bind ?_
    rintro ⟨as', F₂⟩ s₂ ⟨hp₂, hlen, has'⟩
    dsimp only at hlen has' ⊢
    refine .pure ⟨hp₁.trans hp₂, by rw [List.length_cons, hlen, List.length_cons], fun b hb => ?_⟩
    rcases List.mem_cons.1 hb with rfl | hb
    · exact hp₂.keeps _ ha'
    · exact has' b hb

theorem fixCall_right (hV : ValueInvariant gen root G V) (hfix : FixesRightly G V fixer) {k fuel : ℕ} {F : List Addr}
    (h : G s.pool) (hc : RightCall V m s.pool call) :
    Ensures (fun _ => True) (fixCall fixer k fuel call F) s fun r s' =>
      Proceeds G V s.pool s'.pool ∧ RightCall V m s'.pool r.1 := by
  unfold fixCall
  refine (fixValues_right hV hfix h fun a ha => hc.values a (List.mem_append_left _ ha)).bind ?_
  rintro ⟨this', F₁⟩ s₁ ⟨hp₁, -, hthis⟩
  dsimp only at hthis ⊢
  refine (fixValues_right hV hfix hp₁.good fun a ha => hp₁.keeps a (hc.values a (List.mem_append_right _ ha))).bind ?_
  rintro ⟨args', F₂⟩ s₂ ⟨hp₂, hlen, hargs⟩
  dsimp only at hlen hargs ⊢
  refine .pure ⟨hp₁.trans hp₂, ?_, fun a ha => ?_⟩
  · show args'.length ≤ m
    rw [hlen]
    exact hc.args
  · rcases List.mem_append.1 ha with ha | ha
    · exact hp₂.keeps a (hthis a (List.mem_of_mem_head? (Option.mem_toList.1 ha)))
    · exact hargs a ha

/-- **Calls** are fixed one after the other. -/
theorem fixCalls_right (hV : ValueInvariant gen root G V) (hfix : FixesRightly G V fixer) {fuel i : ℕ} {F : List Addr}
    (h : G s.pool) (hcalls : ∀ call ∈ calls, RightCall V m s.pool call) :
    Ensures (fun _ => True) (fixCalls fixer fuel i calls F) s fun calls' s' =>
      Proceeds G V s.pool s'.pool ∧ calls'.length = calls.length ∧ ∀ call ∈ calls', RightCall V m s'.pool call := by
  induction calls generalizing i F s with
  | nil => exact .pure ⟨.refl h, rfl, by simp⟩
  | cons call calls ih =>
    unfold fixCalls
    refine (fixCall_right hV hfix h (hcalls call List.mem_cons_self)).bind ?_
    rintro ⟨call', F₁⟩ s₁ ⟨hp₁, hc⟩
    dsimp only at hc ⊢
    refine (ih hp₁.good fun c hmem => (hcalls c (List.mem_cons_of_mem _ hmem)).proceeds hp₁).bind ?_
    rintro calls' s₂ ⟨hp₂, hlen, hcalls'⟩
    refine .pure ⟨hp₁.trans hp₂, by rw [List.length_cons, hlen, List.length_cons], fun c hmem => ?_⟩
    rcases List.mem_cons.1 hmem with rfl | hmem
    · exact hc.proceeds hp₂
    · exact hcalls' c hmem

theorem fix_right (hV : ValueInvariant gen root G V) (hfix : FixesRightly G V fixer) (start : ℕ) (h : G s.pool)
    (hc : RightCase gen root V m s.pool tc) :
    Ensures (fun _ => True) (PlaceholderFixer.fix fixer start tc) s (StepsTo gen root G V m s.pool) := by
  unfold PlaceholderFixer.fix
  refine Ensures.bind (P := fun t s' => t = s ∧ s' = s) ⟨rfl, rfl⟩ ?_
  rintro t s' ⟨ht, hs⟩
  subst t s'
  refine (fixCalls_right hV hfix h fun call hcall => hc.calls call (List.mem_of_mem_drop hcall)).bind ?_
  rintro calls' s' ⟨hp, hlen, hcalls'⟩
  have hlength : (tc.calls.take start ++ calls').length = tc.calls.length := by
    rw [List.length_append, hlen, ← List.length_append, List.take_append_drop]
  refine .pure ⟨hp, hc.root, ?_, ?_, fun call hcall => ?_⟩
  · exact hlength ▸ hc.pos
  · exact hlength ▸ hc.le
  · rcases List.mem_append.1 hcall with hcall | hcall
    · exact (hc.calls call (List.mem_of_mem_take hcall)).proceeds hp
    · exact hcalls' call hcall

/-! ## Mutated test cases -/

/-- One call is replaced by a right one. -/
theorem RightCase.set {n : ℕ} (hc : RightCase gen root V m p tc) (hp : Proceeds G V p q) {call' : FunctionCall}
    (hcall' : RightCall V m q call') : RightCase gen root V m q (TestCaseMutator.setFunctionCall tc n call') := by
  have hlength : (tc.calls.set n call').length = tc.calls.length := List.length_set
  refine ⟨hc.root, ?_, ?_, fun c hmem => ?_⟩
  · exact hlength ▸ hc.pos
  · exact hlength ▸ hc.le
  · rcases List.mem_or_eq_of_mem_set hmem with hmem | rfl
    · exact (hc.calls c hmem).proceeds hp
    · exact hcall'

theorem addFunctionCall_right (hV : ValueInvariant gen root G V) (hm : 5 ≤ m) (h : G s.pool)
    (hc : RightCase gen root V m s.pool tc) (hlt : tc.calls.length < gen.options.maxCalls) :
    Ensures (fun _ => True) (TestCaseMutator.addFunctionCall gen tc) s (StepsTo gen root G V m s.pool) := by
  unfold TestCaseMutator.addFunctionCall
  refine ensures_draw (Draws.next (Nat.zero_le _)) fun index rnd hindex => ?_
  rw [hc.root]
  refine (generateFunctionCall_right (s := { s with rnd := rnd }) hV hm index h).bind ?_
  rintro call s₁ ⟨hp₁, hcall⟩
  refine ensures_insertFunctionCall hindex.2 ?_
  have hlength : (tc.calls.insertIdx index call).length = tc.calls.length + 1 :=
    List.length_insertIdx_of_le_length hindex.2 call
  have hinserted : RightCase gen root V m s₁.pool { tc with calls := tc.calls.insertIdx index call } := by
    refine ⟨hc.root, by show 1 ≤ (tc.calls.insertIdx index call).length; omega,
      by show (tc.calls.insertIdx index call).length ≤ _; omega, fun c hmem => ?_⟩
    rcases List.eq_or_mem_of_mem_insertIdx hmem with rfl | hmem
    · exact hcall
    · exact (hc.calls c hmem).proceeds hp₁
  exact (fix_right hV (fixAdded_rightly hV index) (index + 1) hp₁.good hinserted).mono fun _ _ hstep =>
    ⟨hp₁.trans hstep.1, hstep.2⟩

theorem removeFunctionCall_right (hV : ValueInvariant gen root G V) (h : G s.pool)
    (hc : RightCase gen root V m s.pool tc) (hlt : 1 < tc.calls.length) :
    Ensures (fun _ => True) (TestCaseMutator.removeFunctionCall gen tc) s (StepsTo gen root G V m s.pool) := by
  unfold TestCaseMutator.removeFunctionCall
  refine ensures_draw (Draws.next (Nat.zero_le _)) fun index rnd hindex => ?_
  have hindex : index < tc.calls.length := lastIndex_lt (by omega) hindex.2
  refine ensures_eraseFunctionCall (fun _ => ?_) fun _ => trivial
  have hlength : (tc.calls.eraseIdx index).length = tc.calls.length - 1 := List.length_eraseIdx_of_lt hindex
  have hle := hc.le
  have herased : RightCase gen root V m s.pool { tc with calls := tc.calls.eraseIdx index } := by
    refine ⟨hc.root, by show 1 ≤ (tc.calls.eraseIdx index).length; omega,
      by show (tc.calls.eraseIdx index).length ≤ _; omega, fun c hmem => ?_⟩
    exact hc.calls c (List.mem_of_mem_eraseIdx hmem)
  have hfix : FixesRightly G V (TestCaseMutator.fixRemoved gen tc.storeRootEntryIndex index) := by
    rw [hc.root]
    exact fixRemoved_rightly hV index
  exact fix_right (s := { s with rnd := rnd }) hV hfix index h herased

theorem mutateThis_right (hV : ValueInvariant gen root G V) (h : G s.pool) (hc : RightCase gen root V m s.pool tc) :
    Ensures (fun _ => True) (TestCaseMutator.mutateThis gen tc) s (StepsTo gen root G V m s.pool) := by
  unfold TestCaseMutator.mutateThis
  refine ensures_draw (Draws.next (Nat.zero_le _)) fun n rnd _ => ?_
  refine ensures_getFunctionCall fun call hcall => ?_
  have hright := hc.calls call (List.mem_of_getElem? hcall)
  rw [hc.root]
  have hreceiver : Rightly G V (TestCaseMutator.mutateReceiver gen root n call.thisValue) { s with rnd := rnd } := by
    unfold TestCaseMutator.mutateReceiver
    cases hthis : call.thisValue with
    | none => exact hV.generate n _ h
    | some a => exact hV.mutate n { s with rnd := rnd } a h (hright.values a (List.mem_append_left _ (by simp [hthis])))
  refine hreceiver.bind ?_
  rintro a s' ⟨hp, ha⟩
  refine .pure ⟨hp, hc.set hp ⟨hright.args, fun b hb => ?_⟩⟩
  rcases List.mem_append.1 hb with hb | hb
  · rw [List.mem_singleton.1 hb]
    exact ha
  · exact hp.keeps b (hright.values b (List.mem_append_right _ hb))

theorem mutateCtor_right (h : G s.pool) (hc : RightCase gen root V m s.pool tc) :
    Ensures (fun _ => True) (TestCaseMutator.mutateCtor tc) s (StepsTo gen root G V m s.pool) := by
  unfold TestCaseMutator.mutateCtor
  refine ensures_draw (Draws.next (Nat.zero_le _)) fun n rnd _ => ?_
  refine ensures_getFunctionCall fun call hcall => ?_
  have hright := hc.calls call (List.mem_of_getElem? hcall)
  exact .pure ⟨.refl h, hc.set (.refl h) ⟨hright.args, hright.values⟩⟩

theorem addArgument_right (hV : ValueInvariant gen root G V) (hm : gen.options.maxArguments ≤ m) (h : G s.pool)
    (hc : RightCase gen root V m s.pool tc) :
    Ensures (fun _ => True) (TestCaseMutator.addArgument gen tc) s (StepsTo gen root G V m s.pool) := by
  unfold TestCaseMutator.addArgument
  refine ensures_selectCandidate fun n rnd c hget hargs => ?_
  refine ensures_getFunctionCall fun call hcall => ?_
  obtain rfl : c = call := Option.some.inj (hget.symm.trans hcall)
  have hlt : c.args.length < gen.options.maxArguments := of_decide_eq_true hargs
  have hright := hc.calls c (List.mem_of_getElem? hcall)
  rw [hc.root]
  refine (hV.generate n { s with rnd := rnd } h).bind ?_
  rintro a s' ⟨hp, ha⟩
  refine .pure ⟨hp, hc.set hp ⟨?_, fun b hb => ?_⟩⟩
  · show (c.args ++ [a]).length ≤ m
    rw [List.length_append, List.length_singleton]
    omega
  · rcases List.mem_append.1 hb with hb | hb
    · exact hp.keeps b (hright.values b (List.mem_append_left _ hb))
    · rcases List.mem_append.1 hb with hb | hb
      · exact hp.keeps b (hright.values b (List.mem_append_right _ hb))
      · rw [List.mem_singleton.1 hb]
        exact ha

theorem removeArgument_right (h : G s.pool) (hc : RightCase gen root V m s.pool tc) :
    Ensures (fun _ => True) (TestCaseMutator.removeArgument tc) s (StepsTo gen root G V m s.pool) := by
  unfold TestCaseMutator.removeArgument
  refine ensures_selectCandidate fun n rnd _ _ _ => ?_
  refine ensures_getFunctionCall fun call hcall => ?_
  have hright := hc.calls call (List.mem_of_getElem? hcall)
  refine ensures_draw (Draws.next (Nat.zero_le _)) fun i rnd' _ => ?_
  refine .pure ⟨.refl h, hc.set (.refl h) ⟨Nat.le_trans (List.length_eraseIdx_le _ _) hright.args, fun b hb => ?_⟩⟩
  rcases List.mem_append.1 hb with hb | hb
  · exact hright.values b (List.mem_append_left _ hb)
  · exact hright.values b (List.mem_append_right _ (List.mem_of_mem_eraseIdx hb))

theorem mutateArgument_right (hV : ValueInvariant gen root G V) (h : G s.pool) (hc : RightCase gen root V m s.pool tc) :
    Ensures (fun _ => True) (TestCaseMutator.mutateArgument gen tc) s (StepsTo gen root G V m s.pool) := by
  unfold TestCaseMutator.mutateArgument
  refine ensures_selectCandidate fun n rnd _ _ _ => ?_
  refine ensures_getFunctionCall fun call hcall => ?_
  have hright := hc.calls call (List.mem_of_getElem? hcall)
  refine ensures_draw (Draws.next (Nat.zero_le _)) fun i rnd' _ => ?_
  rcases hi : call.args[i]? with - | arg
  · exact .throw trivial
  · rw [hc.root]
    refine (hV.mutate n { s with rnd := rnd' } arg h
      (hright.values arg (List.mem_append_right _ (List.mem_of_getElem? hi)))).bind ?_
    rintro a s' ⟨hp, ha⟩
    refine .pure ⟨hp, hc.set hp ⟨?_, fun b hb => ?_⟩⟩
    · show (call.args.set i a).length ≤ m
      rw [List.length_set]
      exact hright.args
    · rcases List.mem_append.1 hb with hb | hb
      · exact hp.keeps b (hright.values b (List.mem_append_left _ hb))
      · rcases List.mem_or_eq_of_mem_set hb with hb | rfl
        · exact hp.keeps b (hright.values b (List.mem_append_right _ hb))
        · exact ha

/-- **One mutation**, by whichever operator. -/
theorem mutate_right (hV : ValueInvariant gen root G V) (hm : 5 ≤ m) (hargs : gen.options.maxArguments ≤ m)
    (h : G s.pool)
    (hc : RightCase gen root V m s.pool tc) :
    Ensures (fun _ => True) (TestCaseMutator.mutate gen tc) s (StepsTo gen root G V m s.pool) := by
  apply ensures_mutate
  · exact fun hlt rnd => addFunctionCall_right (s := { s with rnd := rnd }) hV hm h hc hlt
  · exact fun hlt rnd => removeFunctionCall_right (s := { s with rnd := rnd }) hV h hc hlt
  · exact fun rnd => mutateThis_right (s := { s with rnd := rnd }) hV h hc
  · exact fun rnd => mutateCtor_right (s := { s with rnd := rnd }) h hc
  · exact fun _ rnd => addArgument_right (s := { s with rnd := rnd }) hV hargs h hc
  · exact fun _ rnd => removeArgument_right (s := { s with rnd := rnd }) h hc
  · exact fun _ rnd => mutateArgument_right (s := { s with rnd := rnd }) hV h hc

/-- **A whole run**, by induction on the mutations. -/
theorem fuzzed_right (hV : ValueInvariant gen root G V) (hm : 5 ≤ m) (hargs : gen.options.maxArguments ≤ m)
    (hf : Fuzzed gen root p tc) : RightCase gen root V m p tc := by
  obtain ⟨pool₀, rnd, tc₀, s₀, hpool, hrun, hmutations⟩ := hf
  have hmax : 1 ≤ gen.options.maxCalls := by
    by_contra hzero
    rw [generateTestCase_noCalls (by omega)] at hrun
    cases hrun
  have h₀ := (generateTestCase_right (s := ⟨pool₀, rnd⟩) hV hm hmax (hV.memory _ hpool)).of_ok hrun
  suffices hall : G p ∧ RightCase gen root V m p tc from hall.2
  induction hmutations with
  | start => exact ⟨h₀.1.good, h₀.2⟩
  | @mutate pool rnd tc tc' s _ hrun' ih =>
    have hstep := (mutate_right (s := ⟨pool, rnd⟩) hV hm hargs ih.1 ih.2).of_ok hrun'
    exact ⟨hstep.1.good, hstep.2⟩
  | @create pool pool' tc _ hmemory hx ih =>
    have hp : Proceeds G V pool pool' := ⟨hV.memory _ hmemory, fun a ha => hV.grows pool pool' a hx ha⟩
    exact ⟨hp.good, ih.2.root, ih.2.pos, ih.2.le, fun call hcall => (ih.2.calls call hcall).proceeds hp⟩

end Caf
