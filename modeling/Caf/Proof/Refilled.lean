import Caf.Proof.Insertion

/-!
# Calls with other values

Five of the mutator's operators write to one call: they keep its callee, and put a new or a mutated value in one
of its positions, or take one away.

* `Refilled`: what may be in the positions afterwards, and what is kept.
* `Edited`: one call of a test case has been written to.
-/

namespace Caf

open ObjectGraph Run Caf.Random

variable {P : Value → Prop} {I : FunctionIdType → Prop} {gen : TestCaseGenerator} {root n : ℕ} {h : Heap}
  {p q : ObjectPool} {s s' : Fuzzer} {a a' : Addr} {as bs cs : List Addr} {tc tc' : TestCase}

/-- No array occurs twice among the values at `as` and what they contain. -/
def OwnArrays (h : Heap) (as : List Addr) : Prop := ∃ T, Made (fun _ => True) h as T ∧ T.Nodup

/-- **The values at `bs`** have been put in the place of those at `as`. -/
structure Refilled (P : Value → Prop) (p : ObjectPool) (as bs : List Addr) (q : ObjectPool) : Prop where
  ready : PoolReady q
  ext : p.Extends q
  holds : (∀ a ∈ as, q.heap.Holds P a) → ∀ b ∈ bs, q.heap.Holds P b
  made : ∀ S, Made (fun _ => True) q.heap as S → S.Nodup → (∀ b ∈ S, b < p.heap.length) →
    ∃ S', Made (fun _ => True) q.heap bs S' ∧ S'.Nodup ∧ ∀ b ∈ S', b ∈ S ∨ p.heap.length ≤ b

namespace Refilled

theorem refl (h : PoolReady p) : Refilled P p as as p :=
  ⟨h, ObjectPool.Extends.refl p, fun ha => ha, fun S hm hS _ => ⟨S, hm, hS, fun _ hb => .inl hb⟩⟩

theorem dropped (as : List Addr) (h : PoolReady p) : Refilled P p as [] p :=
  ⟨h, ObjectPool.Extends.refl p, by simp, fun _ _ _ _ => ⟨[], .nil, List.nodup_nil, by simp⟩⟩

/-- Values can be generated. -/
theorem generated (hn : NewValues P p as q) : Refilled P p [] as q := by
  refine ⟨hn.ready, hn.ext, fun _ b hb => hn.holds hb, fun S _ _ _ => ?_⟩
  obtain ⟨T, hm, hT, hge⟩ := hn.made
  exact ⟨T, hm.mono fun _ _ => trivial, hT, fun b hb => .inr (hge b hb)⟩

/-- A value can be mutated. -/
theorem mutated (hm : MutatedValue P p a a' q) (hP : ∀ es, P (.array es)) : Refilled P p [a] [a'] q := by
  obtain ⟨T, hmut⟩ := hm.mutated
  refine ⟨hm.ready, hm.ext, fun ha b hb => ?_, fun S hS hnd hlt => ?_⟩
  · rw [List.mem_singleton.1 hb]
    exact hmut.holds (ha a List.mem_cons_self) hP
  · obtain ⟨S', hS', hnd', hold⟩ := hmut.made hS hnd hlt
    exact ⟨S', hS', hnd', fun b hb => (hold b hb).imp id (hmut.fresh b)⟩

/-- **The other values** stay. -/
theorem context (hr : Refilled P p as bs q) (l r : List Addr) : Refilled P p (l ++ (as ++ r)) (l ++ (bs ++ r)) q := by
  refine ⟨hr.ready, hr.ext, fun ha b hb => ?_, fun S hS hnd hlt => ?_⟩
  · rcases List.mem_append.1 hb with hb | hb
    · exact ha b (List.mem_append_left _ hb)
    · rcases List.mem_append.1 hb with hb | hb
      · exact hr.holds (fun a hmem => ha a (List.mem_append_right _ (List.mem_append_left _ hmem))) b hb
      · exact ha b (List.mem_append_right _ (List.mem_append_right _ hb))
  · obtain ⟨S₁, S', rfl, h₁, h'⟩ := hS.split rfl
    obtain ⟨S₂, S₃, rfl, h₂, h₃⟩ := h'.split rfl
    have hnd₂ := (List.nodup_append.1 (List.nodup_append.1 hnd).2.1).1
    obtain ⟨V, hV, hndV, hVold⟩ := hr.made S₂ h₂ hnd₂ fun b hb => hlt b (by simp [hb])
    exact ⟨S₁ ++ (V ++ S₃), h₁.append (hV.append h₃),
      nodup_replaced hnd (fun b hb => Nat.not_le_of_lt (hlt b hb)) hndV hVold⟩

theorem ownArrays (hr : Refilled P p as bs q) (ha : OwnArrays p.heap as) : OwnArrays q.heap bs := by
  obtain ⟨S, hm, hS⟩ := ha
  obtain ⟨S', hm', hS', -⟩ := hr.made S (hm.grow hr.ext) hS fun b hb => hm.lt hb
  exact ⟨S', hm', hS'⟩

end Refilled

/-! ## One call -/

/-- **One call has been written to.** -/
structure Edited (I : FunctionIdType → Prop) (n : ℕ) (call call' : FunctionCall) (p : ObjectPool) (tc tc' : TestCase)
    (q : ObjectPool) : Prop where
  get : tc.calls[n]? = some call
  eq : tc' = TestCaseMutator.setFunctionCall tc n call'
  callee : call'.funcId = call.funcId
  values : Refilled (Allowed I n) p call.roots call'.roots q

namespace Edited

variable {call call' : FunctionCall}

theorem length (he : Edited I n call call' p tc tc' q) : tc'.calls.length = tc.calls.length := by
  rw [he.eq]
  exact List.length_set

theorem sane (he : Edited I n call call' p tc tc' q) (hs : Sane I p.heap tc) : Sane I q.heap tc' := by
  have hlt := (List.getElem?_eq_some_iff.1 he.get).1
  refine ⟨fun c hc => ?_, fun m c hc a ha => ?_⟩
  · rw [he.eq] at hc
    rcases List.mem_or_eq_of_mem_set hc with hc | rfl
    · exact hs.callees c hc
    · rw [he.callee]
      exact hs.callees call (List.mem_of_getElem? he.get)
  · rw [he.eq] at hc
    unfold TestCaseMutator.setFunctionCall at hc
    by_cases hm : m = n
    · subst hm
      rw [List.getElem?_set_self hlt] at hc
      cases hc
      exact he.values.holds (fun b hb => (hs.values m call he.get b hb).grow he.values.ext) a ha
    · rw [List.getElem?_set_ne (Ne.symm hm)] at hc
      exact (hs.values m c hc a ha).grow he.values.ext

/-- The values in the other calls stay. -/
theorem roots (he : Edited I n call call' p tc tc' q) :
    Refilled (Allowed I n) p (tc.calls.flatMap FunctionCall.roots) (tc'.calls.flatMap FunctionCall.roots) q := by
  obtain ⟨hlt, hcall⟩ := List.getElem?_eq_some_iff.1 he.get
  have hsplit : tc.calls = tc.calls.take n ++ call :: tc.calls.drop (n + 1) := by
    rw [← hcall, List.getElem_cons_drop, List.take_append_drop]
  have hset : tc'.calls = tc.calls.take n ++ call' :: tc.calls.drop (n + 1) := by
    rw [he.eq]
    exact List.set_eq_take_append_cons_drop.trans (if_pos hlt)
  have hroots := he.values.context ((tc.calls.take n).flatMap FunctionCall.roots)
    ((tc.calls.drop (n + 1)).flatMap FunctionCall.roots)
  rw [hset]
  nth_rewrite 1 [hsplit]
  simpa only [List.flatMap_append, List.flatMap_cons] using hroots

end Edited

/-! ## The operators -/

/-- A call that exists is read. -/
theorem ensures_existingCall {E : Error → Prop} {f : FunctionCall → FuzzM TestCase} {Q : TestCase → Fuzzer → Prop}
    {call : FunctionCall} (hcall : tc.calls[n]? = some call) (hf : Ensures E (f call) s Q) :
    Ensures E (TestCaseMutator.getFunctionCall tc n >>= f) s Q := by
  have hread : Ensures E (TestCaseMutator.getFunctionCall tc n) s fun c s' => c = call ∧ s' = s := by
    unfold TestCaseMutator.getFunctionCall
    rw [hcall]
    exact .pure ⟨rfl, rfl⟩
  refine hread.bind ?_
  intro c t ⟨hc, ht⟩
  subst c t
  exact hf

/-- The result of an operator that writes to one call. -/
abbrev EditsCall (I : FunctionIdType → Prop) (tc : TestCase) (s : Fuzzer) (tc' : TestCase) (s' : Fuzzer) : Prop :=
  ∃ n call call', Edited I n call call' s.pool tc tc' s'.pool

/-- Any call of a test case that has one. -/
theorem callIndex_draws (hne : tc.calls ≠ []) : Draws (next 0 (lastIndex tc.calls.length)) fun n =>
    ∃ call, tc.calls[n]? = some call := by
  refine (Draws.next (Nat.zero_le _)).mono fun n hn => ?_
  have hlt := lastIndex_lt (fun hlen => hne (List.length_eq_zero_iff.1 hlen)) hn.2
  exact ⟨_, List.getElem?_eq_getElem hlt⟩

/-- **`MutateThis`.** -/
theorem mutateThis_ensures (hI : Admits gen.store tc.storeRootEntryIndex I) (h : PoolReady s.pool)
    (hs : Sane I s.heap tc)
    (hne : tc.calls ≠ []) :
    Ensures (Blocked gen tc.storeRootEntryIndex) (TestCaseMutator.mutateThis gen tc) s (EditsCall I tc s) := by
  unfold TestCaseMutator.mutateThis
  refine ensures_draw (callIndex_draws hne) ?_
  rintro n rnd ⟨call, hcall⟩
  refine ensures_existingCall hcall ?_
  have hP := hI.generates n
  have hreceiver : Ensures (Blocked gen tc.storeRootEntryIndex)
      (TestCaseMutator.mutateReceiver gen tc.storeRootEntryIndex n call.thisValue) { s with rnd := rnd } fun a s' =>
        Refilled (Allowed I n) s.pool call.thisValue.toList [a] s'.pool := by
    unfold TestCaseMutator.mutateReceiver
    cases hthis : call.thisValue with
    | some a =>
      have hroot : a ∈ call.roots := List.mem_append_left _ (by simp [hthis])
      have ha := (hs.values n call hcall a hroot).mono (Q := fun _ => True) fun _ _ => trivial
      exact (mutateValue_ensures (s := { s with rnd := rnd }) hP h ha).mono fun a' s' hm => .mutated hm hP.array
    | none =>
      have hnew := (generateValue_ensures (s := { s with rnd := rnd }) hP h).excuse
        (D := Blocked gen tc.storeRootEntryIndex)
        fun _ => Stuck.blocked
      exact hnew.mono fun a' s' hn => .generated hn
  refine hreceiver.bind fun a s' hr => ?_
  exact .pure ⟨n, call, { call with thisValue := some a }, hcall, rfl, rfl, hr.context [] call.args⟩

/-- **`MutateCtor`.** -/
theorem mutateCtor_ensures {E : Error → Prop} (h : PoolReady s.pool) (hne : tc.calls ≠ []) :
    Ensures E (TestCaseMutator.mutateCtor tc) s (EditsCall I tc s) := by
  unfold TestCaseMutator.mutateCtor
  refine ensures_draw (callIndex_draws hne) ?_
  rintro n rnd ⟨call, hcall⟩
  refine ensures_existingCall hcall ?_
  exact .pure ⟨n, call, { call with ctor := !call.ctor }, hcall, rfl, rfl, Refilled.refl h⟩

/-- A candidate can be chosen when there is one. -/
theorem selectCandidate_draws {p : ℕ → Bool} (hany : tc.calls.any (fun call => p call.args.length) = true) :
    Draws (TestCaseMutator.selectCandidate tc p) fun n =>
      ∃ call, tc.calls[n]? = some call ∧ p call.args.length = true := by
  have hmem : ∀ n, n ∈ TestCaseMutator.candidates tc p ↔
      ∃ call, tc.calls[n]? = some call ∧ p call.args.length = true := by
    intro n
    unfold TestCaseMutator.candidates
    rw [List.mem_filter, List.mem_range, Option.any_eq_true]
    constructor
    · rintro ⟨-, call, hcall, hp⟩
      exact ⟨call, hcall, hp⟩
    · rintro ⟨call, hcall, hp⟩
      exact ⟨(List.getElem?_eq_some_iff.1 hcall).1, call, hcall, hp⟩
  obtain ⟨call, hcall, hp⟩ := List.any_eq_true.1 hany
  obtain ⟨n, hn⟩ := List.mem_iff_getElem?.1 hcall
  have hne : TestCaseMutator.candidates tc p ≠ [] := List.ne_nil_of_mem ((hmem n).2 ⟨call, hn, hp⟩)
  unfold TestCaseMutator.selectCandidate
  rw [if_neg (by simpa using hne)]
  exact (Draws.select hne).mono fun n => (hmem n).1

/-- **`AddArgument`.** -/
theorem addArgument_ensures (hI : Admits gen.store tc.storeRootEntryIndex I) (h : PoolReady s.pool)
    (hany : tc.calls.any (fun call => decide (call.args.length < gen.options.maxArguments)) = true) :
    Ensures (Blocked gen tc.storeRootEntryIndex) (TestCaseMutator.addArgument gen tc) s (EditsCall I tc s) := by
  unfold TestCaseMutator.addArgument
  refine ensures_draw (selectCandidate_draws hany) ?_
  rintro n rnd ⟨call, hcall, -⟩
  refine ensures_existingCall hcall ?_
  have hnew := (generateValue_ensures (s := { s with rnd := rnd }) (hI.generates n) h).excuse
    (D := Blocked gen tc.storeRootEntryIndex) fun _ => Stuck.blocked
  refine hnew.bind fun arg s' harg => ?_
  refine .pure ⟨n, call, { call with args := call.args ++ [arg] }, hcall, rfl, rfl, ?_⟩
  have hr := (Refilled.generated harg).context call.roots []
  simpa only [List.nil_append, List.append_nil, List.append_assoc, FunctionCall.roots] using hr

/-- The positions of a call with an argument at index `i`. -/
theorem roots_split (call : FunctionCall) {i : ℕ} (hi : i < call.args.length) : call.roots =
    (call.thisValue.toList ++ call.args.take i) ++ ([call.args[i]] ++ call.args.drop (i + 1)) := by
  rw [FunctionCall.roots, List.append_assoc, List.singleton_append, List.getElem_cons_drop, List.take_append_drop]

/-- A call that has an argument is chosen, and one of its arguments. -/
theorem ensures_argument {E : Error → Prop} {Q : TestCase → Fuzzer → Prop} {f : ℕ → FunctionCall → ℕ → FuzzM TestCase}
    (hany : tc.calls.any (fun call => decide (0 < call.args.length)) = true)
    (hf : ∀ n call i rnd, tc.calls[n]? = some call → i < call.args.length →
      Ensures E (f n call i) { s with rnd := rnd } Q) :
    Ensures E (do
      let n ← TestCaseMutator.selectCandidate tc (0 < ·)
      let call ← TestCaseMutator.getFunctionCall tc n
      let i ← next 0 (lastIndex call.args.length)
      f n call i) s Q := by
  refine ensures_draw (selectCandidate_draws hany) ?_
  rintro n rnd ⟨call, hcall, hargs⟩
  refine ensures_existingCall hcall ?_
  have hpos : 0 < call.args.length := of_decide_eq_true hargs
  refine ensures_draw (Draws.next (Nat.zero_le _)) fun i rnd hi => ?_
  exact hf n call i rnd hcall (lastIndex_lt (by omega) hi.2)

/-- **`RemoveArgument`.** -/
theorem removeArgument_ensures {E : Error → Prop} (h : PoolReady s.pool)
    (hany : tc.calls.any (fun call => decide (0 < call.args.length)) = true) :
    Ensures E (TestCaseMutator.removeArgument tc) s (EditsCall I tc s) := by
  unfold TestCaseMutator.removeArgument
  refine ensures_argument hany fun n call i rnd hcall hlt => ?_
  refine .pure ⟨n, call, { call with args := call.args.eraseIdx i }, hcall, rfl, rfl, ?_⟩
  have hr := (Refilled.dropped (P := Allowed I n) [call.args[i]] h).context
    (call.thisValue.toList ++ call.args.take i) (call.args.drop (i + 1))
  rw [← roots_split call hlt] at hr
  simpa only [FunctionCall.roots, List.nil_append, List.append_assoc, ← List.eraseIdx_eq_take_drop_succ] using hr

/-- **`MutateArgument`.** -/
theorem mutateArgument_ensures (hI : Admits gen.store tc.storeRootEntryIndex I) (h : PoolReady s.pool)
    (hs : Sane I s.heap tc) (hany : tc.calls.any (fun call => decide (0 < call.args.length)) = true) :
    Ensures (Blocked gen tc.storeRootEntryIndex) (TestCaseMutator.mutateArgument gen tc) s (EditsCall I tc s) := by
  unfold TestCaseMutator.mutateArgument
  refine ensures_argument hany fun n call i rnd hcall hlt => ?_
  have hP := hI.generates n
  have hroot : call.args[i] ∈ call.roots := List.mem_append_right _ (List.getElem_mem hlt)
  have ha := (hs.values n call hcall _ hroot).mono (Q := fun _ => True) fun _ _ => trivial
  rw [List.getElem?_eq_getElem hlt]
  refine (mutateValue_ensures (s := { s with rnd := rnd }) hP h ha).bind fun arg s' harg => ?_
  refine .pure ⟨n, call, { call with args := call.args.set i arg }, hcall, rfl, rfl, ?_⟩
  have hr := (Refilled.mutated harg hP.array).context (call.thisValue.toList ++ call.args.take i)
    (call.args.drop (i + 1))
  rw [← roots_split call hlt] at hr
  have hset : call.args.set i arg = call.args.take i ++ arg :: call.args.drop (i + 1) :=
    List.set_eq_take_append_cons_drop.trans (if_pos hlt)
  simpa only [FunctionCall.roots, hset, List.append_assoc, List.singleton_append] using hr

/-- **`Mutate`** can do what one of its operators does. One that needs room or a candidate is chosen only if there is. -/
theorem ensures_mutate {E : Error → Prop} {Q : TestCase → Fuzzer → Prop}
    (haddCall : tc.calls.length < gen.options.maxCalls →
      ∀ rnd, Ensures E (TestCaseMutator.addFunctionCall gen tc) { s with rnd := rnd } Q)
    (hremoveCall : 1 < tc.calls.length →
      ∀ rnd, Ensures E (TestCaseMutator.removeFunctionCall gen tc) { s with rnd := rnd } Q)
    (hthis : ∀ rnd, Ensures E (TestCaseMutator.mutateThis gen tc) { s with rnd := rnd } Q)
    (hctor : ∀ rnd, Ensures E (TestCaseMutator.mutateCtor tc) { s with rnd := rnd } Q)
    (haddArg : tc.calls.any (fun call => decide (call.args.length < gen.options.maxArguments)) = true →
      ∀ rnd, Ensures E (TestCaseMutator.addArgument gen tc) { s with rnd := rnd } Q)
    (hremoveArg : tc.calls.any (fun call => decide (0 < call.args.length)) = true →
      ∀ rnd, Ensures E (TestCaseMutator.removeArgument tc) { s with rnd := rnd } Q)
    (hmutateArg : tc.calls.any (fun call => decide (0 < call.args.length)) = true →
      ∀ rnd, Ensures E (TestCaseMutator.mutateArgument gen tc) { s with rnd := rnd } Q) :
    Ensures E (TestCaseMutator.mutate gen tc) s Q := by
  unfold TestCaseMutator.mutate
  have hviable : TestCaseMutator.mutateThis gen ∈ TestCaseMutator.mutators gen tc := by
    simp [TestCaseMutator.mutators]
  rw [if_neg (by simpa using List.ne_nil_of_mem hviable)]
  refine ensures_draw (Draws.select (List.ne_nil_of_mem hviable)) fun op rnd hop => ?_
  simp only [TestCaseMutator.mutators, List.mem_append, List.mem_ite_nil_right, List.mem_cons,
    List.not_mem_nil, or_false] at hop
  rcases hop with ((((⟨hroom, rfl⟩ | ⟨hmany, rfl⟩) | rfl | rfl) | ⟨hroom, rfl⟩) | ⟨hany, rfl⟩) | ⟨hany, rfl⟩
  · exact haddCall hroom rnd
  · exact hremoveCall hmany rnd
  · exact hthis rnd
  · exact hctor rnd
  · exact haddArg hroom rnd
  · exact hremoveArg hany rnd
  · exact hmutateArg hany rnd

end Caf
