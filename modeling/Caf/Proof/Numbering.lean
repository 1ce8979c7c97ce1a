import Caf.Proof.RootIndex

/-!
# One slot numbering

The serializer, the deserializer and the parser of a target hand out slots at different places,
and yet have the same slots in use at every point of a test case, for the same arrays and
return values. The parser starts after the root entry index here, which it does not know.

* `sameNumbering_take`: the slots in use at one point of the walk.
* `sharesSlots`: all points of a test case.
* `slots_not_shared`: without the 32-bit bounds they lose each other.
-/

namespace Caf

open ObjectGraph LittleEndian

/-- The serializer assigns slot `k` to `r`. -/
def SerializationContext.Assigns (c : SerializationContext) (k : ℕ) : Referent → Prop
  | .node a => c.valueIndexes a = some k
  | .result i => c.retValueIndexes i = some k

/-- The deserializer assigns slot `k` to the partner of `r` under `R`. -/
def DeserializationContext.Assigns (R : Addr → Addr → Prop) (c : DeserializationContext) (k : ℕ) :
    Referent → Prop
  | .node a => ∃ b, R a b ∧ c.isReturnValueIndex k = false ∧ c.getValue k = .ok b
  | .result i => c.isReturnValueIndex k = true ∧ c.getReturnValueIndex k = .ok i

/-- The parser assigns slot `k` to the value that the reference evaluation has for `r`. -/
def PoolAssigns {σ V : Type} (st : EvalState σ V) (pool : List V) (k : ℕ) : Referent → Prop
  | .node a => ∃ v, st.built a = some v ∧ pool[k]? = some v
  | .result i => ∃ v, st.results[i]? = some v ∧ pool[k]? = some v

/-- **The three components number alike**: as many slots, for the same referents. -/
structure SameNumbering {σ V : Type} (R : Addr → Addr → Prop) (st : EvalState σ V)
    (c : SerializationContext) (d : DeserializationContext) (pool : List V) : Prop where
  deserializer : d.pool.length = c.indexAlloc
  parser : pool.length = c.indexAlloc
  only : ∀ k r, c.Assigns k r → k < c.indexAlloc
  slots : ∀ k < c.indexAlloc, ∃ r, (∀ r', c.Assigns k r' ↔ r' = r) ∧ d.Assigns R k r ∧ PoolAssigns st pool k r

/-- Writing the test case, reading it and running it on a target number alike at every point: after
each value and each call. `R` relates the arrays of the test case to the arrays that are read. -/
def SharesSlots {σ V : Type} (h : Heap) (tc : TestCase) (T : Target σ V) : Prop :=
  ∀ (t : σ) (junk : ℕ → UInt8) (out : TestCaseSerializer), TestCaseSerializer.serialize h tc = .ok out →
    ∃ N, ∀ fuel, N ≤ fuel → ∃ tc' d p events st R,
      TestCaseDeserializer.deserialize fuel (.new ⟨out.out, junk⟩ .new) = .ok (tc', d) ∧
      TestCaseParser.parseAndRun T fuel (.new ⟨out.out.drop 4, junk⟩ t) = .ok p ∧
      evalSteps T.interp T.perform h.withUndefined.graph fuel (tc.fillThis h.length).steps
        (EvalState.start t) = some (events, st) ∧
      Corresponds SameUpToInfinity h tc d.pool.heap tc' R ∧
      d.trace.length = out.trace.length ∧ p.trace.length = out.trace.length ∧
      ∀ (j : ℕ) c c' pool, out.trace[j]? = some c → d.trace[j]? = some c' → p.trace[j]? = some pool →
        SameNumbering R st c c' pool

section Numbering

variable {σ V : Type} {S T : List Referent} {P : List V} {st : EvalState σ V} {c : SerializationContext}
  {d : DeserializationContext} {h : Heap} {tc : TestCase} {U : Target σ V}

theorem SerializationContext.Numbers.assigns (hc : c.Numbers S) (k : ℕ) (r : Referent) :
    c.Assigns k r ↔ S[k]? = some r := by
  cases r with
  | node a => exact hc.value a k
  | result i => exact hc.ret i k

/-- **At one point of the walk**, when `m` slots are in use. -/
theorem sameNumbering_take {m : ℕ} (hA : Aligned S T) (hv : Views S P st) (hc : c.Numbers (S.take m))
    (hd : d.Numbers (T.take m)) : SameNumbering (Link S T) st c d (P.take m) := by
  have hT : T.length = S.length := hA.length_eq.symm
  have hin : ∀ {k : ℕ} {r : Referent}, (S.take m)[k]? = some r → k < m ∧ S[k]? = some r := by
    intro k r hk
    have hlt := (List.getElem?_eq_some_iff.1 hk).1
    rw [List.length_take] at hlt
    exact ⟨by omega, by rwa [List.getElem?_take_of_lt (by omega)] at hk⟩
  refine ⟨?_, ?_, fun k r hk => ?_, fun k hk => ?_⟩
  · rw [hd.length, hc.next, List.length_take, List.length_take, hT]
  · rw [hc.next, List.length_take, List.length_take, hv.length]
  · rw [hc.next]
    exact (List.getElem?_eq_some_iff.1 ((hc.assigns k r).1 hk)).1
  · rw [hc.next] at hk
    obtain ⟨r, hr⟩ : ∃ r, (S.take m)[k]? = some r := ⟨_, List.getElem?_eq_getElem hk⟩
    obtain ⟨hkm, hSk⟩ := hin hr
    have hkS := (List.getElem?_eq_some_iff.1 hSk).1
    obtain ⟨r', hTk⟩ : ∃ r', T[k]? = some r' := ⟨_, List.getElem?_eq_getElem (hT ▸ hkS)⟩
    obtain ⟨v, hPk⟩ : ∃ v, P[k]? = some v := ⟨_, List.getElem?_eq_getElem (hv.length ▸ hkS)⟩
    have hTm : (T.take m)[k]? = some r' := by rw [List.getElem?_take_of_lt hkm, hTk]
    have hPm : (P.take m)[k]? = some v := by rw [List.getElem?_take_of_lt hkm, hPk]
    refine ⟨r, fun r₁ => ?_, ?_, ?_⟩
    · rw [hc.assigns, hr, Option.some.injEq, eq_comm]
    · cases hA.get hSk hTk with
      | node a b => exact ⟨b, ⟨k, hSk, hTk⟩, hd.node hTm⟩
      | result i => exact hd.result hTm
    · cases r with
      | node a => exact ⟨v, (hv.node hSk).trans hPk, hPm⟩
      | result i => exact ⟨v, (hv.result hSk).trans hPk, hPm⟩

/-- **One numbering.** Where ids, counts and lengths fit in 32 bits and the target has the functions,
the three components number the arrays and return values of a well-formed test case alike. -/
theorem sharesSlots (hw : WellFormed h tc) (hf : FitsU32 h tc)
    (hids : ∀ call ∈ tc.calls, (U.getFunction call.funcId).isSome = true) : SharesSlots h tc U := by
  intro t junk out hout
  obtain ⟨Fs, S, h₁⟩ := walkSteps_exists hw
  obtain ⟨c, tr, hs, -, htr⟩ := serialize_walk h₁
  rw [hs] at hout
  cases hout
  have hfill := walk_fillThis h₁
  have hd := hfill.depth_le h.withUndefined.lt_of_graph ResultsBelow.nil List.nodup_nil
  let bytes := encodeTestCase tc.storeRootEntryIndex (Fs.map fillStep)
  refine ⟨max bytes.length (h.withUndefined.length + 1), fun fuel hfuel => ?_⟩
  have hdepth : DepthLE fuel (Fs.map fillStep) := fun st hst =>
    ⟨Nat.le_trans (hd st hst).1 (Nat.le_trans (Nat.le_max_right _ _) hfuel),
      Nat.le_trans (hd st hst).2 (Nat.le_trans (Nat.le_max_right _ _) hfuel)⟩
  -- reading
  have hadmit : Admitted .upToInfinity h tc := ⟨trivial, fun _ _ _ _ => trivial⟩
  obtain ⟨tc', d, T, hread, hb⟩ := exists_deserialized hf hadmit h₁ ObjectPool.new_ok
    (show (⟨bytes, junk⟩ : MemoryInputStream).data = bytes ++ [] from (List.append_nil _).symm)
    (Nat.le_trans (Nat.le_max_left _ _) hfuel)
  have hA := (hfill.iso hb.walk .nil).1
  -- running
  obtain ⟨events, P, s', hrun, -⟩ := hfill.run_start U.interp U.perform t
  obtain ⟨st, heval, -, hv⟩ := hfill.eval_eq ResultsBelow.nil (EvalState.start_views t) rfl hdepth hrun
  have hlen : (Fs.map fillStep).length = tc.calls.length := by
    rw [List.length_map, h₁.length_eq, TestCase.steps, List.length_map]
  have hdrop : bytes.drop 4 = toBytes 4 (Fs.map fillStep).length ++ (encodeCalls (Fs.map fillStep) ++ []) := by
    simp only [bytes, encodeTestCase, List.append_assoc, List.append_nil]
    exact List.drop_left' (length_toBytes 4 _)
  obtain ⟨tr', hparse, htr'⟩ := TestCaseParser.parseAndRun_run (p := .new ⟨bytes.drop 4, junk⟩ t) hrun
    (fun st hst => by
      obtain ⟨-, call, hcall, hop⟩ := shape_fillThis h₁ hst
      rw [hop]
      exact hids call hcall)
    (hf.fitsStep h₁) (hlen ▸ hf.calls) hdrop hdepth
  have hpools := htr' P (List.prefix_refl _)
  refine ⟨tc', d, _, events, st, Link S T, hread, hparse, heval,
    corresponds_of_walks upToInfinity_judges hw h₁ hb.walk hb.hasThis hb.root.symm, ?_, ?_, ?_⟩
  · rw [← hb.traces.length_eq, ← htr.length_eq]
  · simp [TestCaseParser.new, hpools, ← htr.length_eq]
  · intro j c c' pool hc hc' hpool
    obtain ⟨hj, hcj⟩ := List.getElem?_eq_some_iff.1 hc
    obtain ⟨hj', hcj'⟩ := List.getElem?_eq_some_iff.1 hc'
    have hjm : j < (stepMarks 0 (Fs.map fillStep)).length := htr.length_eq ▸ hj
    have h₁ := (List.forall₂_iff_get.1 htr).2 j hjm hj
    have h₂ := (List.forall₂_iff_get.1 hb.traces).2 j hjm hj'
    simp only [List.get_eq_getElem, hcj, hcj'] at h₁ h₂
    simp only [TestCaseParser.new, List.nil_append, hpools, List.getElem?_map, List.getElem?_eq_getElem hjm,
      Option.map_some, Option.some.injEq] at hpool
    rw [← hpool]
    exact sameNumbering_take hA hv h₁ h₂

theorem sample_sharesSlots : SharesSlots sampleHeap sampleCase weighing :=
  sharesSlots sample_wellFormed sample_fitsU32 fun _ _ => rfl

/-! ## Without the bounds -/

/-- Every value leaves a mark. -/
theorem length_le_marks (F : Forest Literal) (n : ℕ) : F.length ≤ (F.marks n).length := by
  induction F generalizing n with
  | nil => exact Nat.zero_le _
  | leaf l rest ih => exact Nat.succ_le_succ (ih n)
  | back k rest ih => exact Nat.succ_le_succ (ih n)
  | node sub rest _ ih =>
    have := ih (n + 1 + sub.slots)
    simp only [Forest.length, Forest.marks, List.cons_append, List.length_cons, List.length_append]
    omega

end Numbering

/-- An empty array, ... -/
def wrappedHeap : Heap := [.array []]

/-- ... passed as `2 ^ 32` arguments, which the field for their number cannot hold. -/
def wrappedCase : TestCase := ⟨0, [⟨7, none, false, List.replicate (2 ^ 32) 0⟩]⟩

theorem wrapped_wellFormed : WellFormed wrappedHeap wrappedCase := by
  intro i call hcall a ha
  match i, hcall with
  | 0, hcall =>
    cases hcall
    obtain rfl : a = 0 := List.eq_of_mem_replicate ha
    intro b hb
    have hb0 := Heap.mem_of_reach (h := wrappedHeap) (K := [0]) (by decide) List.mem_cons_self hb
    rw [List.mem_singleton.1 hb0]
    exact ⟨_, rfl, fun i hi => by cases hi⟩

/-- The target `weighing` without functions. -/
def withoutFunctions : Target ℕ ℕ := { weighing with getFunction := fun _ => none }

/-- Too many arguments are lost to the readers, and so is a function that the target does not have. -/
theorem slots_not_shared :
    (WellFormed wrappedHeap wrappedCase ∧ ¬ SharesSlots wrappedHeap wrappedCase weighing) ∧
      WellFormed [] oneCall ∧ ¬ SharesSlots [] oneCall withoutFunctions := by
  refine ⟨⟨wrapped_wellFormed, fun hshare => ?_⟩, oneCall_wellFormed, fun hshare => ?_⟩
  · obtain ⟨Fs, S, h₁⟩ := walkSteps_exists wrapped_wellFormed
    obtain ⟨c, tr, hs, -, htr⟩ := serialize_walk h₁
    obtain ⟨N, hN⟩ := hshare 0 (fun _ => 0) _ hs
    cases h₁ with
    | @cons _ _ op as bs F₁ S₁ F₂ S₂ _ Fs _ hhead hargs htail =>
    cases hhead
    cases htail
    have hlen : F₂.length = 2 ^ 32 := hargs.length_eq.trans List.length_replicate
    -- the readers see a call without arguments
    let read : List (Step CallOp (Forest Literal)) := [⟨(7, false), .leaf .undefined .nil, .nil⟩]
    have hbytes : encodeTestCase 0 (List.map fillStep [⟨(7, false), .nil, F₂⟩]) =
        encodeTestCase 0 read ++ encodeValues F₂ := by
      have hzero : toBytes 4 (2 ^ 32) = toBytes 4 0 := by decide
      simp only [read, encodeTestCase, encodeCalls, encodeCall, List.map_cons, List.map_nil, fillStep, fillThis,
        List.flatMap_cons, List.flatMap_nil, hlen, hzero, Forest.length, encodeValues, List.append_nil,
        List.append_assoc, List.length_cons, List.length_nil]
    have hreadable : ∀ st ∈ read, TestCaseDeserializer.ReadableStep .upToInfinity st := by
      intro st hst
      rw [List.mem_singleton.1 hst]
      exact ⟨⟨⟨trivial, trivial⟩, rfl, by decide, trivial⟩, ⟨trivial, trivial⟩, trivial⟩
    have hdepth : DepthLE (N + 1) read := by
      intro st hst
      rw [List.mem_singleton.1 hst]
      exact ⟨Nat.le_add_left 1 N, Nat.zero_le _⟩
    obtain ⟨tc', d, p, events, st, R, hd, -, -, -, hlen', -⟩ := hN (N + 1) (Nat.le_succ N)
    obtain ⟨tc'', d', T, hd', hb⟩ := TestCaseDeserializer.deserialize_spec (show 0 < 2 ^ 32 by decide)
      (show read.length < 2 ^ 32 by decide)
      hreadable ⟨trivial, trivial, trivial⟩ (show (⟨_, fun _ => 0⟩ : MemoryInputStream).data = _ from hbytes)
      ObjectPool.new_ok hdepth
    cases hd'.symm.trans hd
    have hmarks := length_le_marks F₂ (0 + (fillThis (.nil : Forest Literal)).slots)
    have h₂ : tr.length = _ := htr.length_eq.symm
    have h₃ : d.trace.length = 2 := hb.traces.length_eq.symm
    simp only [h₃, h₂, List.map_cons, List.map_nil, stepMarks, List.length_append, List.length_cons, fillStep] at hlen'
    omega
  · obtain ⟨N, hN⟩ := hshare 0 (fun _ => 0) _ rfl
    obtain ⟨tc', d, p, events, st, R, -, hp, -⟩ := hN (N + 1) (Nat.le_succ N)
    cases hp

end Caf
