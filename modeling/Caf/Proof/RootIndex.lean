import Caf.Proof.Parse
import Caf.Proof.RoundTrip

/-!
# The root entry index and the parser

The serializer writes the root entry index before the number of calls; the parser of a target
reads the number of calls first. So it never reads a test case as it was written. A target that
weighs the values it builds shows this: what the parser consumes is at most the weight of what it
builds and the four bytes of the number of calls, and the reference evaluation of the test case
weighs eight bytes less than was written.

* `parseAndRun_run`: without the root entry index, the parser runs the test case.
* `parseValue_consumes`: the parser consumes no more than it builds.
* `run_weighing`: the reference evaluation weighs what was written.
* `not_parsesAsWritten`: the parser never reads a test case as it was written.
-/

namespace Caf

open ObjectGraph LittleEndian

/-- **The parser understands what was written.** On all bytes of the test case, with enough fuel,
it consumes them exactly and leaves any target that has the functions in the state in which the
reference evaluation leaves it, a missing `this` being Undefined. -/
def ParsesAsWritten (h : Heap) (tc : TestCase) : Prop :=
  ∀ (σ V : Type) (T : Target σ V) (s : σ) (junk : ℕ → UInt8) (out : TestCaseSerializer),
    (∀ call ∈ tc.calls, (T.getFunction call.funcId).isSome = true) →
    TestCaseSerializer.serialize h tc = .ok out →
    ∃ N, ∀ fuel, N ≤ fuel → ∃ p events st,
      TestCaseParser.parseAndRun T fuel (.new ⟨out.out, junk⟩ s) = .ok p ∧ p.input.data = [] ∧
      evalSteps T.interp T.perform h.withUndefined.graph fuel (tc.fillThis h.length).steps (EvalState.start s) =
        some (events, st) ∧ p.target = st.host

/-! ## The bytes that follow the root entry index -/

namespace TestCaseParser

variable {σ V : Type} {T : Target σ V} {Fs : List (Step CallOp (Forest Literal))} {fuel : ℕ}
  {p : TestCaseParser σ V} {rest : List UInt8} {es : List (Event CallOp σ V)} {pool' : List V} {s' : σ}

/-- **Without the root entry index** the parser does what the steps do. -/
theorem parseAndRun_run (hr : runSteps T.interp T.perform Fs [] p.target = some (es, pool', s'))
    (hids : ∀ st ∈ Fs, (T.getFunction st.op.1).isSome = true) (hfit : ∀ st ∈ Fs, FitsStep st)
    (hn : Fs.length < 2 ^ 32) (hdata : p.input.data = toBytes 4 Fs.length ++ (encodeCalls Fs ++ rest))
    (hf : DepthLE fuel Fs) :
    ∃ tr, parseAndRun T fuel p = .ok ⟨p.input.after rest, s', pool', p.trace ++ tr⟩ ∧
      PoolTraced pool' (stepMarks 0 Fs) tr := by
  have hcount := MemoryInputStream.readInt_four hdata hn
  obtain ⟨tr, hrun, htr⟩ := @parseCalls_run _ _ T fuel
    ⟨p.input.after (encodeCalls Fs ++ rest), p.target, [], p.trace⟩ rest _ _ Fs es hr hids hfit rfl hf
  exact ⟨tr, by rw [parseAndRun, hcount]; exact hrun, htr⟩

end TestCaseParser

/-! ## Weighing -/

/-- The target that weighs. A value weighs as many bytes as it is written in, an array that is
referred to five; the state is the weight of what was pushed and invoked. -/
def weighing : Target ℕ ℕ where
  createUndefined s := (1, s)
  createNull s := (1, s)
  createBoolean _ s := (2, s)
  createString str s := (5 + str.length, s)
  createFunction _ s := (5, s)
  createInteger _ s := (5, s)
  createFloat _ s := (9, s)
  startBuildArray _ s := (5, s)
  pushElement _ element s := s + element
  getFunction _ := some 0
  invoke _ thisValue _ args s := (5, s + (9 + thisValue + args.sum))

/-- Whatever has a slot is referred to in five bytes. -/
def PoolWeighs (pool : List ℕ) : Prop := ∀ v ∈ pool, v = 5

theorem PoolWeighs.concat {pool : List ℕ} (h : PoolWeighs pool) : PoolWeighs (pool ++ [5]) := by
  intro v hv
  rcases List.mem_append.1 hv with hv | hv
  · exact h v hv
  · exact List.mem_singleton.1 hv

theorem weighing_leaf (l : Literal) (s : ℕ) : weighing.interp.leaf l s = (l.encode.length, s) := by
  cases l <;> simp [Target.interp, weighing, Literal.encode, Literal.payload, length_toBytes]
  omega

/-- The weight of values that have not been pushed yet. -/
def unpushed : Option ℕ → List ℕ → ℕ
  | none, vs => vs.sum
  | some _, _ => 0

@[simp] theorem unpushed_none (vs : List ℕ) : unpushed none vs = vs.sum := rfl

theorem unpushed_cons (dest : Option ℕ) (v : ℕ) (vs : List ℕ) (s : ℕ) :
    weighing.interp.pushInto dest v s + unpushed dest (v :: vs) = s + v + unpushed dest vs := by
  cases dest with
  | none => simp only [Interp.pushInto, unpushed, List.sum_cons]; omega
  | some d => rfl

/-- **A forest weighs what it is written in.** -/
theorem run_weighing {F : Forest Literal} {dest : Option ℕ} {pool vs pool' : List ℕ} {s s' : ℕ}
    (h : F.run weighing.interp dest pool s = some (vs, pool', s')) (hp : PoolWeighs pool) :
    PoolWeighs pool' ∧ s' + unpushed dest vs = s + (encodeValues F).length := by
  induction F generalizing dest pool vs pool' s s' with
  | nil =>
    obtain ⟨rfl, rfl, rfl⟩ := Forest.run_nil_eq h
    exact ⟨hp, by cases dest <;> rfl⟩
  | leaf l Fr ih =>
    obtain ⟨vs₁, rfl, h₁⟩ := Forest.run_leaf_eq (weighing_leaf l s) h
    obtain ⟨hp', hw⟩ := ih h₁ hp
    have hc := unpushed_cons dest l.encode.length vs₁ s
    rw [encodeValues, List.length_append]
    exact ⟨hp', by omega⟩
  | back k Fr ih =>
    obtain ⟨v, vs₁, hv, rfl, h₁⟩ := Forest.run_back_eq h
    obtain rfl := hp v (List.mem_of_getElem? hv)
    obtain ⟨hp', hw⟩ := ih h₁ hp
    have hc := unpushed_cons dest 5 vs₁ s
    rw [encodeValues, List.length_append, show (encodePlaceholder k).length = 5 from rfl]
    exact ⟨hp', by omega⟩
  | node sub Fr ih₁ ih₂ =>
    have hnode : weighing.interp.node sub.length s = (5, s) := rfl
    obtain ⟨us, p₁, s₁, vs₂, h₁, rfl, h₂⟩ := Forest.run_node_eq hnode h
    obtain ⟨hp₁, hw₁⟩ := ih₁ h₁ hp.concat
    obtain ⟨hp₂, hw₂⟩ := ih₂ h₂ hp₁
    have hc := unpushed_cons dest 5 vs₂ s₁
    have hsub : s₁ + 0 = s + (encodeValues sub).length := hw₁
    rw [encodeValues, List.length_append, List.length_append,
      show (encodeArrayHeader sub.length).length = 5 from rfl]
    exact ⟨hp₂, by omega⟩

/-- **Calls weigh what they are written in.** -/
theorem runSteps_weighing {Fs : List (Step CallOp (Forest Literal))} {pool pool' : List ℕ} {s s' : ℕ}
    {es : List (Event CallOp ℕ ℕ)}
    (h : runSteps weighing.interp weighing.perform Fs pool s = some (es, pool', s'))
    (hthis : ∀ st ∈ Fs, st.head.length = 1) (hp : PoolWeighs pool) : s' = s + (encodeCalls Fs).length := by
  induction Fs generalizing pool s es with
  | nil => exact (runSteps_nil_eq h).2.2
  | cons st Fs ih =>
    obtain ⟨hs, p₁, s₁, vs, p₂, s₂, es', h₁, h₂, -, h₃⟩ := runSteps_cons_eq h
    obtain ⟨v, rfl⟩ : ∃ v, hs = [v] :=
      List.length_eq_one_iff.1 ((Forest.run_length h₁).trans (hthis st List.mem_cons_self))
    obtain ⟨hp₁, hw₁⟩ := run_weighing h₁ hp
    obtain ⟨hp₂, hw₂⟩ := run_weighing h₂ hp₁
    have hperf : weighing.perform st.op [v] vs s₂ = (5, s₂ + (9 + v + vs.sum)) := rfl
    simp only [hperf] at h₃
    have hrest := ih h₃ (fun st hst => hthis st (List.mem_cons_of_mem _ hst)) hp₂.concat
    have hcall : (encodeCall st).length = 9 + (encodeValues st.head).length + (encodeValues st.args).length := by
      simp only [encodeCall, List.length_append, length_toBytes, List.length_singleton]
      omega
    simp only [unpushed_none, List.sum_cons, List.sum_nil] at hw₁ hw₂
    rw [encodeCalls, List.flatMap_cons, List.length_append, hcall]
    have : (encodeCalls Fs).length = (Fs.flatMap encodeCall).length := rfl
    omega

/-! ## The parser consumes no more than it builds -/

namespace TestCaseParser

/-- What is left to read and what has been built. -/
def mass (p : TestCaseParser ℕ ℕ) : ℕ := p.input.data.length + p.target

/-- Reading a value consumes at most what the value and what was pushed for it weigh. -/
def Consumes (read : TestCaseParser ℕ ℕ → Except Error (ℕ × TestCaseParser ℕ ℕ)) : Prop :=
  ∀ p v p', PoolWeighs p.pool → read p = .ok (v, p') → PoolWeighs p'.pool ∧ p.mass ≤ p'.mass + v

theorem readInt_length (s : MemoryInputStream) (size : ℕ) :
    s.data.length ≤ (s.readInt size).2.data.length + size := (s.read_length size).2

/-- A loop of reads. What is pushed is `cost` lighter afterwards. -/
theorem Consumes.readEach {read : TestCaseParser ℕ ℕ → Except Error (ℕ × TestCaseParser ℕ ℕ)}
    (hread : Consumes read) {push : ℕ → TestCaseParser ℕ ℕ → TestCaseParser ℕ ℕ} {cost : ℕ → ℕ}
    (hpush : ∀ v p, (push v p).pool = p.pool ∧ p.mass + v ≤ (push v p).mass + cost v) {n : ℕ}
    (p : TestCaseParser ℕ ℕ) {p' : TestCaseParser ℕ ℕ} {vs : List ℕ} (hp : PoolWeighs p.pool)
    (h : readEach read push n p = .ok (vs, p')) :
    PoolWeighs p'.pool ∧ p.mass ≤ p'.mass + (vs.map cost).sum := by
  induction n generalizing p vs with
  | zero =>
    simp only [Caf.readEach, Except.ok.injEq, Prod.mk.injEq] at h
    obtain ⟨rfl, rfl⟩ := h
    exact ⟨hp, Nat.le_refl _⟩
  | succ n ih =>
    unfold Caf.readEach at h
    split at h
    · cases h
    · rename_i v p₁ h₁
      obtain ⟨hp₁, hm₁⟩ := hread p v p₁ hp h₁
      obtain ⟨hpool, hcost⟩ := hpush v p₁
      split at h
      · cases h
      · rename_i vs₁ p₂ h₂
        simp only [Except.ok.injEq, Prod.mk.injEq] at h
        obtain ⟨rfl, rfl⟩ := h
        obtain ⟨hp₂, hm₂⟩ := ih _ (hpool ▸ hp₁) h₂
        rw [List.map_cons, List.sum_cons]
        exact ⟨hp₂, by omega⟩

/-- A value without elements. -/
theorem give_consumes {p p' : TestCaseParser ℕ ℕ} {input : MemoryInputStream} {v w : ℕ}
    (hp : PoolWeighs p.pool) (hin : p.input.data.length ≤ input.data.length + w)
    (h : p.give input (w, p.target) = .ok (v, p')) : PoolWeighs p'.pool ∧ p.mass ≤ p'.mass + v := by
  simp only [give, Except.ok.injEq, Prod.mk.injEq] at h
  obtain ⟨rfl, rfl⟩ := h
  refine ⟨hp, ?_⟩
  simp only [mass, record]
  omega

/-- **The parser consumes no more than it builds**, on any input. -/
theorem parseValue_consumes (fuel : ℕ) : Consumes (parseValue weighing fuel) := by
  induction fuel with
  | zero => intro p v p' _ h; cases h
  | succ fuel ih =>
    intro p v p' hp h
    have hkind : p.input.data.length ≤ p.input.readByte.2.data.length + 1 := readInt_length _ 1
    unfold parseValue at h
    simp only at h
    split at h
    · exact give_consumes hp hkind h
    · exact give_consumes hp hkind h
    · have hval : p.input.readByte.2.data.length ≤ p.input.readByte.2.readByte.2.data.length + 1 :=
        readInt_length _ 1
      split at h
      · exact give_consumes hp (by omega) h
      · cases h
    · have hsize := readInt_length p.input.readByte.2 4
      have hbuf := (p.input.readByte.2.readInt 4).2.read_length (p.input.readByte.2.readInt 4).1
      have hlen : ((p.input.readByte.2.readInt 4).2.read (p.input.readByte.2.readInt 4).1).1.length =
          (p.input.readByte.2.readInt 4).1 := MemoryInputStream.length_read _ _
      exact give_consumes hp (by omega) h
    · have hval := readInt_length p.input.readByte.2 4
      exact give_consumes hp (by omega) h
    · have hval : p.input.readByte.2.data.length ≤ p.input.readByte.2.readInt32.2.data.length + 4 :=
        readInt_length _ 4
      exact give_consumes hp (by omega) h
    · have hval : p.input.readByte.2.data.length ≤ p.input.readByte.2.readFloat.2.data.length + 8 :=
        readInt_length _ 8
      exact give_consumes hp (by omega) h
    · have hsize := readInt_length p.input.readByte.2 4
      simp only [bind, Except.bind] at h
      split at h
      · cases h
      · rename_i x hx
        obtain ⟨vs, p₁⟩ := x
        simp only [pure, Except.pure, Except.ok.injEq, Prod.mk.injEq] at h
        obtain ⟨rfl, rfl⟩ := h
        have hpush : ∀ v (p : TestCaseParser ℕ ℕ), (pushElement weighing 5 v p).pool = p.pool ∧
            p.mass + v ≤ (pushElement weighing 5 v p).mass + 0 := fun v p =>
          ⟨rfl, Nat.le_of_eq (Nat.add_assoc _ _ _)⟩
        obtain ⟨hp₁, hm⟩ := ih.readEach hpush _ hp.concat hx
        have hzero : (vs.map fun _ => 0).sum = 0 := by simp
        rw [hzero] at hm
        refine ⟨hp₁, ?_⟩
        show p.mass ≤ p₁.mass + 5
        have hstart : (p.input.readByte.2.readInt 4).2.data.length + p.target ≤ p₁.mass + 0 := hm
        simp only [mass] at hstart ⊢
        omega
    · have hindex := readInt_length p.input.readByte.2 4
      split at h
      · rename_i w hw
        obtain rfl := hp w (List.mem_of_getElem? hw)
        exact give_consumes hp (by omega) h
      · cases h
    · cases h

theorem parseCall_consumes {fuel : ℕ} {p p' : TestCaseParser ℕ ℕ} (hp : PoolWeighs p.pool)
    (h : parseCall weighing fuel p = .ok p') : PoolWeighs p'.pool ∧ p.mass ≤ p'.mass := by
  have hid := readInt_length p.input 4
  unfold parseCall at h
  simp only [bind, Except.bind] at h
  split at h
  · cases h
  · rename_i x hx
    obtain ⟨thisValue, p₁⟩ := x
    obtain ⟨hp₁, hm₁⟩ := parseValue_consumes fuel { p with input := (p.input.readInt 4).2 } _ _ hp hx
    have hctor : p₁.input.data.length ≤ p₁.input.readByte.2.data.length + 1 := readInt_length _ 1
    have hcount := readInt_length p₁.input.readByte.2 4
    split at h
    · cases h
    · rename_i y hy
      obtain ⟨args, p₂⟩ := y
      have hskip : ∀ v (p : TestCaseParser ℕ ℕ), p.pool = p.pool ∧ p.mass + v ≤ p.mass + id v :=
        fun v p => ⟨rfl, Nat.le_refl _⟩
      obtain ⟨hp₂, hm₂⟩ := (parseValue_consumes fuel).readEach hskip
        { p₁ with input := (p₁.input.readByte.2.readInt 4).2 } hp₁ hy
      simp only [List.map_id, mass] at hm₁ hm₂
      cases h
      refine ⟨hp₂.concat, ?_⟩
      show p.input.data.length + p.target ≤ p₂.input.data.length + (p₂.target + (9 + thisValue + args.sum))
      omega

theorem parseCalls_consumes {fuel n : ℕ} {p p' : TestCaseParser ℕ ℕ} (hp : PoolWeighs p.pool)
    (h : parseCalls weighing fuel n p = .ok p') : p.mass ≤ p'.mass := by
  induction n generalizing p with
  | zero => cases h; exact Nat.le_refl _
  | succ n ih =>
    rw [parseCalls] at h
    cases hc : parseCall weighing fuel p with
    | error e => rw [hc] at h; cases h
    | ok p₁ =>
      rw [hc] at h
      obtain ⟨hp₁, hm₁⟩ := parseCall_consumes hp hc
      exact Nat.le_trans hm₁ (ih hp₁ h)

/-- **A run consumes no more than it builds**, but for the number of calls. -/
theorem parseAndRun_consumes {fuel : ℕ} {p p' : TestCaseParser ℕ ℕ}
    (h : parseAndRun weighing fuel p = .ok p') : p.mass ≤ p'.mass + 4 := by
  have hcount := readInt_length p.input 4
  have hm : (p.input.readInt 4).2.data.length + p.target ≤ p'.mass :=
    parseCalls_consumes (fun v hv => by cases hv) h
  simp only [mass] at hm ⊢
  omega

end TestCaseParser

/-! ## The parser and the serializer disagree -/

/-- **The parser never reads a test case as it was written.** -/
theorem not_parsesAsWritten {h : Heap} {tc : TestCase} (hw : WellFormed h tc) : ¬ ParsesAsWritten h tc := by
  intro hparse
  obtain ⟨Fs, S, h₁⟩ := walkSteps_exists hw
  obtain ⟨c, tr, hs, -, -⟩ := serialize_walk h₁
  obtain ⟨N, hN⟩ := hparse ℕ ℕ weighing 0 (fun _ => 0) _ (fun _ _ => rfl) hs
  have hfill := walk_fillThis h₁
  have hd := hfill.depth_le h.withUndefined.lt_of_graph ResultsBelow.nil List.nodup_nil
  -- what the reference evaluation weighs
  obtain ⟨es, P, s', hrun, -⟩ := hfill.run_start weighing.interp weighing.perform 0
  have hweight := runSteps_weighing hrun (fun st hst => (shape_fillThis h₁ hst).1) (fun v hv => by cases hv)
  obtain ⟨p, events, st, hp, hdata, heval, htarget⟩ := hN (max N (h.withUndefined.length + 1)) (Nat.le_max_left _ _)
  obtain ⟨st', heval', hhost, -⟩ := hfill.eval_eq ResultsBelow.nil (EvalState.start_views 0) rfl
    (fun st hst => ⟨Nat.le_trans (hd st hst).1 (Nat.le_max_right _ _),
      Nat.le_trans (hd st hst).2 (Nat.le_max_right _ _)⟩) hrun
  rw [TestCase.fillThis, TestCase.steps, heval', Option.some.injEq, Prod.mk.injEq] at heval
  obtain ⟨-, rfl⟩ := heval
  -- what the parser consumed
  have hm := TestCaseParser.parseAndRun_consumes hp
  simp only [TestCaseParser.mass, TestCaseParser.new, hdata, htarget, hhost, hweight, encodeTestCase,
    List.length_append, length_toBytes, List.length_nil] at hm
  omega

theorem sample_not_parsesAsWritten : ¬ ParsesAsWritten sampleHeap sampleCase :=
  not_parsesAsWritten sample_wellFormed

/-- The root entry index `0` is taken for the number of calls, and nothing is run. -/
theorem oneCall_not_run : WellFormed [] oneCall ∧ ¬ ParsesAsWritten [] oneCall := by
  refine ⟨oneCall_wellFormed, fun hparse => ?_⟩
  obtain ⟨N, hN⟩ := hparse ℕ ℕ weighing 0 (fun _ => 0) _ (fun _ _ => rfl) rfl
  obtain ⟨p, events, st, hp, hdata, -, -⟩ := hN N (Nat.le_refl _)
  cases hp
  cases hdata

end Caf
