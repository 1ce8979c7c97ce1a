import Caf.Proof.Insertion
import Caf.Proof.Synthesis

/-!
# Traversals of cyclic values

The serializer, synthesis and the dumper tour the object graph: what they have numbered or named is recorded. An
array is recorded before its elements are walked, so that the number of arrays that are not recorded bounds the nesting.
What is toured is shown of the logged runs, which are the runs of the traversals but for their logs.

* `serialize_tours`, `synthesis_tours`, `dump_tours`: tours of a test case.
* `traversals_visit_once`: all traversals, `Fix` included, which keeps a list of the arrays it has visited.
-/

namespace Caf

open ObjectGraph Run

section Visited

variable {h : Heap} {tc : TestCase} {log : List Visit} {P P' : Set ℕ}

/-- **A tour of the calls visits every array once.** -/
theorem visitedOnce (ht : Tour h.graph none ∅ (tc.calls.flatMap FunctionCall.roots) log P') :
    VisitedOnce h tc log := by
  obtain ⟨hnd, hmem⟩ := ht.once
  have harrays : ∀ a, a ∈ entered log ↔ tc.Reaches h a ∧ ∃ es, h[a]? = some (.array es) := by
    intro a
    rw [hmem a]
    simp only [List.mem_flatMap, TestCase.Reaches, Heap.graph_array]
    constructor
    · rintro ⟨⟨r, ⟨call, hcall, hr⟩, hreach⟩, hes⟩
      exact ⟨⟨call, hcall, r, hr, hreach⟩, hes⟩
    · rintro ⟨⟨call, hcall, r, hr, hreach⟩, hes⟩
      exact ⟨⟨r, ⟨call, hcall, hr⟩, hreach⟩, hes⟩
  refine ⟨hnd, harrays, fun a ha es hes => ?_, fun a ha => ht.taken_other (by simp) ha⟩
  exact ht.elements (by simp) ha (Heap.graph_array.2 hes)

variable {α : Type} {x : Logged Visit (Except Error) α} {r : Except Error α} {E : Error → Prop} {seen : α → Set ℕ}

/-- A program that tours the calls is a log of the visits of the run. -/
theorem logsVisits (hx : Erases x r) (ht : Tours h.graph E none P (tc.calls.flatMap FunctionCall.roots) x seen)
    (hP : P = ∅) : LogsVisits h tc x r := by
  refine ⟨hx, fun a ha => ?_⟩
  obtain ⟨log, hrun⟩ := (hx.ok_iff []).1 ha
  obtain ⟨l, hlog, htour⟩ := ht.returned hrun
  rw [List.nil_append] at hlog
  subst hlog hP
  exact ⟨log, hrun, visitedOnce htour⟩

/-- A value without elements is not entered. -/
theorem skip_flat {a : Addr} {v : Value} (hv : h[a]? = some v) (hne : ∀ es, v ≠ .array es)
    (hx : Tours h.graph E none P [] x seen) : Tours h.graph E none P [a] x seen :=
  .skip (fun es hes => absurd ⟨es, Heap.graph_array.1 hes⟩ (not_isArray hv hne)) hx

end Visited

/-- The objects that a table knows. -/
def recorded (table : Addr → Option ℕ) : Set ℕ := {a | (table a).isSome}

theorem recorded_none : recorded (fun _ => none) = ∅ := by
  ext a
  simp [recorded]

theorem recorded_update (table : Addr → Option ℕ) (a : Addr) (k : ℕ) :
    recorded (Function.update table a (some k)) = insert a (recorded table) := by
  ext b
  by_cases hb : b = a
  · subst b
    simp [recorded]
  · simp [recorded, hb]

/-! ## The serializer -/

namespace TestCaseSerializer

variable {h : Heap} {fuel i : ℕ} {a : Addr} {s s' : TestCaseSerializer}

/-- The arrays that have a slot. -/
def seen (s : TestCaseSerializer) : Set ℕ := recorded s.context.valueIndexes

theorem seen_writeLiteral (l : Literal) : (s.writeLiteral l).seen = s.seen := by
  rw [writeLiteral_eq]
  rfl

/-- An object is written itself, or a reference takes its place. -/
theorem substitute_cases (c : SerializationContext) (a : Addr) (value : Value) :
    ((c.valueIndexes a).isSome = false ∧ c.substitute a value = .ok value ∧ ∀ i, value ≠ .placeholder i) ∨
      (∃ x, c.substitute a value = Value.placeholder <$> x) ∧ ∀ es, value = .array es → (c.valueIndexes a).isSome := by
  cases value with
  | placeholder i => exact .inr ⟨⟨_, rfl⟩, fun es hes => by cases hes⟩
  | literal l =>
    by_cases hs : (c.valueIndexes a).isSome
    · exact .inr ⟨⟨c.getValueIndex a, by simp [SerializationContext.substitute, hs]⟩, fun es hes => by cases hes⟩
    · exact .inl ⟨by simpa using hs, by simp [SerializationContext.substitute, hs], fun i hi => by cases hi⟩
  | array es =>
    by_cases hs : (c.valueIndexes a).isSome
    · exact .inr ⟨⟨c.getValueIndex a, by simp [SerializationContext.substitute, hs]⟩, fun _ _ => hs⟩
    · exact .inl ⟨by simpa using hs, by simp [SerializationContext.substitute, hs], fun i hi => by cases hi⟩

theorem serializeValue_tours : ∀ fuel a s,
    Tours h.graph (fun _ => True) none s.seen [a] (serializeValueLogged h fuel a s) seen := by
  intro fuel
  induction fuel with
  | zero => exact fun a s => .error trivial
  | succ fuel ih =>
    intro a s
    unfold serializeValueLogged
    cases hv : h[a]? with
    | none => exact .error trivial
    | some value =>
      refine .silentThen (fun _ _ => trivial) fun v hsub => ?_
      rcases substitute_cases s.context a value with ⟨hnew, hsame, hne⟩ | ⟨⟨x, hsame⟩, hseen⟩
      · rw [hsame] at hsub
        cases hsub
        cases value with
        | literal l =>
          exact skip_flat hv (by simp) (.pure (seen_writeLiteral l))
        | placeholder i => exact absurd rfl (hne i)
        | array es =>
          -- the array takes its slot before the loop, so that its elements find it
          have hn : a ∉ s.seen := by
            simp [seen, recorded, hnew]
          have hloop : ∀ t : TestCaseSerializer, Tours h.graph (fun _ => True) (some a) t.seen es
              (es.foldlM (fun t e => note [.take a e] >>= fun _ => serializeValueLogged h fuel e t) t) seen := fun t =>
            .eachAddress (fun e _ t _ => .take (ih e t)) (Set.empty_subset t.seen)
          exact .enter (Heap.graph_array.2 hv) hn ((hloop _).start (recorded_update _ _ _))
      · rw [hsame] at hsub
        cases x with
        | error e => cases hsub
        | ok k =>
          cases hsub
          refine .skip (fun es hes => ?_) (.pure rfl)
          rw [Heap.graph_array, hv] at hes
          exact hseen es (Option.some.inj hes)

theorem serializeThis_tours (fuel : ℕ) (call : FunctionCall) (s : TestCaseSerializer) :
    Tours h.graph (fun _ => True) none s.seen call.thisValue.toList (serializeThisLogged h fuel call s) seen := by
  unfold serializeThisLogged
  cases call.thisValue with
  | none => exact .pure (seen_writeLiteral _)
  | some a => exact serializeValue_tours fuel a s

theorem serializeFunctionCall_tours (call : FunctionCall) (s : TestCaseSerializer) :
    Tours h.graph (fun _ => True) none s.seen call.roots (serializeFunctionCallLogged h fuel call s) seen := by
  have hargs : ∀ t : TestCaseSerializer, Tours h.graph (fun _ => True) none t.seen call.args
      (call.args.foldlM (fun t a => serializeValueLogged h fuel a t) t) seen := fun t =>
    .eachAddress (fun a _ t _ => serializeValue_tours fuel a t) (Set.empty_subset t.seen)
  refine Tours.start ((serializeThis_tours fuel call _).bind fun t _ => ?_) rfl
  exact (hargs _).start rfl

theorem serializeCalls_tours (fuel : ℕ) (calls : List FunctionCall) : ∀ i s,
    Tours h.graph (fun _ => True) none s.seen (calls.flatMap FunctionCall.roots) (serializeCallsLogged h fuel i calls s)
      seen := by
  induction calls with
  | nil => exact fun i s => .pure rfl
  | cons call calls ih =>
    intro i s
    rw [List.flatMap_cons]
    exact (serializeFunctionCall_tours call s).bind fun t _ => (ih (i + 1) _).start rfl

/-- **The serializer.** -/
theorem serialize_tours (h : Heap) (tc : TestCase) :
    Tours h.graph (fun _ => True) none new.seen (tc.calls.flatMap FunctionCall.roots) (serializeLogged h tc) seen :=
  (serializeCalls_tours _ _ _ _).start rfl

end TestCaseSerializer

/-! ## The dumper -/

namespace TestCaseDumper

variable (store : CAFStore) (formatDouble : Double → StdString) (demangle : Option (StdString → Option StdString))
  {h : Heap} {fuel : ℕ} {E : Error → Prop} {d d' : TestCaseDumper}

/-- The arrays that have a slot. -/
def seen (d : TestCaseDumper) : Set ℕ := recorded d.context.valueToIndex

/-- The store has the function, or what it throws is excused. -/
def Answers (store : CAFStore) (E : Error → Prop) (id : FunctionIdType) : Prop :=
  ∀ e, store.getFunction id = .error e → E e

/-- The function of a function value is answered. -/
def Dumpable (store : CAFStore) (E : Error → Prop) (v : Value) : Prop :=
  ∀ id, v = .literal (.function id) → Answers store E id

theorem dumpLiteral_context {l : Literal} (hd : d.dumpLiteral store formatDouble demangle l = .ok d') :
    d'.context = d.context := by
  cases l with
  | function id =>
    obtain ⟨f, -, hd⟩ := bind_eq_ok.1 hd
    cases hd
    rfl
  | undefined => cases hd; rfl
  | null => cases hd; rfl
  | boolean b => cases hd; rfl
  | string s => cases hd; rfl
  | integer i => cases hd; rfl
  | float x => cases hd; rfl

theorem dumpLiteral_error {l : Literal} (hl : Dumpable store E (.literal l)) {e : Error}
    (hd : d.dumpLiteral store formatDouble demangle l = .error e) : E e := by
  cases l with
  | function id =>
    cases hget : store.getFunction id with
    | ok f =>
      simp only [dumpLiteral, hget] at hd
      cases hd
    | error e' =>
      simp only [dumpLiteral, hget] at hd
      cases hd
      exact hl id rfl e hget
  | undefined => cases hd
  | null => cases hd
  | boolean b => cases hd
  | string s => cases hd
  | integer i => cases hd
  | float x => cases hd

/-- A loop over values, with something printed before each. -/
theorem each_tours (step : TestCaseDumper → Addr × ℕ → Logged Visit (Except Error) TestCaseDumper)
    (before : TestCaseDumper → ℕ → TestCaseDumper) (hbefore : ∀ d i, (before d i).context = d.context) {as : List Addr}
    {P : Set ℕ} {dest : Option Addr} (hstep : ∀ a ∈ as, ∀ i (t : TestCaseDumper), P ⊆ t.seen →
      Tours h.graph E dest (before t i).seen [a] (step t (a, i)) seen) (hd : P ⊆ d.seen) :
    Tours h.graph E dest d.seen as (as.zipIdx.foldlM step d) seen := by
  refine .eachAddressIndexed (fun a ha i t ht => ?_) hd
  have hsame : (before t i).seen = t.seen := by
    unfold seen
    rw [hbefore]
  rw [← hsame]
  exact hstep a ha i t ht

theorem dumpValue_tours : ∀ fuel a d, h.Holds (Dumpable store E) a → unrecorded h.length d.seen < fuel →
    Tours h.graph E none d.seen [a] (dumpValueLogged store formatDouble demangle h fuel a d) seen := by
  intro fuel
  induction fuel with
  | zero =>
    intro a d _ hfuel
    omega
  | succ fuel ih =>
    intro a d ha hfuel
    unfold dumpValueLogged
    cases hslot : d.context.valueToIndex a with
    | some k =>
      have hseen : a ∈ d.seen := by simp [seen, recorded, hslot]
      exact .skip (fun _ _ => hseen) (.pure rfl)
    | none =>
      obtain ⟨v, hv, hdump⟩ := ha a .refl
      rw [hv]
      cases v with
      | literal l =>
        refine skip_flat hv (by simp) (.silent (fun e he => dumpLiteral_error _ _ _ hdump he) fun d' hd' => ?_)
        unfold seen
        rw [dumpLiteral_context _ _ _ hd']
      | placeholder k =>
        exact skip_flat hv (by simp) (.pure rfl)
      | array es =>
        have hn : a ∉ d.seen := by simp [seen, recorded, hslot]
        have hseen : (d.dumpArrayHeader a es.length).seen = insert a d.seen := recorded_update _ _ _
        have hlt : a < h.length := (List.getElem?_eq_some_iff.1 hv).1
        -- the slot is taken before the elements are dumped, and none is given back: the fuel lasts
        have hless := unrecorded_insert hlt hn
        have hbound : ∀ t : TestCaseDumper, insert a d.seen ⊆ t.seen → unrecorded h.length t.seen < fuel := by
          intro t ht
          have hle := unrecorded_mono h.length ht
          omega
        have hloop : Tours h.graph E (some a) (d.dumpArrayHeader a es.length).seen es _ seen :=
          each_tours (fun t e => note [.take a e.1] >>= fun _ =>
            dumpValueLogged store formatDouble demangle h fuel e.1 (t.dumpElementHeader e.2)) dumpElementHeader
            (fun _ _ => rfl) (fun e he i t ht => .take (ih e _ (ha.elements hv he) (hbound t ht))) (le_of_eq hseen.symm)
        refine .enter (Heap.graph_array.2 hv) hn ((hloop.start hseen).andThen fun t => ?_)
        exact .pure rfl

theorem dumpThis_tours (hfuel : h.length < fuel) (thisValue : Option Addr)
    (hthis : ∀ a ∈ thisValue.toList, h.Holds (Dumpable store E) a) (d : TestCaseDumper) :
    Tours h.graph E none d.seen thisValue.toList (dumpThisLogged store formatDouble demangle h fuel thisValue d)
      seen := by
  cases thisValue with
  | none => exact .pure rfl
  | some a =>
    have ha := hthis a (by simp)
    have hvalue := fun t : TestCaseDumper =>
      dumpValue_tours store formatDouble demangle fuel a t ha
        (Nat.lt_of_le_of_lt (unrecorded_le _ _) hfuel)
    refine Tours.start ((hvalue _).andThen fun t => ?_) rfl
    exact .pure rfl

theorem dumpFunctionCall_tours (hfuel : h.length < fuel) (call : FunctionCall) (hfunc : Answers store E call.funcId)
    (hroots : ∀ a ∈ call.roots, h.Holds (Dumpable store E) a) (d : TestCaseDumper) :
    Tours h.graph E none d.seen call.roots (dumpFunctionCallLogged store formatDouble demangle h fuel call d)
      seen := by
  refine .silentThen hfunc fun func _ => ?_
  have hctx : (d.dumpCallHeader demangle call func).seen = d.seen := by
    unfold seen dumpCallHeader
    split <;> rfl
  have hthis := dumpThis_tours store formatDouble demangle hfuel call.thisValue
    (fun a ha => hroots a (List.mem_append_left _ ha)) (d.dumpCallHeader demangle call func)
  rw [hctx] at hthis
  refine hthis.bind fun t _ => ?_
  have hargs : Tours h.graph E none t.pushIndent.seen call.args _ seen :=
    each_tours (fun t a => dumpValueLogged store formatDouble demangle h fuel a.1 (t.dumpArgHeader a.2)) dumpArgHeader
      (fun _ _ => rfl) (fun a ha i t _ => dumpValue_tours store formatDouble demangle fuel a (t.dumpArgHeader i)
        (hroots a (List.mem_append_right _ ha)) (Nat.lt_of_le_of_lt (unrecorded_le _ _) hfuel)) (Set.empty_subset _)
  refine Tours.andThen (hargs.start rfl) fun t => ?_
  exact .pure rfl

theorem dumpCall_tours (hfuel : h.length < fuel) (call : FunctionCall) (hfunc : Answers store E call.funcId)
    (hroots : ∀ a ∈ call.roots, h.Holds (Dumpable store E) a) (count callId : ℕ) (d : TestCaseDumper) :
    Tours h.graph E none d.seen call.roots (dumpCallLogged store formatDouble demangle h fuel count callId call d)
      seen := by
  have hcall := fun t => dumpFunctionCall_tours store formatDouble demangle hfuel call hfunc hroots t
  refine Tours.start ((hcall _).andThen fun t => ?_) rfl
  refine .pure ?_
  split <;> rfl

/-- **A dump of a test case** fails only where the store does not have a function. -/
theorem dump_tours {tc : TestCase} (hfunc : ∀ call ∈ tc.calls, Answers store E call.funcId)
    (hroots : ∀ call ∈ tc.calls, ∀ a ∈ call.roots, h.Holds (Dumpable store E) a) (printer : Printer) :
    Tours h.graph E none (recorded fun _ => none) (tc.calls.flatMap FunctionCall.roots)
      (dumpLogged store formatDouble demangle h tc printer) seen := by
  have hcalls : ∀ d, Tours h.graph E none d.seen (tc.calls.flatMap FunctionCall.roots) (tc.calls.zipIdx.foldlM
      (fun d call => dumpCallLogged store formatDouble demangle h (h.length + 1) tc.calls.length call.2 call.1 d) d)
      seen := fun d =>
    .eachIndexed (fun call hcall i t _ => dumpCall_tours store formatDouble demangle (Nat.lt_succ_self _) call
      (hfunc call hcall) (hroots call hcall) _ i t) (Set.empty_subset _)
  exact (hcalls _).start rfl

end TestCaseDumper

/-! ## Synthesis -/

section Synthesis

variable {W : Type} {w : Writer W} {h : Heap} {store : CAFStore} {fuel : ℕ} {a : Addr} {b b' : SynthesisBuilder W}

namespace SynthesisBuilder

/-- The arrays that have a variable. -/
def seen (h : Heap) (b : SynthesisBuilder W) : Set ℕ := {a | a ∈ recorded b.synthesisedVariables ∧ IsArray h a}

/-- An error of a lookup, or of the writer. -/
def Excused (w : Writer W) (e : Error) : Prop := e ≠ .outOfFuel ∨ w.Fails e

theorem emit_seen {st : Statement} (hb : b.emit w st = .ok b') : seen h b' = seen h b := by
  obtain ⟨out, -, hb⟩ := bind_eq_ok.1 hb
  cases hb
  rfl

theorem emit_error {st : Statement} {e : Error} (he : b.emit w st = .error e) : Excused w e := by
  unfold emit at he
  cases hw : w.write st b.output with
  | error e' =>
    rw [hw] at he
    cases he
    exact .inr ⟨_, .inr (.inr ⟨st, hw⟩)⟩
  | ok out =>
    rw [hw] at he
    cases he

theorem variableAt_error {i : ℕ} {e : Error} (he : b.variableAt i = .error e) : Excused w e := by
  unfold variableAt at he
  split at he
  · cases he
  · cases he
    exact .inl (by decide)

theorem getRetValueVariable_error {i : ℕ} {e : Error} (he : b.getRetValueVariable i = .error e) : Excused w e := by
  unfold getRetValueVariable at he
  split at he
  · exact variableAt_error he
  · cases he
    exact .inl (by decide)

/-- **A loop over values.** -/
theorem eachVariable_tours {dest : Option Addr} {P : Set ℕ}
    {read : Addr → SynthesisBuilder W → Logged Visit (Except Error) (StdString × SynthesisBuilder W)}
    {use : StdString → SynthesisBuilder W → Except Error (SynthesisBuilder W)} {as : List Addr}
    (hread : ∀ a ∈ as, ∀ b, P ⊆ seen h b →
      Tours h.graph (Excused w) none (seen h b) [a] (read a b) fun r => seen h r.2)
    (huse : ∀ y b, Outcome (Excused w) (fun b' => seen h b' = seen h b) (use y b)) : ∀ b, P ⊆ seen h b →
    Tours h.graph (Excused w) dest (seen h b) as (eachVariableLogged dest read use as b) fun r => seen h r.2 := by
  induction as with
  | nil => exact fun b _ => .pure rfl
  | cons a as ih =>
    intro b hb
    have htake : Tours h.graph (Excused w) dest (seen h b) [a] (note (takes dest a) >>= fun _ => read a b)
        fun r => seen h r.2 := .take (hread a List.mem_cons_self b hb)
    have hrest : ∀ r : StdString × SynthesisBuilder W, seen h b ⊆ seen h r.2 →
        Tours h.graph (Excused w) dest (seen h r.2) as (Run.silent (use r.1 r.2) >>= fun b =>
          eachVariableLogged dest read use as b >>= fun rs => pure (r.1 :: rs.1, rs.2)) fun r => seen h r.2 := by
      intro r hr
      have hused := huse r.1 r.2
      refine .silentThen (fun e he => ?_) fun b' hb' => ?_
      · rwa [he] at hused
      · rw [hb'] at hused
        have hsame : seen h b' = seen h r.2 := hused
        rw [← hsame]
        have hloop := ih (fun e he => hread e (List.mem_cons_of_mem _ he)) b' (hsame ▸ hb.trans hr)
        exact hloop.andThen fun rs => .pure rfl
    have hwhole := htake.bind hrest
    rwa [bind_assoc] at hwhole

/-- Naming an object records it, if it is an array. -/
theorem mem_seen_bindNext (b : SynthesisBuilder W) (a c : Addr) :
    c ∈ seen h (b.bindNext a) ↔ (c = a ∨ c ∈ recorded b.synthesisedVariables) ∧ IsArray h c := by
  have hnext : recorded (b.bindNext a).synthesisedVariables = insert a (recorded b.synthesisedVariables) :=
    recorded_update _ _ _
  unfold seen
  rw [hnext]
  rfl

/-- Only arrays are recorded. -/
theorem seen_bindNext_flat (b : SynthesisBuilder W) (ha : ¬ IsArray h a) : seen h (b.bindNext a) = seen h b := by
  ext c
  rw [mem_seen_bindNext]
  constructor
  · rintro ⟨rfl | hc, harr⟩
    · exact absurd harr ha
    · exact ⟨hc, harr⟩
  · rintro ⟨hc, harr⟩
    exact ⟨.inr hc, harr⟩

theorem seen_bindNext_array (b : SynthesisBuilder W) (ha : IsArray h a) :
    seen h (b.bindNext a) = insert a (seen h b) := by
  ext c
  rw [mem_seen_bindNext]
  constructor
  · rintro ⟨rfl | hc, harr⟩
    · exact .inl rfl
    · exact .inr ⟨hc, harr⟩
  · rintro (rfl | ⟨hc, harr⟩)
    · exact ⟨.inl rfl, ha⟩
    · exact ⟨.inr hc, harr⟩

theorem emit_used (st : Statement) (b : SynthesisBuilder W) :
    Outcome (Excused w) (fun b' => seen h b' = seen h b) (b.emit w st) := by
  cases hb : b.emit w st with
  | error e => exact emit_error hb
  | ok b' => exact emit_seen hb

theorem synthesisConstant_tours : ∀ fuel a (b : SynthesisBuilder W), unrecorded h.length (seen h b) < fuel →
    Tours h.graph (Excused w) none (seen h b) [a] (synthesisConstantLogged w h fuel a b) fun r => seen h r.2 := by
  intro fuel
  induction fuel with
  | zero =>
    intro a b hfuel
    omega
  | succ fuel ih =>
    intro a b hfuel
    unfold synthesisConstantLogged
    cases hvar : b.synthesisedVariables a with
    | some i =>
      refine .silentThen (fun e he => variableAt_error he) fun x _ => .skip (fun es hes => ?_) (.pure rfl)
      exact ⟨by simp [recorded, hvar], es, Heap.graph_array.1 hes⟩
    | none =>
      cases hv : h[a]? with
      | none => exact .error (.inl (by decide))
      | some v =>
        cases v with
        | placeholder k =>
          exact .silentThen (fun e he => getRetValueVariable_error he) fun x _ => skip_flat hv (by simp) (.pure rfl)
        | literal l =>
          refine .silentThen (fun e he => emit_error he) fun b' hb' => skip_flat hv (by simp) (.pure ?_)
          have hnext : seen h (b.bindNext a) = seen h b := seen_bindNext_flat b (not_isArray hv (by simp))
          exact (emit_seen hb').trans hnext
        | array es =>
          have hlt : a < h.length := (List.getElem?_eq_some_iff.1 hv).1
          have hn : a ∉ seen h b := fun hc => by simp [seen, recorded, hvar] at hc
          -- one more array has a variable, so the fuel lasts for the elements
          have hless := unrecorded_insert hlt hn
          have hnext : seen h (b.bindNext a) = insert a (seen h b) := seen_bindNext_array b ⟨es, hv⟩
          refine .silentThen (fun e he => emit_error he) fun b' hb' => ?_
          have hseen : seen h b' = insert a (seen h b) := (emit_seen hb').trans hnext
          have hbound : ∀ t : SynthesisBuilder W, seen h b' ⊆ seen h t → unrecorded h.length (seen h t) < fuel := by
            intro t ht
            have hle := unrecorded_mono h.length (hseen ▸ ht)
            omega
          refine .enter (Heap.graph_array.2 hv) hn ?_
          rw [← hseen]
          refine Tours.andThen (eachVariable_tours (fun e _ t ht => ih e t (hbound t ht)) (fun y c => emit_used _ c) b'
            subset_rfl) fun r => .pure rfl

theorem synthesisThis_tours (hfuel : h.length < fuel) (thisValue : Option Addr) (b : SynthesisBuilder W) :
    Tours h.graph (Excused w) none (seen h b) thisValue.toList (b.synthesisThisLogged w h fuel thisValue)
      fun r => seen h r.2 := by
  cases thisValue with
  | none => exact .pure rfl
  | some a => exact synthesisConstant_tours fuel a b (Nat.lt_of_le_of_lt (unrecorded_le _ _) hfuel)

theorem synthesisFunctionCall_used (name : StdString) (ctor : Bool) (receiver : StdString) (args : List StdString)
    (b : SynthesisBuilder W) :
    Outcome (Excused w) (fun r => seen h r.2 = seen h b) (b.synthesisFunctionCall w name ctor receiver args) := by
  unfold synthesisFunctionCall
  dsimp only
  refine Outcome.bind (emit_used (h := h) _ b.nextVariableName.2) fun b' hb' => ?_
  have hsame : seen h b' = seen h b.nextVariableName.2 := hb'
  exact hsame

end SynthesisBuilder

namespace TestCaseSynthesiser

open SynthesisBuilder

theorem getFunction_error {id : FunctionIdType} {e : Error} (he : store.getFunction id = .error e) :
    e ≠ .outOfFuel := by
  unfold CAFStore.getFunction at he
  split at he
  · cases he
    decide
  · rename_i node _
    unfold CAFStore.getEntry at he
    split at he
    · rename_i entry _
      change entry.getFunction = _ at he
      unfold Entry.getFunction at he
      split at he
      · cases he
      · cases he
        decide
    · cases he
      decide

theorem synthesisCall_tours (store : CAFStore) (hfuel : h.length < fuel) (call : FunctionCall)
    (b : SynthesisBuilder W) :
    Tours h.graph (Excused w) none (seen h b) call.roots (synthesisCallLogged w store h fuel call b) (seen h) := by
  have huse : ∀ (_ : StdString) (c : SynthesisBuilder W),
      Outcome (Excused w) (fun b' => seen h b' = seen h c) (.ok c) := fun _ _ => rfl
  have hargs : ∀ b : SynthesisBuilder W, Tours h.graph (Excused w) none (seen h b) call.args
      (eachVariableLogged none (synthesisConstantLogged w h fuel) (fun _ b => .ok b) call.args b) fun r => seen h r.2 :=
    fun b => eachVariable_tours (fun a _ t _ => synthesisConstant_tours fuel a t
      (Nat.lt_of_le_of_lt (unrecorded_le _ _) hfuel)) huse b (Set.empty_subset _)
  refine (synthesisThis_tours hfuel call.thisValue b).bind fun r _ => (hargs r.2).andThen fun rs => ?_
  -- the rest of the call records nothing
  refine .silentThen (fun e he => .inl (getFunction_error he)) fun f _ => ?_
  have hcall := synthesisFunctionCall_used (h := h) (w := w) f.name call.ctor r.1 rs.1 rs.2
  refine .silentThen (fun e he => ?_) fun q hq => .pure ?_
  · rwa [he] at hcall
  · rwa [hq] at hcall

theorem synthesisCalls_tours (store : CAFStore) (hfuel : h.length < fuel) (calls : List FunctionCall) :
    ∀ b : SynthesisBuilder W, Tours h.graph (Excused w) none (seen h b) (calls.flatMap FunctionCall.roots)
      (synthesisCallsLogged w store h fuel calls b) (seen h) := by
  induction calls with
  | nil => exact fun b => .pure rfl
  | cons call calls ih =>
    intro b
    rw [List.flatMap_cons]
    exact (synthesisCall_tours store hfuel call b).bind fun t _ => ih t

/-- **Synthesis.** -/
theorem synthesis_tours (w : Writer W) (store : CAFStore) (tc : TestCase) (hfuel : h.length < fuel) (out : W) :
    Tours h.graph (Excused w) none ∅ (tc.calls.flatMap FunctionCall.roots)
      (synthesisLogged w store h fuel tc (.new out)) (seen h) := by
  refine .silentThen (fun e he => .inr ⟨_, .inl he⟩) fun out' _ => ?_
  have hnone : seen h { SynthesisBuilder.new out with output := out' } = ∅ := by
    ext a
    simp [seen, SynthesisBuilder.new, recorded]
  have hcalls := synthesisCalls_tours (w := w) store hfuel tc.calls { SynthesisBuilder.new out with output := out' }
  rw [hnone] at hcalls
  refine hcalls.andThen fun b' => .silentThen (fun e he => .inr ⟨_, .inr (.inl he)⟩) fun out'' _ => .pure rfl

end TestCaseSynthesiser

end Synthesis

/-! ## Placeholders -/

namespace PlaceholderFixer

variable {E : Error → Prop} {fixer : Fixer} {s : Fuzzer} {tc : TestCase} {start : ℕ}

/-- A fixer that makes new objects in the pool, and leaves the objects that are there as they are. -/
def OnlyAdds (E : Error → Prop) (fixer : Fixer) : Prop :=
  ∀ k j (s : Fuzzer), PoolReady s.pool → Ensures E (fixer k j) s fun _ s' => PoolReady s'.pool ∧ s.pool.Extends s'.pool

theorem fixAdded_onlyAdds (E : Error → Prop) (index : ℕ) : OnlyAdds E (TestCaseMutator.fixAdded index) := by
  intro k j s h
  refine ((fixAdded_ok E 0 index).run k j s (Nat.zero_le _) h).mono ?_
  rintro a s' ⟨hready, hext, -⟩
  exact ⟨hready, hext⟩

/-- **Fixing fails only where the fixer does**, and visits every array once. -/
theorem fix_visits (hfixer : OnlyAdds E fixer) (h : PoolReady s.pool)
    (hcalls : ∀ call ∈ tc.calls.drop start, ∀ a ∈ call.roots, s.heap.Holds (fun _ => True) a) :
    Ensures E (fix fixer start tc) s fun tc' s' => ∃ log, fixLogged fixer start tc [] s = .ok ((tc', log), s') ∧
      VisitedOnce s.heap { tc with calls := tc.calls.drop start } log := by
  -- what the fixer puts in the place of a placeholder does not matter here
  have hok : FixerOK E s.heap.length fixer fun _ _ _ _ => True :=
    ⟨fun k j t _ ht => (hfixer k j t ht).mono fun _ _ hadd => ⟨hadd.1, hadd.2, trivial⟩, fun _ _ => trivial⟩
  refine ((fixLogged_erases fixer start tc).ensures (fixLogged_ensures start tc hok h hcalls)).mono ?_
  rintro tc' s' ⟨log, hrun, calls', F', -, htour, -⟩
  exact ⟨log, hrun, visitedOnce htour⟩

end PlaceholderFixer

/-! ## All of them -/

section Traversals

variable {h : Heap} {tc : TestCase}

theorem dumpable {store : CAFStore} (hw : WellFormed h tc) {call : FunctionCall} (hcall : call ∈ tc.calls) {a : Addr}
    (ha : a ∈ call.roots) : h.Holds (TestCaseDumper.Dumpable store (store.Lacks h tc)) a := by
  obtain ⟨n, hn⟩ := List.mem_iff_getElem?.1 hcall
  intro b hb
  obtain ⟨v, hv, -⟩ := sound_iff.1 (hw n call hn a ha) b hb
  refine ⟨v, hv, ?_⟩
  rintro id rfl e he
  exact ⟨id, he, .inr ⟨b, ⟨call, hcall, a, ha, hb⟩, hv⟩⟩

/-- **Every traversal of a well-formed test case ends**, whatever cycles its arrays have, and walks every array that
the test case reaches once, with each of its elements. These are the serializer; synthesis, which fails where the writer
does or where a lookup does; the dumper, which fails where the store does not have a function; and `Fix`, of calls of
the test case or of others whose objects exist, which fails where the fixer does. -/
theorem traversals_visit_once (hw : WellFormed h tc) :
    ((∃ s, TestCaseSerializer.serialize h tc = .ok s) ∧
      LogsVisits h tc (TestCaseSerializer.serializeLogged h tc) (TestCaseSerializer.serialize h tc)) ∧
    (∀ {W : Type} (w : Writer W) (store : CAFStore) (out : W) (fuel : ℕ), h.length < fuel →
      LogsVisits h tc (TestCaseSynthesiser.synthesisLogged w store h fuel tc (.new out))
        (TestCaseSynthesiser.synthesis w store h fuel tc (.new out)) ∧
      (∀ e, TestCaseSynthesiser.synthesis w store h fuel tc (.new out) = .error e → e ≠ .outOfFuel ∨ w.Fails e) ∧
      (store.HasCalled tc → WritesScript store h tc)) ∧
    (∀ (store : CAFStore) (formatDouble : Double → StdString) (demangle : Option (StdString → Option StdString))
      (printer : Printer),
      LogsVisits h tc (TestCaseDumper.dumpLogged store formatDouble demangle h tc printer)
        (TestCaseDumper.dump store formatDouble demangle h tc printer) ∧
      ∀ e, TestCaseDumper.dump store formatDouble demangle h tc printer = .error e → store.Lacks h tc e) ∧
    ∀ (E : Error → Prop) (fixer : PlaceholderFixer.Fixer) (s : Fuzzer) (start : ℕ) (tc' : TestCase), s.heap = h →
      s.pool.InMemory → PlaceholderFixer.OnlyAdds E fixer →
      (∀ call ∈ tc'.calls.drop start, call ∈ tc.calls ∨ ∀ a ∈ call.roots, h.Holds (fun _ => True) a) →
      Erases (PlaceholderFixer.fixLogged fixer start tc') (PlaceholderFixer.fix fixer start tc') ∧
      Ensures E (PlaceholderFixer.fix fixer start tc') s fun fixed s' =>
        ∃ log, PlaceholderFixer.fixLogged fixer start tc' [] s = .ok ((fixed, log), s') ∧
          VisitedOnce h { tc' with calls := tc'.calls.drop start } log := by
  obtain ⟨Fs, S, hwalk⟩ := walkSteps_exists hw
  refine ⟨?_, fun w store out fuel hfuel => ?_, fun store formatDouble demangle printer => ?_,
    fun E fixer s start tc' hs hpool hfixer hcalls => ?_⟩
  · obtain ⟨c, tr, hs, -⟩ := serialize_walk hwalk
    have htours := TestCaseSerializer.serialize_tours h tc
    exact ⟨⟨_, hs⟩, logsVisits (TestCaseSerializer.serializeLogged_erases h tc) htours recorded_none⟩
  · have herases := TestCaseSynthesiser.synthesisLogged_erases w store h fuel tc (.new out)
    have htours := TestCaseSynthesiser.synthesis_tours w store tc hfuel out
    refine ⟨logsVisits herases htours rfl, fun e he => ?_, writesScript_of_walk hwalk⟩
    exact htours.failed ((herases.error_iff []).1 he)
  · have herases := TestCaseDumper.dumpLogged_erases store formatDouble demangle h tc printer
    have htours := TestCaseDumper.dump_tours store formatDouble demangle
      (fun call hcall e he => (⟨call.funcId, he, .inl ⟨call, hcall, rfl⟩⟩ : store.Lacks h tc e))
      (fun call hcall a ha => dumpable hw hcall ha) printer
    refine ⟨logsVisits herases htours recorded_none, fun e he => ?_⟩
    exact htours.failed ((herases.error_iff []).1 he)
  · subst h
    refine ⟨PlaceholderFixer.fixLogged_erases fixer start tc',
      PlaceholderFixer.fix_visits hfixer hpool.ready fun call hcall a ha => ?_⟩
    rcases hcalls call hcall with hmem | hholds
    · obtain ⟨n, hn⟩ := List.mem_iff_getElem?.1 hmem
      exact (sound_iff.1 (hw n call hn a ha)).mono fun _ _ => trivial
    · exact hholds a ha

/-- Three calls that share a cyclic array, which is visited once. -/
theorem cyclic_traversals_visit_once :
    (∃ s log, TestCaseSerializer.serializeLogged cyclicPool.heap cyclicCase [] = .ok (s, log) ∧
      VisitedOnce cyclicPool.heap cyclicCase log) ∧
    (∃ b log, TestCaseSynthesiser.synthesisLogged recording smallStore cyclicPool.heap 3 cyclicCase (.new []) [] =
      .ok (b, log) ∧ VisitedOnce cyclicPool.heap cyclicCase log) ∧
    (∃ d log, TestCaseDumper.dumpLogged smallStore (fun _ => []) none cyclicPool.heap cyclicCase .new [] =
      .ok (d, log) ∧ VisitedOnce cyclicPool.heap cyclicCase log) ∧
    ∃ r s', PlaceholderFixer.fixLogged (TestCaseMutator.fixAdded 1) 1 cyclicCase [] ⟨cyclicPool, fun _ => 0⟩ =
      .ok (r, s') ∧ VisitedOnce cyclicPool.heap { cyclicCase with calls := cyclicCase.calls.drop 1 } r.2 := by
  obtain ⟨⟨⟨s, hs⟩, hserialize⟩, hsynthesis, hdump, hfix⟩ := traversals_visit_once cyclicCase_wellFormed
  refine ⟨⟨s, hserialize.once s hs⟩, ?_, ?_, ?_⟩
  · obtain ⟨b, hb⟩ : ∃ b, TestCaseSynthesiser.synthesis recording smallStore cyclicPool.heap 3 cyclicCase (.new []) =
        .ok b :=
      ⟨_, rfl⟩
    exact ⟨b, (hsynthesis recording smallStore [] 3 (by decide)).1.once b hb⟩
  · obtain ⟨d, hd⟩ : ∃ d, TestCaseDumper.dump smallStore (fun _ => []) none cyclicPool.heap cyclicCase .new = .ok d :=
      ⟨_, rfl⟩
    exact ⟨d, (hdump smallStore (fun _ => []) none .new).1.once d hd⟩
  · have hadded := (hfix (fun _ => False) (TestCaseMutator.fixAdded 1) ⟨cyclicPool, fun _ => 0⟩ 1 cyclicCase rfl
      cyclicPool_inMemory (PlaceholderFixer.fixAdded_onlyAdds _ 1)
      fun call hcall => .inl (List.mem_of_mem_drop hcall)).2
    obtain ⟨tc', s', -, log, hrun, hvisits⟩ := hadded.returns fun e he => he
    exact ⟨(tc', log), s', hrun, hvisits⟩

end Traversals

end Caf
