import Caf.Proof.Bounds
import Caf.Proof.Deserialize
import Caf.Spec.Correspondence

/-!
# Decoding what was encoded

The bytes of a well-formed test case deserialize to a corresponding test case: both walk to
the same forests, so `WalkSteps.iso` gives the bijection between their arrays.

* `exists_deserialized`: the run of both components, with the walks on either side.
* `deserialize_serialize`: the test cases correspond.
-/

namespace Caf

open ObjectGraph
open TestCaseDeserializer (ReadableStep BuiltTestCase)

theorem sameLiteral_pooled (l : Literal) : SameLiteral l l.pooled := by
  cases l with
  | float x =>
    by_cases hx : x.isNaN = true
    · exact .inr ⟨x, .quietNaN, rfl, Literal.pooled_nan hx, hx, by decide⟩
    · exact .inl (Literal.pooled_float (by simpa using hx)).symm
  | _ => exact .inl rfl

/-- Literals that look as they were written are the same. -/
structure LiteralView.Judges (w : LiteralView) (same : Literal → Literal → Prop) : Prop where
  judge : ∀ {l l' : Literal}, w.held l' = w.written l → same l l'
  undefined : ∀ {l : Literal}, same Literal.undefined l → l = Literal.undefined

theorem exact_judges : LiteralView.exact.Judges SameLiteral where
  judge h := by
    cases h
    exact sameLiteral_pooled _
  undefined h := by
    rcases h with rfl | ⟨x, y, hx, -⟩
    · rfl
    · cases hx

/-- A literal that looks like a float is that float, or both are NaN or infinite. -/
theorem sameUpToInfinity_of_blurred {l l' : Literal} (h : l'.blurred = l.blurred) : SameUpToInfinity l l' := by
  have key : ∀ x : Double, ((Literal.float x).blurred = .float .quietNaN ∧ x.isNaN = true) ∨
      ((Literal.float x).blurred = .float .infinity ∧ x.isInf = true) ∨
      ((Literal.float x).blurred = .float x ∧ x.isNaN = false ∧ x.isInf = false) := by
    intro x
    unfold Literal.blurred
    by_cases hn : x.isNaN = true
    · exact .inl ⟨by simp [hn], hn⟩
    · by_cases hi : x.isInf = true
      · exact .inr (.inl ⟨by simp [hn, hi], hi⟩)
      · exact .inr (.inr ⟨by simp [hn, hi], by simpa using hn, by simpa using hi⟩)
  have flat : ∀ l l' : Literal, (∀ x, l ≠ .float x) → l'.blurred = l.blurred → l' = l := by
    intro l l' hl h
    cases l' with
    | float y =>
      cases l with
      | float x => exact absurd rfl (hl x)
      | _ => rcases key y with ⟨hy, -⟩ | ⟨hy, -⟩ | ⟨hy, -⟩ <;> rw [hy] at h <;> cases h
    | _ =>
      cases l with
      | float x => exact absurd rfl (hl x)
      | _ => exact h
  by_cases hl : ∀ x, l ≠ .float x
  · exact .inl (.inl (flat l l' hl h).symm)
  by_cases hl' : ∀ x, l' ≠ .float x
  · exact .inl (.inl (flat l' l hl' h.symm))
  push Not at hl hl'
  obtain ⟨x, rfl⟩ := hl
  obtain ⟨y, rfl⟩ := hl'
  rcases key x with ⟨hx, hx₁⟩ | ⟨hx, hx₁⟩ | ⟨hx, hx₁, hx₂⟩ <;>
    rcases key y with ⟨hy, hy₁⟩ | ⟨hy, hy₁⟩ | ⟨hy, hy₁, hy₂⟩ <;> rw [hx, hy] at h
  · exact .inl (.inr ⟨x, y, rfl, rfl, hx₁, hy₁⟩)
  · cases h
  · cases h; cases hy₁
  · cases h
  · exact .inr ⟨x, y, rfl, rfl, hx₁, hy₁⟩
  · cases h; cases hy₂
  · cases h; cases hx₁
  · cases h; cases hx₂
  · cases h
    exact .inl (.inl rfl)

theorem upToInfinity_judges : LiteralView.upToInfinity.Judges SameUpToInfinity where
  judge h := sameUpToInfinity_of_blurred h
  undefined h := by
    rcases h with (rfl | ⟨x, y, hx, -⟩) | ⟨x, y, hx, -⟩
    · rfl
    · cases hx
    · cases hx

section Iso

variable {w : LiteralView} {same : Literal → Literal → Prop} {h h' : Heap} {tc tc' : TestCase}
  {R : Addr → Addr → Prop} {a b : Addr}

theorem sameValue_of_match (hj : w.Judges same) (ha : ∃ v, h[a]? = some v)
    (hm : Match h.withUndefined.graph (w.heap h').graph w.written R a b) : SameValue same h h' R a b := by
  obtain ⟨v, hv⟩ := ha
  have get : ∀ w, h.withUndefined[a]? = some w → h[a]? = some w := fun w hw => by
    rw [h.withUndefined_mono hv] at hw
    rw [hv, hw]
  cases hm with
  | leaf h₁ h₂ =>
    obtain ⟨l', hl', he⟩ := (Heap.map_get_literal _).1 (Heap.graph_literal.1 h₂)
    exact .literal (get _ (Heap.graph_literal.1 h₁)) hl' (hj.judge he)
  | result h₁ h₂ =>
    exact .placeholder (get _ (Heap.graph_placeholder.1 h₁))
      ((Heap.map_get_placeholder _).1 (Heap.graph_placeholder.1 h₂))
  | node h₁ h₂ h₃ =>
    exact .array (get _ (Heap.graph_array.1 h₁)) ((Heap.map_get_array _).1 (Heap.graph_array.1 h₂)) h₃

/-- Everything that occurs in a well-formed test case exists. -/
theorem WellFormed.get (hw : WellFormed h tc) (ha : tc.Reaches h a) : ∃ v, h[a]? = some v := by
  obtain ⟨call, hcall, r, hr, hra⟩ := ha
  obtain ⟨i, hi, rfl⟩ := List.mem_iff_getElem.1 hcall
  obtain ⟨c, hc, -⟩ := hw i _ (List.getElem?_eq_getElem hi) r hr a hra
  obtain ⟨v, hv, -⟩ := Option.map_eq_some_iff.1 hc
  exact ⟨v, hv⟩

theorem TestCase.Reaches.root {call : FunctionCall} (hcall : call ∈ tc.calls) (ha : a ∈ call.roots) :
    tc.Reaches h a :=
  ⟨call, hcall, a, ha, .refl⟩

theorem TestCase.Reaches.elements {es : List Addr} {e : Addr} (ha : tc.Reaches h a)
    (hes : h[a]? = some (.array es)) (he : e ∈ es) : tc.Reaches h e := by
  obtain ⟨call, hcall, r, hr, hra⟩ := ha
  exact ⟨call, hcall, r, hr, hra.tail ⟨es, Heap.graph_array.2 hes, he⟩⟩

/-- A step of the filled test case and its partner are calls that correspond. -/
theorem sameCall_of_stepMatch (hj : w.Judges same) {call call' : FunctionCall}
    (hroots : ∀ a ∈ call.roots, ∃ v, h[a]? = some v)
    (hm : StepMatch h.withUndefined.graph (w.heap h').graph w.written R (call.fillThis h.length).step call'.step)
    (hthis : call'.thisValue.isSome = true) : SameCall same h h' R call call' := by
  obtain ⟨t, ht⟩ := Option.isSome_iff_exists.1 hthis
  obtain ⟨hop, hhead, hargs⟩ := hm
  simp only [FunctionCall.step, FunctionCall.fillThis, Option.toList_some, ht] at hop hhead hargs
  have hm : Match h.withUndefined.graph (w.heap h').graph w.written R (call.thisValue.getD h.length) t := by
    cases hhead with
    | cons hm _ => exact hm
  refine ⟨congrArg Prod.fst hop, congrArg Prod.snd hop, ?_, fun a ha => ⟨t, ht, ?_⟩, fun hn => ⟨t, ht, ?_⟩⟩
  · have hargs' := (List.forall₂_and_left _ _).2
      ⟨fun a ha => hroots a (List.mem_append_right _ ha), hargs⟩
    exact hargs'.imp fun a b hab => sameValue_of_match hj hab.1 hab.2
  · rw [ha, Option.getD_some] at hm
    exact sameValue_of_match hj (hroots a (by simp [FunctionCall.roots, ha])) hm
  · rw [hn, Option.getD_none] at hm
    cases hm with
    | leaf h₁ h₂ =>
      rw [Heap.graph_literal, h.withUndefined_get] at h₁
      cases h₁
      obtain ⟨l, hl, he⟩ := (Heap.map_get_literal _).1 (Heap.graph_literal.1 h₂)
      rw [hl, hj.undefined (hj.judge he)]
    | result h₁ => rw [Heap.graph_placeholder, h.withUndefined_get] at h₁; cases h₁
    | node h₁ => rw [Heap.graph_array, h.withUndefined_get] at h₁; cases h₁

/-- Filling in `this` keeps the positions. -/
theorem mem_fillThis (u : Addr) {call : FunctionCall} (ha : a ∈ call.roots) :
    a ∈ (call.fillThis u).step.head ++ (call.fillThis u).step.args := by
  rcases List.mem_append.1 ha with ha | ha
  · rw [Option.mem_toList] at ha
    exact List.mem_append_left _ (by simp [FunctionCall.fillThis, FunctionCall.step, ha])
  · exact List.mem_append_right _ ha

variable {Fs : List (Step CallOp (Forest Literal))} {S T : List Referent}

/-- The arrays with slots are the arrays that occur. -/
theorem hasArray_of_mem (hs : WalkSteps h.graph 0 [] tc.steps Fs S) (ha : .node a ∈ S) :
    tc.HasArray h a := by
  rcases hs.reach_of_mem ha with hm | ⟨⟨st, hst, r, hr, hra⟩, es, hes⟩
  · cases hm
  · obtain ⟨call, hcall, rfl⟩ := List.mem_map.1 hst
    exact ⟨⟨call, hcall, r, hr, hra⟩, es, Heap.graph_array.1 hes⟩

/-- Arrays look like arrays. -/
theorem reach_heap : Reach (w.heap h).graph a b ↔ Reach h.graph a b := by
  have hsucc : Succ (w.heap h).graph = Succ h.graph := by
    funext c d
    simp only [Succ, Heap.graph_array, LiteralView.heap, Heap.map_get_array]
  simp only [Reach, hsucc]

theorem hasArray_heap : tc.HasArray (w.heap h) a ↔ tc.HasArray h a := by
  have harray : (∃ es, (w.heap h)[a]? = some (.array es)) ↔ ∃ es, h[a]? = some (.array es) := by
    simp only [LiteralView.heap, Heap.map_get_array]
  simp only [TestCase.HasArray, TestCase.Reaches, reach_heap, harray]

/-- **Test cases whose walks write the same forests correspond**, by their slots. -/
theorem corresponds_of_walks (hj : w.Judges same) (hw : WellFormed h tc)
    (h₁ : WalkSteps h.graph 0 [] tc.steps Fs S)
    (h₂ : WalkSteps (w.heap h').graph 0 [] tc'.steps ((Fs.map fillStep).map (Step.map w.forest)) T)
    (hthis : ∀ call ∈ tc'.calls, call.thisValue.isSome = true)
    (hroot : tc.storeRootEntryIndex = tc'.storeRootEntryIndex) :
    Corresponds same h tc h' tc' (Link S T) := by
  have hfill := walk_fillThis h₁
  obtain ⟨-, hsteps, hlinks⟩ := hfill.iso h₂ .nil
  have hlinked : Linked h.withUndefined.graph (w.heap h').graph w.written (Link S T) := by
    intro a b hab
    rcases hlinks a b hab with ⟨k, hk, -⟩ | hn
    · simp at hk
    · exact hn
  have hndS := h₁.nodup ResultsBelow.nil List.nodup_nil
  have hndT := h₂.nodup ResultsBelow.nil List.nodup_nil
  refine ⟨hroot, ⟨fun a b ⟨k, hk, _⟩ => hasArray_of_mem h₁ (List.mem_of_getElem? hk),
    fun a b ⟨k, _, hk⟩ => hasArray_heap.1 (hasArray_of_mem h₂ (List.mem_of_getElem? hk)), ?_, ?_,
    fun a b b' => Link.left_unique hndS, fun a a' b => Link.right_unique hndT, ?_⟩, ?_⟩
  · -- an array that occurs is reached from a position, whose partner reaches its partner
    rintro a ⟨⟨call, hcall, r, hr, hra⟩, es, hes⟩
    have hst := List.mem_map_of_mem (f := FunctionCall.step)
      (List.mem_map_of_mem (f := FunctionCall.fillThis h.length) hcall)
    obtain ⟨st', hst', b, hb, hm⟩ := StepMatch.total hsteps hst (mem_fillThis h.length hr)
    obtain ⟨d, -, hmd⟩ := hlinked.total hm (hra.transfer h.withUndefined_graph)
    have hga := h.withUndefined_graph a _ (Heap.graph_array.2 hes)
    cases hmd with
    | leaf h₁ => rw [hga] at h₁; cases h₁
    | result h₁ => rw [hga] at h₁; cases h₁
    | node _ _ h₃ => exact ⟨d, h₃⟩
  · -- the same from the test case that was read
    rintro b ⟨⟨call, hcall, r, hr, hrb⟩, es, hes⟩
    obtain ⟨st, hst, a, ha, hm⟩ := StepMatch.total_right hsteps (List.mem_map_of_mem hcall) hr
    obtain ⟨c, -, hmc⟩ := Match.total_right hlinked hm (reach_heap.2 hrb)
    have hgb := Heap.graph_array.2 ((Heap.map_get_array w.held).2 hes)
    cases hmc with
    | leaf _ h₂ => rw [LiteralView.heap, hgb] at h₂; cases h₂
    | result _ h₂ => rw [LiteralView.heap, hgb] at h₂; cases h₂
    | node _ _ h₃ => exact ⟨c, h₃⟩
  · intro a b es es' hab hes hes'
    obtain ⟨es₁, es₁', h₁', h₂', hm⟩ := hlinked a b hab
    rw [h.withUndefined_graph a _ (Heap.graph_array.2 hes)] at h₁'
    rw [LiteralView.heap, Heap.graph_array.2 ((Heap.map_get_array w.held).2 hes')] at h₂'
    cases h₁'
    cases h₂'
    obtain ⟨k, hk, -⟩ := hab
    have ha := (hasArray_of_mem h₁ (List.mem_of_getElem? hk)).1
    have hm' := (List.forall₂_and_left _ _).2 ⟨fun e he => hw.get (ha.elements hes he), hm⟩
    exact hm'.imp fun e e' he => sameValue_of_match hj he.1 he.2
  · have hlen := hsteps.length_eq
    simp only [TestCase.steps, List.length_map] at hlen
    refine List.forall₂_iff_get.2 ⟨hlen, fun i hi hi' => ?_⟩
    have hm := (List.forall₂_iff_get.1 hsteps).2 i (by simpa using hi) (by simpa [TestCase.steps] using hi')
    simp only [List.get_eq_getElem, TestCase.steps, List.getElem_map] at hm
    refine sameCall_of_stepMatch hj (fun a ha => hw.get (.root (List.getElem_mem hi) ha)) hm ?_
    exact hthis _ (List.getElem_mem hi')

/-! ## The round trip -/

/-- Every literal of the test case is admitted by the view. -/
def Admitted (w : LiteralView) (h : Heap) (tc : TestCase) : Prop :=
  w.Admits .undefined ∧ ∀ a l, tc.Reaches h a → h[a]? = some (.literal l) → w.Admits l

theorem NoInfinity.admitted (hi : NoInfinity h tc) : Admitted .exact h tc := by
  refine ⟨(fun x hx => by cases hx), fun a l ha hl x hx => ?_⟩
  subst hx
  exact hi a x ha hl

/-- The forests of a test case can be read back. -/
theorem readable_of_walk (hf : FitsU32 h tc) (hi : Admitted w h tc)
    (h₁ : WalkSteps h.graph 0 [] tc.steps Fs S) : ∀ st ∈ Fs.map fillStep, ReadableStep w st := by
  have hall : ∀ st ∈ Fs, st.head.All w.Admits ∧ st.args.All w.Admits := by
    refine h₁.all fun st hst a ha b l hab hl => ?_
    obtain ⟨call, hcall, rfl⟩ := List.mem_map.1 hst
    exact hi.2 b l ⟨call, hcall, a, ha, hab⟩ (Heap.graph_literal.1 hl)
  intro st hst
  have hfit := hf.fitsStep h₁ st hst
  obtain ⟨st, hmem, rfl⟩ := List.mem_map.1 hst
  obtain ⟨hhead, hargs⟩ := hall st hmem
  refine ⟨hfit, ?_, hargs⟩
  obtain ⟨op, head, args⟩ := st
  cases head with
  | nil => exact ⟨hi.1, trivial⟩
  | leaf l F => exact hhead
  | back k F => exact hhead
  | node sub F => exact hhead

/-- **Deserializing the bytes of a walk.** -/
theorem exists_deserialized (hf : FitsU32 h tc) (hi : Admitted w h tc)
    (h₁ : WalkSteps h.graph 0 [] tc.steps Fs S) {pool : ObjectPool} (hok : w.Pool pool)
    {input : MemoryInputStream} {rest : List UInt8} {fuel : ℕ}
    (hdata : input.data = encodeTestCase tc.storeRootEntryIndex (Fs.map fillStep) ++ rest)
    (hfuel : (encodeTestCase tc.storeRootEntryIndex (Fs.map fillStep)).length ≤ fuel) :
    ∃ tc' s' T, TestCaseDeserializer.deserialize fuel (.new input pool) = .ok (tc', s') ∧
      BuiltTestCase w tc.storeRootEntryIndex (Fs.map fillStep) input rest tc' s' T := by
  have hlen : (Fs.map fillStep).length = tc.calls.length := by
    rw [List.length_map, h₁.length_eq, TestCase.steps, List.length_map]
  have hd : DepthLE fuel (Fs.map fillStep) := fun st hst =>
    have hle := depthLE_length tc.storeRootEntryIndex (Fs.map fillStep) st hst
    ⟨Nat.le_trans hle.1 hfuel, Nat.le_trans hle.2 hfuel⟩
  exact TestCaseDeserializer.deserialize_spec hf.root (hlen ▸ hf.calls) (readable_of_walk hf hi h₁)
    (walk_fillThis h₁).scoped hdata hok hd

end Iso

/-- An array that contains itself, shared between two calls; one call has no `this`, the other
refers to its result. -/
def sampleHeap : Heap := [.array [0, 1], .literal (.float .quietNaN), .placeholder 0]

def sampleCase : TestCase := ⟨0, [⟨7, none, false, [0, 0]⟩, ⟨8, some 0, true, [2]⟩]⟩

/-- One call of the function `7`, without `this` and arguments. -/
def oneCall : TestCase := ⟨0, [⟨7, none, false, []⟩]⟩

theorem oneCall_wellFormed : WellFormed [] oneCall := by
  intro i call hcall a ha
  match i, hcall with
  | 0, hcall => cases hcall; cases ha

/-- **Decoding undoes encoding.** The bytes of a well-formed test case, followed by any `rest`,
deserialize with a fresh pool to a corresponding test case, and `rest` is what is left. -/
theorem deserialize_serialize {h : Heap} {tc : TestCase} (hw : WellFormed h tc) (hf : FitsU32 h tc)
    (hi : NoInfinity h tc) :
    ∃ s, TestCaseSerializer.serialize h tc = .ok s ∧
      ∀ (rest : List UInt8) (junk : ℕ → UInt8) (fuel : ℕ), s.out.length ≤ fuel →
        ∃ tc' s' R, TestCaseDeserializer.deserialize fuel (.new ⟨s.out ++ rest, junk⟩ .new) = .ok (tc', s') ∧
          s'.input.data = rest ∧ Corresponds SameLiteral h tc s'.pool.heap tc' R := by
  obtain ⟨Fs, S, h₁⟩ := walkSteps_exists hw
  obtain ⟨c, tr, hs, -, -⟩ := serialize_walk h₁
  refine ⟨_, hs, fun rest junk fuel hfuel => ?_⟩
  have hdata : (⟨_, junk⟩ : MemoryInputStream).data =
      encodeTestCase tc.storeRootEntryIndex (Fs.map fillStep) ++ rest := rfl
  obtain ⟨tc', s', T, hd, hb⟩ := exists_deserialized hf hi.admitted h₁ ObjectPool.new_ok hdata hfuel
  refine ⟨tc', s', Link S T, hd, ?_, corresponds_of_walks exact_judges hw h₁ hb.walk hb.hasThis hb.root.symm⟩
  rw [hb.input]
  rfl

theorem sample_wellFormed : WellFormed sampleHeap sampleCase := by
  have hK : sampleHeap.closed [0, 1] = true := by decide
  have hK' : sampleHeap.closed [2] = true := by decide
  have sound : ∀ n, Sound sampleHeap.graph n 0 := by
    intro n b hb
    rcases List.mem_cons.1 (Heap.mem_of_reach hK (by simp) hb) with rfl | hb
    · exact ⟨_, rfl, fun i hi => by cases hi⟩
    · rw [List.mem_singleton.1 hb]
      exact ⟨_, rfl, fun i hi => by cases hi⟩
  intro i call hcall a ha
  match i, hcall with
  | 0, hcall =>
    cases hcall
    have : a = 0 := by simpa [FunctionCall.roots] using ha
    rw [this]
    exact sound 0
  | 1, hcall =>
    cases hcall
    rcases List.mem_cons.1 ha with rfl | ha
    · exact sound 1
    · intro b hb
      rw [List.mem_singleton.1 ha] at hb
      rw [List.mem_singleton.1 (Heap.mem_of_reach hK' (by simp) hb)]
      exact ⟨_, rfl, fun i hi => by cases hi; decide⟩

theorem sample_mem {a : Addr} (ha : sampleCase.Reaches sampleHeap a) : a ∈ [0, 1, 2] := by
  obtain ⟨call, hcall, r, hr, hra⟩ := ha
  refine Heap.mem_of_reach (K := [0, 1, 2]) (by decide) ?_ hra
  rcases List.mem_cons.1 hcall with rfl | hcall
  · have : r = 0 := by simpa [FunctionCall.roots] using hr
    simp [this]
  · rw [List.mem_singleton.1 hcall] at hr
    have : r = 0 ∨ r = 2 := by simpa [FunctionCall.roots] using hr
    rcases this with rfl | rfl <;> simp

theorem sample_fitsU32 : FitsU32 sampleHeap sampleCase where
  root := by decide
  calls := by decide
  args := by decide
  strings := by
    intro a s ha hs
    have := sample_mem ha
    simp only [List.mem_cons, List.not_mem_nil, or_false] at this
    rcases this with rfl | rfl | rfl <;> cases hs
  arrays := by
    intro a es ha hes
    have := sample_mem ha
    simp only [List.mem_cons, List.not_mem_nil, or_false] at this
    rcases this with rfl | rfl | rfl <;> cases hes
    decide
  slots := by
    intro arrays hnd ha
    have hsub : arrays ⊆ [0, 1, 2] := fun a hm => sample_mem (ha a hm).1
    have hle := (hnd.subperm hsub).length_le
    simp only [List.length_cons, List.length_nil] at hle
    simp only [sampleCase, List.length_cons, List.length_nil]
    omega

theorem sample_noInfinity : NoInfinity sampleHeap sampleCase := by
  intro a x ha hx
  have := sample_mem ha
  simp only [List.mem_cons, List.not_mem_nil, or_false] at this
  rcases this with rfl | rfl | rfl <;> cases hx
  decide

/-- The sample round-trips. -/
theorem sample_deserialize_serialize :
    ∃ s, TestCaseSerializer.serialize sampleHeap sampleCase = .ok s ∧
      ∀ (rest : List UInt8) (junk : ℕ → UInt8) (fuel : ℕ), s.out.length ≤ fuel →
        ∃ tc' s' R, TestCaseDeserializer.deserialize fuel (.new ⟨s.out ++ rest, junk⟩ .new) = .ok (tc', s') ∧
          s'.input.data = rest ∧ Corresponds SameLiteral sampleHeap sampleCase s'.pool.heap tc' R :=
  deserialize_serialize sample_wellFormed sample_fitsU32 sample_noInfinity

end Caf
