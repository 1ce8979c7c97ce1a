import Caf.Graph.Canonical
import Caf.Proof.Endless
import Caf.Proof.Requests

/-!
# Decoding depends on the bytes as far as they decide

What is cut off can be completed in two ways that make a difference, and each of them is what some contents
of the local buffers amount to.

* `Spells.written`, `testCase_written`: what is spelled can be written as the serializer writes it.
* `forests_of_corresponds`: test cases that correspond have the same forests.
* `dependsOnBytes_iff`: the outcome depends on the bytes only if and only if they decide.
* `decoded_same`: nor does it depend on the pool, but for infinities.
-/

namespace Caf

open ObjectGraph LittleEndian Run TestCaseDeserializer

variable {n k : ℕ} {b d : List UInt8} {F : Forest Literal} {Fs : List (Step CallOp (Forest Literal))}

/-! ## The usual spelling -/

theorem int_lt {size value : ℕ} (h : (Reader.int size).means d value) : value < 256 ^ size := by
  obtain ⟨d, ⟨rfl, rfl⟩, rfl⟩ := h
  exact ofBytes_lt d

/-- A flag is written as one or zero. -/
theorem exists_flag (flag : Bool) : ∃ value : ℕ, (Reader.int 1).means [flag.toUInt8] value ∧ (value != 0) = flag := by
  cases flag with
  | false => exact ⟨0, ⟨_, ⟨rfl, rfl⟩, rfl⟩, rfl⟩
  | true => exact ⟨1, ⟨_, ⟨rfl, rfl⟩, rfl⟩, rfl⟩

/-- A literal can be spelled as the serializer writes it. -/
theorem literal_payload {kind : ValueKind} {x : Reader Literal} {l : Literal} (hx : literalReader? kind = some x)
    (hd : x.means d l) : kind = l.kind ∧ l.Fits ∧ x.means l.payload l := by
  cases kind with
  | undefined =>
    cases hx
    obtain ⟨rfl, rfl⟩ := hd
    exact ⟨rfl, trivial, rfl, rfl⟩
  | null =>
    cases hx
    obtain ⟨rfl, rfl⟩ := hd
    exact ⟨rfl, trivial, rfl, rfl⟩
  | boolean =>
    cases hx
    obtain ⟨value, -, rfl⟩ := hd
    obtain ⟨one, hone, hflag⟩ := exists_flag (value != 0)
    exact ⟨rfl, trivial, one, hone, congrArg Literal.boolean hflag.symm⟩
  | string =>
    cases hx
    obtain ⟨d, len, str, -, hlen, bytes, ⟨hstr, hbytes⟩, rfl⟩ := hd
    subst hbytes
    have hlt : bytes.length < 256 ^ 4 := hstr ▸ int_lt hlen
    exact ⟨rfl, hlt, _, bytes.length, bytes, rfl, Reader.means_int hlt, bytes, ⟨rfl, rfl⟩, rfl⟩
  | function =>
    cases hx
    obtain ⟨value, -, rfl⟩ := hd
    exact ⟨rfl, trivial, _, Reader.means_int (UInt32.toNat_lt _), congrArg _ UInt32.ofNat_toNat.symm⟩
  | integer =>
    cases hx
    obtain ⟨value, -, rfl⟩ := hd
    refine ⟨rfl, trivial, _, Reader.means_int (UInt32.toNat_lt _), congrArg Literal.integer ?_⟩
    rw [UInt32.ofNat_toNat]
    exact (Int32.toInt32_toUInt32 _).symm
  | float =>
    cases hx
    obtain ⟨value, -, rfl⟩ := hd
    exact ⟨rfl, trivial, _, Reader.means_int (UInt64.toNat_lt _), congrArg _ UInt64.ofNat_toNat.symm⟩
  | array => cases hx
  | placeholder => cases hx

/-- What is spelled can be written. -/
structure Written (n k : ℕ) (F : Forest Literal) : Prop where
  spells : Spells n k (encodeValues F) F
  fits : FitsForest F
  inScope : F.Scoped n

theorem Spells.written (h : Spells n k b F) : Written n k F := by
  induction h with
  | nil => exact ⟨.nil, trivial, trivial⟩
  | leaf hx hd _ ih =>
    obtain ⟨rfl, hfits, hpayload⟩ := literal_payload hx hd
    exact ⟨.leaf hx hpayload ih.spells, ⟨hfits, ih.fits⟩, ih.inScope⟩
  | back hd _ ih =>
    have hlt := int_lt hd.1
    exact ⟨.back ⟨Reader.means_int hlt, hd.2⟩ ih.spells, ⟨hlt, ih.fits⟩, hd.2, ih.inScope⟩
  | @node n k d size b₁ sub b F hd h₁ _ ih₁ ih₂ =>
    have hlt : sub.length < 256 ^ 4 := h₁.length ▸ int_lt hd
    have hspells := Spells.node (Reader.means_int hlt) (h₁.length ▸ ih₁.spells) ih₂.spells
    refine ⟨?_, ⟨hlt, ih₁.fits, ih₂.fits⟩, ih₁.inScope, ih₂.inScope⟩
    simpa [encodeValues, encodeArrayHeader] using hspells

/-- A call that is spelled can be written. -/
theorem call_written {st : Step CallOp (Forest Literal)} (h : (callReader n).means b st) :
    (callReader n).means (encodeCall st) st ∧ FitsStep st ∧ st.head.Scoped n ∧ st.args.Scoped (n + st.head.slots) := by
  obtain ⟨d, funcId, _, -, hid, b₁, head, _, -, hhead, d', isCtor, _, -, hctor, d'', argsCount, b₂, -, hcount, args,
    hargs, rfl⟩ := h
  have hw := hhead.written
  have hw' := hargs.written
  have hlt : args.length < 256 ^ 4 := hargs.length ▸ int_lt hcount
  refine ⟨?_, ⟨hw.fits, hhead.length, hlt, hw'.fits⟩, hw.inScope, hw'.inScope⟩
  obtain ⟨flag, hflag, hflag'⟩ := exists_flag (isCtor != 0)
  refine ⟨_, _, _, ?_, Reader.means_int (UInt32.toNat_lt (UInt32.ofNat funcId)), _, head, _, rfl, hw.spells, _, flag,
    _, rfl,
    hflag, _, args.length, _, rfl, Reader.means_int hlt, args, hargs.length ▸ hw'.spells, ?_⟩
  · simp [encodeCall]
  · rw [UInt32.ofNat_toNat, hflag']

theorem calls_written (h : (callsReader n k).means b Fs) : (callsReader n k).means (encodeCalls Fs) Fs ∧
    (∀ st ∈ Fs, FitsStep st) ∧ ScopedSteps n Fs := by
  induction k generalizing n b Fs with
  | zero =>
    obtain ⟨-, rfl⟩ := h
    exact ⟨⟨rfl, rfl⟩, by simp, trivial⟩
  | succ k ih =>
    obtain ⟨b₁, st, b₂, -, hst, Fs, hFs, rfl⟩ := h
    obtain ⟨hcall, hfits, hscope₁, hscope₂⟩ := call_written hst
    obtain ⟨hcalls, hreadable, hscope⟩ := ih hFs
    refine ⟨⟨_, st, _, List.flatMap_cons, hcall, Fs, hcalls, rfl⟩, fun st' hst' => ?_, hscope₁, hscope₂, hscope⟩
    rcases List.mem_cons.1 hst' with rfl | hst'
    · exact hfits
    · exact hreadable st' hst'

/-- **What is spelled can be written**, and read again from what is written. -/
theorem testCase_written {root : ℕ} (h : testCaseReader.means b (root, Fs)) :
    testCaseReader.means (encodeTestCase root Fs) (root, Fs) ∧ root < 2 ^ 32 ∧ Fs.length < 2 ^ 32 ∧
      (∀ st ∈ Fs, FitsStep st) ∧ ScopedSteps 0 Fs := by
  obtain ⟨d, root', _, -, hroot, d', callsCount, b₁, -, hcount, Fs', hFs, heq⟩ := h
  cases heq
  have hlength := length_calls hFs
  subst hlength
  obtain ⟨hcalls, hreadable, hscope⟩ := calls_written hFs
  refine ⟨?_, int_lt hroot, int_lt hcount, hreadable, hscope⟩
  rw [encodeTestCase, List.append_assoc]
  exact ⟨_, root, _, rfl, Reader.means_int (int_lt hroot), _, Fs.length, _, rfl, Reader.means_int (int_lt hcount), Fs,
    hcalls, rfl⟩

/-! ## Test cases that are the same look the same -/

section Corresponds

variable {h h' : Heap} {tc tc' : TestCase} {R : Addr → Addr → Prop} {a a' : Addr}

/-- How a heap looks. -/
abbrev Heap.blurred (h : Heap) : Heap := LiteralView.upToInfinity.heap h

theorem SameLiteral.blurred {l l' : Literal} (hl : SameLiteral l l') : l'.blurred = l.blurred := by
  rcases hl with rfl | ⟨x, y, rfl, rfl, hx, hy⟩
  · rfl
  · simp [Literal.blurred, hx, hy]

theorem match_of_sameValue (hv : SameValue SameLiteral h h' R a a') :
    Match h.blurred.graph h'.blurred.graph id R a a' := by
  cases hv with
  | literal h₁ h₂ hl =>
    refine .leaf (Heap.graph_literal.2 ((Heap.map_get_literal _).2 ⟨_, h₁, rfl⟩)) ?_
    exact Heap.graph_literal.2 ((Heap.map_get_literal _).2 ⟨_, h₂, hl.blurred⟩)
  | placeholder h₁ h₂ =>
    exact .result (Heap.graph_placeholder.2 ((Heap.map_get_placeholder _).2 h₁))
      (Heap.graph_placeholder.2 ((Heap.map_get_placeholder _).2 h₂))
  | array h₁ h₂ hr =>
    exact .node (Heap.graph_array.2 ((Heap.map_get_array _).2 h₁)) (Heap.graph_array.2 ((Heap.map_get_array _).2 h₂)) hr

theorem stepMatch_of_sameCall {call call' : FunctionCall} (hc : SameCall SameLiteral h h' R call call')
    (hthis : call.thisValue.isSome = true) : StepMatch h.blurred.graph h'.blurred.graph id R call.step call'.step := by
  obtain ⟨r, hr⟩ := Option.isSome_iff_exists.1 hthis
  obtain ⟨r', hr', hv⟩ := hc.thisSome r hr
  refine ⟨Prod.ext hc.funcId hc.ctor, ?_, hc.args.imp fun _ _ => match_of_sameValue⟩
  rw [FunctionCall.step, FunctionCall.step, hr, hr']
  exact .cons (match_of_sameValue hv) .nil

/-- **Test cases that correspond have the same forests**, as they look. -/
theorem forests_of_corresponds {As Bs : List (Step CallOp (Forest Literal))} {S T : List Referent}
    (hc : Corresponds SameLiteral h tc h' tc' R) (hthis : ∀ call ∈ tc.calls, call.thisValue.isSome = true)
    (hw : WalkSteps h.blurred.graph 0 [] tc.steps As S) (hw' : WalkSteps h'.blurred.graph 0 [] tc'.steps Bs T) :
    Bs = As := by
  have hb := hc.bijection
  have hR : Relator.BiUnique R := ⟨fun a a' b => hb.injective a a' b, fun a b b' => hb.functional a b b'⟩
  have hlinked : Linked h.blurred.graph h'.blurred.graph id R := by
    intro a b hab
    obtain ⟨-, es, hes⟩ := hb.left a b hab
    obtain ⟨-, es', hes'⟩ := hb.right a b hab
    exact ⟨es, es', Heap.graph_array.2 ((Heap.map_get_array _).2 hes),
      Heap.graph_array.2 ((Heap.map_get_array _).2 hes'),
      (hb.elements a b es es' hab hes hes').imp fun _ _ => match_of_sameValue⟩
  have hsteps : List.Forall₂ (StepMatch h.blurred.graph h'.blurred.graph id R) tc.steps tc'.steps := by
    rw [TestCase.steps, TestCase.steps, List.forall₂_map_left_iff, List.forall₂_map_right_iff]
    have hcalls := (List.forall₂_and_left _ _).2 ⟨hthis, hc.calls⟩
    exact hcalls.imp fun call call' hcall => stepMatch_of_sameCall hcall.2 hcall.1
  have heq := hw.canonical hR hlinked hw' hsteps List.nodup_nil List.nodup_nil ResultsBelow.nil ResultsBelow.nil .nil
  rw [heq]
  exact (List.map_congr_left fun st _ => by simp only [Step.map, Forest.map_id, id_eq]).trans (List.map_id _)

/-- A test case corresponds to itself. -/
theorem corresponds_self (hw : WellFormed h tc) (hthis : ∀ call ∈ tc.calls, call.thisValue.isSome = true) :
    Corresponds SameLiteral h tc h tc fun a b => a = b ∧ tc.HasArray h a := by
  have hvalue : ∀ a, tc.Reaches h a → SameValue SameLiteral h h (fun a b => a = b ∧ tc.HasArray h a) a a := by
    intro a ha
    obtain ⟨v, hv⟩ := hw.get ha
    cases v with
    | literal l => exact .literal hv hv (.inl rfl)
    | array es => exact .array hv hv ⟨rfl, ha, es, hv⟩
    | placeholder i => exact .placeholder hv hv
  refine ⟨rfl, ⟨?_, ?_, ?_, ?_, ?_, ?_, ?_⟩, List.forall₂_same.2 fun call hcall => ⟨rfl, rfl, ?_, ?_, ?_⟩⟩
  · rintro a b ⟨rfl, ha⟩
    exact ha
  · rintro a b ⟨rfl, ha⟩
    exact ha
  · exact fun a ha => ⟨a, rfl, ha⟩
  · exact fun a ha => ⟨a, rfl, ha⟩
  · rintro a b b' ⟨rfl, -⟩ ⟨rfl, -⟩
    rfl
  · rintro a a' b ⟨rfl, -⟩ ⟨rfl, -⟩
    rfl
  · rintro a b es es' ⟨rfl, ha⟩ hes hes'
    rw [hes] at hes'
    cases hes'
    exact List.forall₂_same.2 fun e he => hvalue e (ha.1.elements hes he)
  · exact List.forall₂_same.2 fun e he => hvalue e (.root hcall (List.mem_append_right _ he))
  · intro r hr
    exact ⟨r, hr, hvalue r (.root hcall (by simp [FunctionCall.roots, hr]))⟩
  · intro hnone
    have := hthis call hcall
    rw [hnone] at this
    cases this

end Corresponds

/-! ## The runs -/

theorem outcome_trivial {V : Type} (r : Except Error V) : Outcome (fun _ => True) (fun _ => True) r := by
  rcases r with e | v <;> trivial

/-- Every call that is read has a receiver. -/
theorem deserializeCalls_this (fuel count j : ℕ) (s : TestCaseDeserializer) :
    Outcome (fun _ => True) (fun q => ∀ call ∈ q.1, call.thisValue.isSome = true)
      (deserializeCalls fuel count j s) := by
  induction count generalizing j s with
  | zero =>
    intro call hcall
    cases hcall
  | succ count ih =>
    rw [deserializeCalls]
    have hcall : Outcome (fun _ => True) (fun q => q.1.thisValue.isSome = true) (deserializeFunctionCall fuel s) := by
      rw [deserializeFunctionCall]
      exact (outcome_trivial _).bind fun _ _ => (outcome_trivial _).bind fun _ _ => rfl
    refine hcall.bind fun q hq => (ih (j + 1) _).bind fun q' hq' call hmem => ?_
    rcases List.mem_cons.1 hmem with rfl | hmem
    · exact hq
    · exact hq' call hmem

theorem deserialize_this (fuel : ℕ) (s : TestCaseDeserializer) :
    Outcome (fun _ => True) (fun q => ∀ call ∈ q.1.calls, call.thisValue.isSome = true) (deserialize fuel s) := by
  rw [deserialize]
  exact (deserializeCalls_this fuel _ 0 _).bind fun q hq => hq

variable {pool : ObjectPool} {data more : List UInt8} {root fuel : ℕ}

/-- The contents of the local buffers that complete the bytes. -/
def junkOf (more : List UInt8) (j : ℕ) : UInt8 := (more[j]?).getD 0

/-- Local buffers that complete the bytes are as good as the complete bytes. -/
theorem deserialize_junkOf (fuel : ℕ) (pool : ObjectPool) (data more : List UInt8) :
    flatResult (deserialize fuel (new ⟨data, junkOf more⟩ pool)) =
      flatResult (deserialize fuel (new ⟨data ++ more, fun _ => 0⟩ pool)) := by
  have hflat : (⟨data, junkOf more⟩ : MemoryInputStream).flat =
    (⟨data ++ more, fun _ => 0⟩ : MemoryInputStream).flat := by
    simp only [MemoryInputStream.flat, MemoryInputStream.mk.injEq, true_and]
    funext j
    simp only [MemoryInputStream.content, junkOf]
    rcases Nat.lt_or_ge j data.length with hlt | hge
    · rw [List.getElem?_append_left hlt, List.getElem?_eq_getElem hlt]
      rfl
    · rw [List.getElem?_append_right hge, List.getElem?_eq_none hge]
      rfl
  rw [← deserialize_flat, ← deserialize_flat, hflat]

/-- How a run ends does not depend on the stream that is left. -/
theorem sameOutcome_flat {x y : Except Error (TestCase × TestCaseDeserializer)} :
    SameOutcome (flatResult x) (flatResult y) ↔ SameOutcome x y := by
  rcases x with e | q <;> rcases y with e' | q' <;> exact Iff.rfl

theorem all_admitted (F : Forest Literal) : F.All LiteralView.upToInfinity.Admits := by
  induction F with
  | nil => trivial
  | leaf l F ih => exact ⟨trivial, ih⟩
  | back k F ih => exact ih
  | node F₁ F₂ ih₁ ih₂ => exact ⟨ih₁, ih₂⟩

/-- **Bytes that spell a test case are read**, and what is built looks as it is spelled. -/
theorem deserialize_means {w : LiteralView} {input : MemoryInputStream} {rest : List UInt8} (hp : w.Pool pool)
    (h : testCaseReader.means b (root, Fs)) (hw : ∀ st ∈ Fs, st.head.All w.Admits ∧ st.args.All w.Admits)
    (hdata : input.data = b ++ rest) (hfuel : (encodeTestCase root Fs).length ≤ fuel) :
    ∃ tc s T, deserialize fuel (new input pool) = .ok (tc, s) ∧ tc.storeRootEntryIndex = root ∧
      (∀ call ∈ tc.calls, call.thisValue.isSome = true) ∧
        WalkSteps (w.heap s.pool.heap).graph 0 [] tc.steps (Fs.map (Step.map w.forest)) T := by
  obtain ⟨hwritten, hroot, hlength, hfits, hscope⟩ := testCase_written h
  have hd : DepthLE fuel Fs := fun st hst =>
    have hle := depthLE_length root Fs st hst
    ⟨Nat.le_trans hle.1 hfuel, Nat.le_trans hle.2 hfuel⟩
  obtain ⟨tc, s, T, hrun, hbuilt⟩ := deserialize_spec hroot hlength
    (fun st hst => ⟨hfits st hst, (hw st hst).1, (hw st hst).2⟩) hscope
    (show (⟨encodeTestCase root Fs, fun _ => 0⟩ : MemoryInputStream).data = _ ++ [] from (List.append_nil _).symm) hp hd
  -- the same test case, as the serializer would write it
  obtain ⟨r, hr⟩ := exists_replaysTestCase fuel pool root Fs
  rw [hr hwritten (List.append_nil _).symm] at hrun
  rcases r with e | ⟨tc', s'⟩
  · cases hrun
  · cases hrun
    exact ⟨tc', _, T, hr h hdata, hbuilt.root, hbuilt.hasThis, hbuilt.walk⟩

/-- The same for what is a test case as a whole, up to infinities. -/
theorem deserialize_blurred (hp : ObjectPoolOK pool) (h : testCaseReader.means b (root, Fs))
    (hfuel : (encodeTestCase root Fs).length ≤ fuel) :
    ∃ tc s T, deserialize fuel (new ⟨b, fun _ => 0⟩ pool) = .ok (tc, s) ∧ tc.storeRootEntryIndex = root ∧
      (∀ call ∈ tc.calls, call.thisValue.isSome = true) ∧
        WalkSteps s.pool.heap.blurred.graph 0 [] tc.steps (Fs.map (Step.map LiteralView.upToInfinity.forest)) T :=
  have hdata : (⟨b, fun _ => 0⟩ : MemoryInputStream).data = b ++ [] := (List.append_nil b).symm
  deserialize_means (w := .upToInfinity) hp h (fun _ _ => ⟨all_admitted _, all_admitted _⟩) hdata hfuel

/-- **Decoding depends on the bytes only if and only if they decide.** -/
theorem dependsOnBytes_iff (hp : pool.Reachable) (data : List UInt8) : DependsOnBytes pool data ↔ Decided data := by
  constructor
  · intro hdepends
    rcases testCase_settled data with hdecided | ⟨more, ⟨root, Fs⟩, hmeans, more', hvaries⟩
    · exact hdecided
    exfalso
    -- the bytes can be completed in two ways, and so can the local buffers
    have hsame : ∀ fuel, SameOutcome (deserialize fuel (new ⟨data ++ more, fun _ => 0⟩ pool))
        (deserialize fuel (new ⟨data ++ more', fun _ => 0⟩ pool)) := by
      intro fuel
      rw [← sameOutcome_flat, ← deserialize_junkOf, ← deserialize_junkOf, sameOutcome_flat]
      exact hdepends fuel (junkOf more) (junkOf more')
    rcases hvaries with hrefused | ⟨⟨root', Fs'⟩, hmeans', hne⟩
    · obtain ⟨N, hN⟩ := testCase_fails hrefused
      obtain ⟨e, he, hfuel⟩ := hN (max N (encodeTestCase root Fs).length) pool ⟨data ++ more', fun _ => 0⟩ []
        (List.append_nil _).symm
      obtain ⟨tc, s, T, hrun, -⟩ := deserialize_blurred hp.ok hmeans (Nat.le_max_right N _)
      have houtcome := hsame (max N (encodeTestCase root Fs).length)
      rw [he, hrun] at houtcome
      exact hfuel (Nat.le_max_left _ _) houtcome
    · have hfuel := Nat.le_max_left (encodeTestCase root Fs).length (encodeTestCase root' Fs').length
      have hfuel' := Nat.le_max_right (encodeTestCase root Fs).length (encodeTestCase root' Fs').length
      obtain ⟨tc, s, T, hrun, hroot, hthis, hwalk⟩ := deserialize_blurred hp.ok hmeans hfuel
      obtain ⟨tc', s', T', hrun', hroot', -, hwalk'⟩ := deserialize_blurred hp.ok hmeans' hfuel'
      have houtcome := hsame (max (encodeTestCase root Fs).length (encodeTestCase root' Fs').length)
      rw [hrun, hrun'] at houtcome
      obtain ⟨R, hc⟩ := houtcome
      have hforests := forests_of_corresponds hc hthis hwalk hwalk'
      have hroots : tc.storeRootEntryIndex = tc'.storeRootEntryIndex := hc.root
      exact hne (Prod.ext (by rw [← hroot, ← hroot', hroots]) hforests)
  · rintro ⟨d, rest, rfl, ⟨⟨root, Fs⟩, hmeans⟩ | hrefused⟩ fuel junk junk'
    · obtain ⟨r, hr⟩ := exists_replaysTestCase fuel pool root Fs
      have hrun := hr (i := ⟨d ++ rest, junk⟩) hmeans rfl
      have hrun' := hr (i := ⟨d ++ rest, junk'⟩) hmeans rfl
      have hwell := @deserialize_outcome fuel pool hp.ok ⟨d ++ rest, junk⟩
      have hthis := deserialize_this fuel (new ⟨d ++ rest, junk⟩ pool)
      rw [hrun] at hwell hthis
      rw [hrun, hrun']
      rcases r with e | ⟨tc, s⟩
      · trivial
      · exact ⟨_, corresponds_self hwell hthis⟩
    · obtain ⟨N, hN⟩ := testCase_fails hrefused
      obtain ⟨e, he, -⟩ := hN fuel pool ⟨d ++ rest, junk⟩ rest rfl
      obtain ⟨e', he', -⟩ := hN fuel pool ⟨d ++ rest, junk'⟩ rest rfl
      rw [he, he']
      trivial

/-- One call, whose arguments are an array of a boolean and of the array itself, and the array again; and what follows
it. -/
def referringBytes : List UInt8 :=
  [0, 0, 0, 0, 1, 0, 0, 0, 7, 0, 0, 0, 0, 0, 2, 0, 0, 0, 7, 2, 0, 0, 0, 2, 1, 8, 0, 0, 0, 0, 8, 0, 0, 0, 0, 5, 5]

theorem spells_referring : Spells 0 2 [7, 2, 0, 0, 0, 2, 1, 8, 0, 0, 0, 0, 8, 0, 0, 0, 0]
    (.node (.leaf (.boolean true) (.back 0 .nil)) (.back 0 .nil)) := by
  have hsize : (Reader.int 4).means [2, 0, 0, 0] 2 := ⟨_, ⟨rfl, rfl⟩, rfl⟩
  have hback : (indexReader 1).means [0, 0, 0, 0] 0 := ⟨⟨_, ⟨rfl, rfl⟩, rfl⟩, Nat.one_pos⟩
  have hboolean : ((Reader.int 1).map fun value => Literal.boolean (value != 0)).means [1] (.boolean true) :=
    ⟨1, ⟨_, ⟨rfl, rfl⟩, rfl⟩, rfl⟩
  have helements : Spells 1 2 [2, 1, 8, 0, 0, 0, 0] (.leaf (.boolean true) (.back 0 .nil)) :=
    .leaf (show literalReader? .boolean = some _ from rfl) hboolean (.back hback .nil)
  exact .node hsize helements (.back hback .nil)

theorem referring_dependsOnBytes : DependsOnBytes .new referringBytes := by
  have hthis : (valuesReader 0 1).means [0] (.leaf .undefined .nil) :=
    .leaf (show literalReader? .undefined = some _ from rfl) ⟨rfl, rfl⟩ .nil
  have hcall : (callReader 0).means [7, 0, 0, 0, 0, 0, 2, 0, 0, 0, 7, 2, 0, 0, 0, 2, 1, 8, 0, 0, 0, 0, 8, 0, 0, 0, 0]
      ⟨(7, false), .leaf .undefined .nil, .node (.leaf (.boolean true) (.back 0 .nil)) (.back 0 .nil)⟩ :=
    ⟨[7, 0, 0, 0], 7, _, rfl, ⟨_, ⟨rfl, rfl⟩, rfl⟩, [0], _, _, rfl, hthis, [0], 0, _, rfl, ⟨_, ⟨rfl, rfl⟩, rfl⟩,
      [2, 0, 0, 0], 2, _, rfl, ⟨_, ⟨rfl, rfl⟩, rfl⟩, _, spells_referring, rfl⟩
  exact (dependsOnBytes_iff .new _).2 ⟨_, [5, 5], rfl, .inl ⟨(0, [_]), [0, 0, 0, 0], 0, _, rfl, ⟨_, ⟨rfl, rfl⟩, rfl⟩,
    [1, 0, 0, 0], 1, _, rfl, ⟨_, ⟨rfl, rfl⟩, rfl⟩, [_], ⟨_, _, [], rfl, hcall, [], ⟨rfl, rfl⟩, rfl⟩, rfl⟩⟩

/-- One call with a boolean as its argument, whose last byte is missing. -/
def cutOffBytes : List UInt8 := [0, 0, 0, 0, 1, 0, 0, 0, 7, 0, 0, 0, 0, 0, 1, 0, 0, 0, 2]

/-- The boolean is what the local buffer holds. -/
theorem cutOff_not_dependsOnBytes : ¬ DependsOnBytes .new cutOffBytes := by
  intro hdepends
  have hsame := hdepends 1 (fun _ => 0) (fun _ => 1)
  have hrun : ∃ s, deserialize 1 (new ⟨cutOffBytes, fun _ => 0⟩ .new) = .ok (⟨0, [⟨7, some 0, false, [1]⟩]⟩, s) ∧
      s.pool.heap = [.literal .undefined, .literal (.boolean false)] := ⟨_, rfl, rfl⟩
  have hrun' : ∃ s, deserialize 1 (new ⟨cutOffBytes, fun _ => 1⟩ .new) = .ok (⟨0, [⟨7, some 0, false, [1]⟩]⟩, s) ∧
      s.pool.heap = [.literal .undefined, .literal (.boolean true)] := ⟨_, rfl, rfl⟩
  obtain ⟨s, hrun, hheap⟩ := hrun
  obtain ⟨s', hrun', hheap'⟩ := hrun'
  rw [hrun, hrun'] at hsame
  obtain ⟨R, hc⟩ := hsame
  -- the argument of the only call
  obtain ⟨hcall, -⟩ := List.forall₂_cons.1 hc.calls
  obtain ⟨harg, -⟩ := List.forall₂_cons.1 hcall.args
  cases harg with
  | literal h₁ h₂ hl =>
    rw [hheap] at h₁
    rw [hheap'] at h₂
    cases h₁
    cases h₂
    obtain hl | ⟨x, y, hl, -⟩ := hl
    · cases hl
    · cases hl
  | placeholder h₁ _ => rw [hheap] at h₁; cases h₁
  | array h₁ _ _ => rw [hheap] at h₁; cases h₁

/-! ## What else is in the pool -/

/-- There is no infinity but `z`. -/
def Literal.OnlyInfinity (z : Double) (l : Literal) : Prop := ∀ x : Double, l = .float x → x.isInf = true → x = z

/-- If `z` is an infinity, then the pool holds no other one. -/
def HoldsOnly (z : Double) (p : ObjectPool) : Prop :=
  z.isInf = true → ∀ a (x : Double), p.inf = some a → p.heap[a]? = some (.literal (.float x)) → x = z

theorem HoldsInfinity.holdsOnly {p : ObjectPool} {z : Double} (h : HoldsInfinity p (some z)) : HoldsOnly z p := by
  obtain ⟨a, ha, hz⟩ := h
  intro _ b x hb hx
  rw [ha] at hb
  cases hb
  rw [hz] at hx
  cases hx
  rfl

/-- What `_inf` is when `z` is asked for. -/
theorem HoldsOnly.holdsInfinity {p : ObjectPool} {z : Double} (hok : ObjectPoolOK p) (h : HoldsOnly z p)
    (hz : z.isInf = true) : ∃ o, HoldsInfinity p o ∧ o.getD z = z := by
  cases hinf : p.inf with
  | none => exact ⟨none, hinf, rfl⟩
  | some a =>
    obtain ⟨x, -, hx⟩ := hok.inf a hinf
    exact ⟨some x, ⟨a, hinf, hx⟩, h hz a x hinf hx⟩

/-- A pool that answers a request for `z` holds no other infinity. -/
theorem holdsOnly_of_answers {p : ObjectPool} {z : Double} (h : p.Answers (.get (.float z))) : HoldsOnly z p := by
  intro hz a x ha hx
  have hget := (getInfinity (show HoldsInfinity p (some x) from ⟨a, ha, hx⟩) hz).2
  obtain ⟨v, hv, l, rfl, hl⟩ := h _ rfl
  cases (hv.symm.trans hget : some (Value.literal l) = some (.literal (.float x)))
  rcases hl with hl | ⟨y, -, ⟨⟩, -, hy, -⟩
  · cases hl
    rfl
  · rw [Double.isNaN_of_isInf hz] at hy
    cases hy

/-- In pools that hold no infinity but `z`, every literal is represented but the other infinity. -/
def LiteralView.only (z : Double) : LiteralView where
  Admits := Literal.OnlyInfinity z
  written := Literal.pooled
  held := id
  Pool p := ObjectPoolOK p ∧ HoldsOnly z p
  ok h := h.1
  agree {p l} h hl := by
    obtain ⟨hok, honly⟩ := h
    by_cases hfin : ∀ x : Double, l = .float x → x.isInf = false
    · -- a literal that is no infinity leaves `_inf` alone
      have hg := ObjectPool.getLiteral_gives hok l hfin
      have hop : (PoolOp.get l).infinity? = none := by
        cases hop : (PoolOp.get l).infinity? with
        | none => rfl
        | some x =>
          obtain ⟨hl', hx⟩ := infinity?_eq_some hop
          cases hl'
          rw [hfin x rfl] at hx
          cases hx
      have hinf : (p.getLiteral l).2.inf = p.inf := apply_inf hop
      refine ⟨_, hg, ⟨hg.ok, fun hz a x ha hx => ?_⟩, rfl⟩
      rw [hinf] at ha
      obtain ⟨y, -, hy⟩ := hok.inf a ha
      rw [hg.ext.get hy] at hx
      cases hx
      exact honly hz a x ha hy
    · push Not at hfin
      obtain ⟨x, rfl, hx⟩ := hfin
      have hx : x.isInf = true := by simpa using hx
      obtain rfl := hl x rfl hx
      -- `_inf` is this infinity, or is set to it now
      obtain ⟨o, hholds, ho⟩ := honly.holdsInfinity hok hx
      obtain ⟨hholds', hget⟩ := getInfinity hholds hx
      rw [ho] at hholds' hget
      obtain ⟨y, -, hg⟩ := ObjectPool.getOrCreateFloatValue_inf hok x hx
      cases hget.symm.trans hg.get
      exact ⟨_, hg, ⟨hg.ok, hholds'.holdsOnly⟩, (Literal.pooled_float (Double.isNaN_of_isInf hx)).symm⟩
  keep {p q} h hok hinf hheap := by
    refine ⟨hok, fun hz a x ha hx => ?_⟩
    rw [hinf] at ha
    obtain ⟨y, -, hy⟩ := h.1.inf a ha
    rw [hheap a _ hy] at hx
    cases hx
    exact h.2 hz a x ha hy

theorem only_judges (z : Double) : (LiteralView.only z).Judges SameLiteral :=
  ⟨exact_judges.judge, exact_judges.undefined⟩

theorem Literal.pooled_pooled (l : Literal) : l.pooled.pooled = l.pooled := by
  cases l with
  | float x =>
    by_cases hx : x.isNaN = true
    · rw [Literal.pooled_nan hx]
      rfl
    · rw [Literal.pooled_float (by simpa using hx), Literal.pooled_float (by simpa using hx)]
  | _ => rfl

/-- What is read has receivers, and looks the same when it is read again. -/
theorem map_refilled (z : Double) (hfits : ∀ st ∈ Fs, FitsStep st) :
    ((Fs.map (Step.map (LiteralView.only z).forest)).map fillStep).map (Step.map (LiteralView.only z).forest) =
      Fs.map (Step.map (LiteralView.only z).forest) := by
  rw [List.map_map, List.map_map]
  refine List.map_congr_left fun st hst => ?_
  have hsame : (LiteralView.only z).written ∘ (LiteralView.only z).written = (LiteralView.only z).written :=
    funext Literal.pooled_pooled
  have hfill := fillThis_of_length ((st.head.length_map (LiteralView.only z).written).trans (hfits st hst).single)
  simp only [Function.comp_apply, Step.map, fillStep, hfill, Forest.map_map, hsame]

/-- **What is decoded does not depend on what the pools hold**, unless infinities clash: bytes that spell a test case
with one infinity at most are read as the same one in all pools that answer a request for this infinity, whatever
follows the bytes. -/
theorem decoded_same {pool' : ObjectPool} (hp : pool.Reachable) (hp' : pool'.Reachable) {z : Double}
    (h : testCaseReader.means b (root, Fs))
    (hz : ∀ st ∈ Fs, st.head.All (Literal.OnlyInfinity z) ∧ st.args.All (Literal.OnlyInfinity z))
    (hanswers : pool.Answers (.get (.float z))) (hanswers' : pool'.Answers (.get (.float z))) (rest rest' : List UInt8)
    (junk junk' : ℕ → UInt8) (hfuel : (encodeTestCase root Fs).length ≤ fuel) :
    SameOutcome (deserialize fuel (new ⟨b ++ rest, junk⟩ pool)) (deserialize fuel (new ⟨b ++ rest', junk'⟩ pool')) := by
  have hpool : (LiteralView.only z).Pool pool := ⟨hp.ok, holdsOnly_of_answers hanswers⟩
  have hpool' : (LiteralView.only z).Pool pool' := ⟨hp'.ok, holdsOnly_of_answers hanswers'⟩
  have hdata : ∀ more junk, (⟨b ++ more, junk⟩ : MemoryInputStream).data = b ++ more := fun _ _ => rfl
  obtain ⟨tc, s, T, hrun, hroot, hthis, hwalk⟩ := deserialize_means hpool h hz (hdata rest junk) hfuel
  obtain ⟨tc', s', T', hrun', hroot', hthis', hwalk'⟩ := deserialize_means hpool' h hz (hdata rest' junk') hfuel
  have hwell := @deserialize_outcome fuel pool hp.ok ⟨b ++ rest, junk⟩
  rw [hrun] at hwell
  rw [hrun, hrun']
  -- both look as the bytes spell it, and so the second looks as the first
  rw [show (LiteralView.only z).heap s.pool.heap = s.pool.heap from LiteralView.exact_heap _] at hwalk
  refine ⟨Link T T', corresponds_of_walks (only_judges z) hwell hwalk ?_ hthis' (hroot.trans hroot'.symm)⟩
  rw [map_refilled z (testCase_written h).2.2.2.1]
  exact hwalk'

end Caf
