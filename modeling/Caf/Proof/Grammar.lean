import Caf.Proof.Deserialize
import Caf.Proof.Serialize
import Caf.Spec.Grammar

/-!
# Encoding what was decoded

Every derivation of the grammar is the derivation of a forest, so the deserializer accepts
the bytes, and what it builds walks to the same forest, which the serializer writes again.

* `Values.forest`, `Calls.forests`: the forests of a derivation.
* `serialize_deserialize`: the bytes come back.
-/

namespace Caf

open ObjectGraph LittleEndian
open TestCaseDeserializer (ReadableStep BuiltTestCase)

/-- A literal that the pool holds as it is. -/
def Literal.Exact (l : Literal) : Prop := l.NoInf ∧ l.pooled = l

theorem Literal.Exact.of_kind {l : Literal} (h : ∀ x, l ≠ .float x) : l.Exact := by
  refine ⟨fun x hx => absurd hx (h x), ?_⟩
  cases l with
  | float x => exact absurd rfl (h x)
  | _ => rfl

theorem Literal.Exact.float {x : Double} (hn : x.isNaN = false) (hi : x.isInf = false) :
    (Literal.float x).Exact :=
  ⟨fun y hy => by cases hy; exact hi, Literal.pooled_float hn⟩

/-- What the forest of a derivation satisfies. -/
structure Derived (n k : ℕ) (b : List UInt8) (n' : ℕ) (F : Forest Literal) : Prop where
  bytes : encodeValues F = b
  length : F.length = k
  slots : n' = n + F.slots
  inScope : F.Scoped n
  fits : FitsForest F
  exact : F.All Literal.Exact

theorem toBytes_u32 {bytes : List UInt8} (h : IsU32 bytes) :
    toBytes 4 (UInt32.ofNat (ofBytes bytes)).toNat = bytes := by
  have hlt : ofBytes bytes < 2 ^ 32 := by
    have := ofBytes_lt bytes
    rwa [show bytes.length = 4 from h] at this
  have := toBytes_ofBytes bytes
  rw [show bytes.length = 4 from h] at this
  rw [UInt32.toNat_ofNat_of_lt' hlt, this]

/-- One literal more. -/
theorem Derived.leaf {n k n' : ℕ} {b bytes : List UInt8} {F : Forest Literal} {l : Literal}
    (h : Derived n k b n' F) (hb : l.encode ++ b = bytes) (hl : l.Fits) (he : l.Exact) :
    Derived n (k + 1) bytes n' (.leaf l F) :=
  ⟨by rw [encodeValues, h.bytes, hb], by rw [Forest.length, h.length], h.slots, h.inScope, ⟨hl, h.fits⟩,
    ⟨he, h.exact⟩⟩

/-- **The forest of a derivation.** -/
theorem Values.forest {n k n' : ℕ} {b : List UInt8} (h : Values n k b n') : ∃ F, Derived n k b n' F := by
  induction h with
  | nil => exact ⟨.nil, rfl, rfl, rfl, trivial, trivial, trivial⟩
  | undefined _ ih =>
    obtain ⟨F, hF⟩ := ih
    exact ⟨_, hF.leaf (l := .undefined) rfl trivial (.of_kind (by simp))⟩
  | null _ ih =>
    obtain ⟨F, hF⟩ := ih
    exact ⟨_, hF.leaf (l := .null) rfl trivial (.of_kind (by simp))⟩
  | boolean value hv _ ih =>
    obtain ⟨F, hF⟩ := ih
    rcases hv with rfl | rfl
    · exact ⟨_, hF.leaf (l := .boolean false) rfl trivial (.of_kind (by simp))⟩
    · exact ⟨_, hF.leaf (l := .boolean true) rfl trivial (.of_kind (by simp))⟩
  | string data hd _ ih =>
    obtain ⟨F, hF⟩ := ih
    exact ⟨_, hF.leaf (l := .string data) rfl hd (.of_kind (by simp))⟩
  | function funcId hid _ ih =>
    obtain ⟨F, hF⟩ := ih
    refine ⟨_, hF.leaf (l := .function (UInt32.ofNat (ofBytes funcId))) ?_ trivial (.of_kind (by simp))⟩
    simp only [Literal.encode, Literal.payload, toBytes_u32 hid]
    rfl
  | integer value hv _ ih =>
    obtain ⟨F, hF⟩ := ih
    refine ⟨_, hF.leaf (l := .integer (UInt32.ofNat (ofBytes value)).toInt32) ?_ trivial (.of_kind (by simp))⟩
    simp only [Literal.encode, Literal.payload, UInt32.toUInt32_toInt32, toBytes_u32 hv]
    rfl
  | float value hn hi _ ih =>
    obtain ⟨F, hF⟩ := ih
    exact ⟨_, hF.leaf (l := .float value) rfl trivial (.float hn hi)⟩
  | array size elements n₁ hsize _ _ ih₁ ih₂ =>
    obtain ⟨F₁, h₁⟩ := ih₁
    obtain ⟨F₂, h₂⟩ := ih₂
    refine ⟨.node F₁ F₂, ?_, by rw [Forest.length, h₂.length], ?_, ⟨h₁.inScope, h₁.slots ▸ h₂.inScope⟩,
      ⟨h₁.length ▸ hsize, h₁.fits, h₂.fits⟩, ⟨h₁.exact, h₂.exact⟩⟩
    · simp only [encodeValues, encodeArrayHeader, h₁.length, h₁.bytes, h₂.bytes, List.cons_append]
      rfl
    · rw [h₂.slots, h₁.slots, Forest.slots]; omega
  | placeholder index hn hk _ ih =>
    obtain ⟨F, hF⟩ := ih
    refine ⟨.back index F, ?_, by rw [Forest.length, hF.length], hF.slots, ⟨hn, hF.inScope⟩,
      ⟨hk, hF.fits⟩, hF.exact⟩
    rw [encodeValues, hF.bytes]
    rfl

/-- What the forests of a derivation of calls satisfy. -/
structure DerivedCalls (n k : ℕ) (b : List UInt8) (Fs : List (Step CallOp (Forest Literal))) : Prop where
  bytes : encodeCalls Fs = b
  length : Fs.length = k
  inScope : ScopedSteps n Fs
  fits : ∀ st ∈ Fs, FitsStep st
  exact : ∀ st ∈ Fs, st.head.All Literal.Exact ∧ st.args.All Literal.Exact

/-- **The forests of a derivation of calls.** -/
theorem Calls.forests {n k n' : ℕ} {b : List UInt8} (h : Calls n k b n') : ∃ Fs, DerivedCalls n k b Fs := by
  induction h with
  | nil => exact ⟨[], rfl, rfl, trivial, by simp, by simp⟩
  | @cons n k b n' funcId thisValue isCtor argsCount args n₁ n₂ hid hthis hctor hcount hargs _ ih =>
    obtain ⟨F₁, h₁⟩ := hthis.forest
    obtain ⟨F₂, h₂⟩ := hargs.forest
    obtain ⟨Fs, hFs⟩ := ih
    have hc : (decide (isCtor = 1)).toUInt8 = isCtor := by rcases hctor with rfl | rfl <;> rfl
    refine ⟨⟨(UInt32.ofNat (ofBytes funcId), decide (isCtor = 1)), F₁, F₂⟩ :: Fs, ?_, ?_, ?_, ?_, ?_⟩
    · have hrest : Fs.flatMap encodeCall = b := hFs.bytes
      simp only [encodeCalls, List.flatMap_cons, hrest, encodeCall, toBytes_u32 hid, h₁.bytes, hc,
        h₂.length, h₂.bytes]
    · rw [List.length_cons, hFs.length]
    · refine ⟨h₁.inScope, h₁.slots ▸ h₂.inScope, ?_⟩
      have hs := hFs.inScope
      rw [h₂.slots, h₁.slots] at hs
      simpa only [Step.slots, Nat.add_assoc] using hs
    · intro st hst
      rcases List.mem_cons.1 hst with rfl | hst
      · exact ⟨h₁.fits, h₁.length, h₂.length ▸ hcount, h₂.fits⟩
      · exact hFs.fits st hst
    · intro st hst
      rcases List.mem_cons.1 hst with rfl | hst
      · exact ⟨h₁.exact, h₂.exact⟩
      · exact hFs.exact st hst

/-- Literals that the pool holds as they are do not change. -/
theorem pooled_of_exact {F : Forest Literal} (h : F.All Literal.Exact) : LiteralView.exact.forest F = F := by
  induction F with
  | nil => rfl
  | leaf l F ih =>
    show Forest.leaf l.pooled (LiteralView.exact.forest F) = _
    rw [h.1.2, ih h.2]
  | back k F ih =>
    show Forest.back k (LiteralView.exact.forest F) = _
    rw [ih h]
  | node F₁ F₂ ih₁ ih₂ =>
    show Forest.node (LiteralView.exact.forest F₁) (LiteralView.exact.forest F₂) = _
    rw [ih₁ h.1, ih₂ h.2]

theorem noInf_of_exact {F : Forest Literal} (h : F.All Literal.Exact) : F.All Literal.NoInf := by
  induction F with
  | nil => trivial
  | leaf l F ih => exact ⟨h.1.1, ih h.2⟩
  | back k F ih => exact ih h
  | node F₁ F₂ ih₁ ih₂ => exact ⟨ih₁ h.1, ih₂ h.2⟩

/-- **Encoding undoes decoding.** The deserializer accepts every byte string of the grammar, and
the serializer writes the result as exactly these bytes. -/
theorem serialize_deserialize {b : List UInt8} (hb : IsTestCase b) (junk : ℕ → UInt8) {fuel : ℕ}
    (hfuel : b.length ≤ fuel) :
    ∃ tc s s', TestCaseDeserializer.deserialize fuel (.new ⟨b, junk⟩ .new) = .ok (tc, s) ∧
      s.input.data = [] ∧ TestCaseSerializer.serialize s.pool.heap tc = .ok s' ∧ s'.out = b := by
  obtain ⟨root, callsCount, calls, n, hroot, hcount, hcalls, rfl⟩ := hb
  obtain ⟨Fs, hFs⟩ := hcalls.forests
  obtain ⟨r, hr, hr32⟩ : ∃ r, toBytes 4 r = root ∧ r < 2 ^ 32 := ⟨_, toBytes_u32 hroot, UInt32.toNat_lt _⟩
  have hbytes : encodeTestCase r Fs = root ++ toBytes 4 callsCount ++ calls := by
    rw [encodeTestCase, hr, hFs.length, hFs.bytes]
  have hread : ∀ st ∈ Fs, ReadableStep .exact st := fun st hst =>
    ⟨hFs.fits st hst, noInf_of_exact (hFs.exact st hst).1, noInf_of_exact (hFs.exact st hst).2⟩
  have hd : DepthLE fuel Fs := fun st hst =>
    have hle := depthLE_length r Fs st hst
    ⟨Nat.le_trans hle.1 (hbytes ▸ hfuel), Nat.le_trans hle.2 (hbytes ▸ hfuel)⟩
  have hdata : (⟨root ++ toBytes 4 callsCount ++ calls, junk⟩ : MemoryInputStream).data =
      encodeTestCase r Fs ++ [] := by rw [List.append_nil, hbytes]
  obtain ⟨tc, s, T, hrun, hbuilt⟩ := TestCaseDeserializer.deserialize_spec hr32 (hFs.length ▸ hcount) hread
    hFs.inScope hdata ObjectPool.new_ok hd
  -- what was built walks to the forests that were read
  have hsame : ∀ st ∈ Fs, Step.map LiteralView.exact.forest st = st ∧ fillStep st = st := by
    intro st hst
    obtain ⟨he₁, he₂⟩ := hFs.exact st hst
    exact ⟨by rw [Step.map, pooled_of_exact he₁, pooled_of_exact he₂],
      by rw [fillStep, fillThis_of_length (hFs.fits st hst).single]⟩
  have hwalk := hbuilt.walk
  rw [LiteralView.exact_heap, List.map_congr_left fun st hst => (hsame st hst).1, List.map_id'] at hwalk
  obtain ⟨c, tr, hser, -, -⟩ := serialize_walk hwalk
  refine ⟨tc, s, _, hrun, by rw [hbuilt.input]; rfl, hser, ?_⟩
  rw [List.map_congr_left fun st hst => (hsame st hst).2, List.map_id', hbuilt.root, hbytes]

/-- An array that contains itself comes back. -/
theorem serialize_deserialize_cycle :
    ∃ tc s s', TestCaseDeserializer.deserialize 27 (.new ⟨[0, 0, 0, 0, 1, 0, 0, 0, 9, 0, 0, 0, 7, 1, 0, 0, 0,
        8, 0, 0, 0, 0, 1, 0, 0, 0, 0], fun _ => 0⟩ .new) = .ok (tc, s) ∧
      s.input.data = [] ∧ TestCaseSerializer.serialize s.pool.heap tc = .ok s' ∧
      s'.out = [0, 0, 0, 0, 1, 0, 0, 0, 9, 0, 0, 0, 7, 1, 0, 0, 0, 8, 0, 0, 0, 0, 1, 0, 0, 0, 0] :=
  serialize_deserialize
    ⟨[0, 0, 0, 0], 1, _, _, rfl, by decide,
      .cons [9, 0, 0, 0] _ 1 0 [] _ _ rfl
        (.array 1 _ _ (by decide) (.placeholder 0 (by decide) (by decide) .nil) .nil)
        (.inr rfl) (by decide) .nil .nil, rfl⟩
    (fun _ => 0) (Nat.le_refl _)

end Caf
