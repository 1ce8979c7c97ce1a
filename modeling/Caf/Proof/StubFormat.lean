import Caf.Proof.StubInput
import Caf.Spec.StubFormat

/-!
# The generated program on the input format

* `readValues_encode`: a sequence of values is read back.
* `readTestCase_encode`: so is a sequence of calls, and nothing after it is read.
-/

namespace Caf

open ObjectGraph Ir LittleEndian

variable {σ H : Type} (L : V8Lib σ H) (functions : ℕ)

/-! ## Fields -/

theorem getchars_append {n : ℕ} {bs rest : List UInt8} {s : StubProcess σ H} (hs : s.input = bs ++ rest)
    (hbs : bs.length = n) :
    s.getchars n = (bs, { s with input := rest }) := by
  subst hbs
  simp only [StubProcess.getchars, hs, List.drop_left, Prod.mk.injEq, and_true]
  refine List.ext_getElem (by simp) fun i h₁ h₂ => ?_
  simp [List.getElem?_append_left h₂, List.getElem?_eq_getElem h₂]

theorem scan_append {n : ℕ} {bs rest : List UInt8} {s : StubProcess σ H} (hs : s.input = bs ++ rest)
    (hbs : bs.length = n) :
    s.scan n = (bs.map some, { s with input := rest }) := by
  subst hbs
  simp only [StubProcess.scan, hs, List.drop_left, Prod.mk.injEq, and_true]
  refine List.ext_getElem (by simp) fun i h₁ h₂ => ?_
  simp only [List.length_map] at h₂
  simp [List.getElem?_append_left h₂, List.getElem?_eq_getElem h₂]

/-- **A number is read back.** -/
theorem readInt_toBytes {n : ℕ} (hn : n < 2 ^ 32) {rest : List UInt8} {s : StubProcess σ H}
    (hs : s.input = toBytes 4 n ++ rest) :
    s.readInt = ((UInt32.ofNat n).toInt32, { s with input := rest }) := by
  have hchars := getchars_append hs (length_toBytes 4 n)
  simp only [StubProcess.readInt, hchars, ofBytes_toBytes_of_lt (w := 4) hn]

theorem toInt32_ofNat (n : ℕ) : (UInt32.ofNat n).toInt32 = Int32.ofNat n := rfl

theorem toNatClampNeg_ofNat {n : ℕ} (hn : n < 2 ^ 31) : (Int32.ofNat n).toNatClampNeg = n := by
  have hint : (Int32.ofNat n).toInt = n := Int32.toInt_ofNat_of_lt hn
  have hclamp : (Int32.ofNat n).toNatClampNeg = (Int32.ofNat n).toInt.toNat := rfl
  omega

theorem ofNat_nonneg {n : ℕ} (hn : n < 2 ^ 31) : 0 ≤ Int32.ofNat n := by
  rw [Int32.le_iff_toInt_le, Int32.toInt_ofNat_of_lt hn]
  exact Int.natCast_nonneg n

/-! ## Values -/

theorem readKind_cons {b : UInt8} {input : List UInt8} {s : StubProcess σ H} (hs : s.input = b :: input) :
    s.readKind = (b, { s with input := input }) := by
  simp [StubProcess.readKind, hs]

/-- What V8 makes does not depend on the rest of the process. -/
theorem createValue_eq (create : σ → Option (H × σ)) (s : StubProcess σ H) :
    createValue create s = hostResult (create s.v8) >>= fun (h, v8) => .ok (some h, { s with v8 := v8 }) := by
  simp only [createValue, StubProcess.give, bind_assoc]
  rfl

theorem createAndShow_eq (create : σ → Option (H × σ)) (showValue : H → σ → Option σ) (s : StubProcess σ H) :
    createAndShow create showValue s =
      createShown create showValue s.v8 >>= fun (h, v8) => .ok (some h, { s with v8 := v8 }) := by
  simp only [createAndShow, createShown, StubProcess.give, StubProcess.act, bind_assoc]
  rfl

theorem makeLiteral_string (str : StdString) (s : StubProcess σ H) :
    makeLiteral L functions (.string str) s =
      if str = [] then .error .undefined else createAndShow (L.createString (str.map some)) L.showString s := by
  simp only [makeLiteral, createLiteral]
  split
  · rfl
  · exact (createAndShow_eq _ _ s).symm

theorem makeLiteral_function (id : FunctionIdType) (s : StubProcess σ H) :
    makeLiteral L functions (.function id) s =
      if id.toNat < functions then createValue (L.createFunction id.toNat) s else .error .undefined := by
  simp only [makeLiteral, createLiteral]
  split
  · exact (createValue_eq _ s).symm
  · rfl

/-- A string is read back, and an empty one is not. -/
theorem readString_encode {str rest : List UInt8} (hlen : str.length < 2 ^ 31) {s : StubProcess σ H}
    (hs : s.input = toBytes 4 str.length ++ str ++ rest) :
    readString L s = makeLiteral L functions (.string str) { s with input := rest } := by
  rw [List.append_assoc] at hs
  have hscan := scan_append (s := { s with input := str ++ rest }) rfl rfl
  have hpad : (Int32.ofNat str.length).toUInt32.toNat - str.length = 0 := by
    rw [Int32.toNat_toUInt32_of_le (ofNat_nonneg hlen), toNatClampNeg_ofNat hlen, Nat.sub_self]
  have hzero : Int32.ofNat str.length = 0 ↔ str = [] := by
    rw [← Int32.toInt_inj, Int32.toInt_ofNat_of_lt hlen, ← List.length_eq_zero_iff]
    exact Int.natCast_eq_zero
  simp only [readString, readInt_toBytes (by omega) hs, toInt32_ofNat, toNatClampNeg_ofNat hlen, hscan, hpad, hzero,
    List.replicate_zero, List.append_nil, makeLiteral_string]

/-- A function is read back. -/
theorem readFunction_encode (hfunctions : functions ≤ 2 ^ 31) {id : FunctionIdType} {rest : List UInt8}
    {s : StubProcess σ H} (hs : s.input = toBytes 4 id.toNat ++ rest) :
    readFunction L functions s = makeLiteral L functions (.function id) { s with input := rest } := by
  have hid := readInt_toBytes id.toNat_lt hs
  have hcond : (0 ≤ (UInt32.ofNat id.toNat).toInt32 ∧ (UInt32.ofNat id.toNat).toInt32.toInt < functions) ↔
      id.toNat < functions := by
    rw [toInt32_ofNat]
    constructor
    · rintro ⟨hpos, hlt⟩
      by_cases h : id.toNat < 2 ^ 31
      · rwa [Int32.toInt_ofNat_of_lt h, Int.ofNat_lt] at hlt
      · rw [Int32.le_iff_toInt_le, Int32.toInt_ofNat'] at hpos
        have hbmod : (id.toNat : ℤ).bmod (2 ^ 32) < 0 := by
          have := id.toNat_lt
          rw [Int.bmod_def]
          omega
        exact absurd hpos (not_le.mpr hbmod)
    · intro h
      rw [Int32.toInt_ofNat_of_lt (by omega)]
      exact ⟨ofNat_nonneg (by omega), Int.ofNat_lt.mpr h⟩
  simp only [readFunction, hid, hcond, makeLiteral_function]
  split
  · rename_i h
    rw [toInt32_ofNat, toNatClampNeg_ofNat (by omega)]
  · rfl

/-- **A literal is read back.** -/
theorem readStubValue_literal (fuel : ℕ) (hfunctions : functions ≤ 2 ^ 31) {l : Literal} (hl : l.FitsStub)
    {rest : List UInt8} {s : StubProcess σ H} (hs : s.input = l.encode ++ rest) :
    readStubValue L functions (fuel + 1) s = makeLiteral L functions l { s with input := rest } := by
  rw [Literal.encode, List.cons_append] at hs
  cases l with
  | undefined =>
    rw [readStubValue, readKind_cons hs]
    exact createValue_eq L.createUndefined _
  | null =>
    rw [readStubValue, readKind_cons hs]
    exact createValue_eq L.createNull _
  | boolean b =>
    have hscan := scan_append (n := 1) (s := { s with input := [b.toUInt8] ++ rest }) rfl rfl
    have hread : readStubValue L functions (fuel + 1) s = createAndShow
        (L.createBoolean (({ s with input := [b.toUInt8] ++ rest } : StubProcess σ H).scan 1).1.head?.join)
        L.showBoolean (({ s with input := [b.toUInt8] ++ rest } : StubProcess σ H).scan 1).2 := by
      rw [readStubValue, readKind_cons hs]
      rfl
    rw [hread, hscan]
    exact createAndShow_eq (L.createBoolean (some b.toUInt8)) _ _
  | string str =>
    rw [readStubValue, readKind_cons hs]
    exact readString_encode L functions hl rfl
  | function id =>
    rw [readStubValue, readKind_cons hs]
    exact readFunction_encode L functions hfunctions rfl
  | integer n =>
    have hint := readInt_toBytes n.toUInt32.toNat_lt (s := { s with input := toBytes 4 n.toUInt32.toNat ++ rest }) rfl
    have hread : readStubValue L functions (fuel + 1) s = createAndShow
        (L.createInteger ({ s with input := toBytes 4 n.toUInt32.toNat ++ rest } : StubProcess σ H).readInt.1)
        L.showInteger ({ s with input := toBytes 4 n.toUInt32.toNat ++ rest } : StubProcess σ H).readInt.2 := by
      rw [readStubValue, readKind_cons hs]
      rfl
    rw [hread, hint, ofNat_toUInt32]
    exact createAndShow_eq _ _ _
  | float x =>
    have hdouble : ({ s with input := toBytes 8 x.toNat ++ rest } : StubProcess σ H).readDouble =
        (x, { s with input := rest }) := by
      have hchars := getchars_append (s := { s with input := toBytes 8 x.toNat ++ rest }) rfl (length_toBytes 8 x.toNat)
      simp only [StubProcess.readDouble, hchars, ofBytes_toBytes_of_lt (w := 8) x.toNat_lt, UInt64.ofNat_toNat]
    have hread : readStubValue L functions (fuel + 1) s = createAndShow
        (L.createNumber ({ s with input := toBytes 8 x.toNat ++ rest } : StubProcess σ H).readDouble.1) L.showNumber
        ({ s with input := toBytes 8 x.toNat ++ rest } : StubProcess σ H).readDouble.2 := by
      rw [readStubValue, readKind_cons hs]
      rfl
    rw [hread, hdouble]
    exact createAndShow_eq _ _ _

/-! ## Sequences of values -/

/-- `read` reads values from inputs of length at most `n`, with a bound that is large enough. -/
def ReadsUpTo (n : ℕ) (read : StubReader σ H (Option H)) : Prop :=
  ∀ s, s.input.length ≤ n → ∃ fuel, s.input.length < fuel ∧ read s = readStubValue L functions fuel s

theorem ReadsUpTo.readStubValue (fuel : ℕ) : ReadsUpTo L functions fuel (readStubValue L functions (fuel + 1)) :=
  fun _ hs => ⟨fuel + 1, Nat.lt_succ_of_le hs, rfl⟩

theorem ReadsUpTo.readInput (n : ℕ) : ReadsUpTo L functions n (readInput L functions) :=
  fun s _ => ⟨s.input.length + 1, Nat.lt_succ_self _, rfl⟩

theorem readStubValue_back (fuel : ℕ) {k : ℕ} (hk : k < 2 ^ 31) {rest : List UInt8} {s : StubProcess σ H}
    (hs : s.input = encodePlaceholder k ++ rest) :
    readStubValue L functions (fuel + 1) s = .ok (s.objects[k]?, { s with input := rest }) := by
  rw [encodePlaceholder, List.cons_append] at hs
  have hint := readInt_toBytes (n := k) (by omega) (s := { s with input := toBytes 4 k ++ rest }) rfl
  have hread : readStubValue L functions (fuel + 1) s = .ok
      (({ s with input := toBytes 4 k ++ rest } : StubProcess σ H).readInt.2.object
        ({ s with input := toBytes 4 k ++ rest } : StubProcess σ H).readInt.1,
        ({ s with input := toBytes 4 k ++ rest } : StubProcess σ H).readInt.2) := by
    rw [readStubValue, readKind_cons hs]
    rfl
  rw [hread, hint, toInt32_ofNat, StubProcess.object, if_pos (ofNat_nonneg hk), toNatClampNeg_ofNat hk]

/-- What is made does not depend on the input, which stays as it is. -/
def KeepsInput {α : Type} (make : StubReader σ H α) : Prop :=
  ∀ s input, make { s with input := input } = make s >>= fun x => .ok (x.1, { x.2 with input := input })

theorem KeepsInput.bind {α β : Type} {make : StubReader σ H α}
    {next : α → StubReader σ H β} (hmake : KeepsInput make)
    (hnext : ∀ a, KeepsInput (next a)) : KeepsInput fun s => make s >>= fun x => next x.1 x.2 := by
  intro s input
  show (make { s with input := input } >>= fun x => next x.1 x.2) = _
  rw [hmake s input, bind_assoc, bind_assoc]
  exact bind_congr fun x => hnext x.1 x.2 input

theorem KeepsInput.map {α β : Type} {make : StubReader σ H α} (hmake : KeepsInput make)
    (f : α → β) : KeepsInput fun s => make s >>= fun x => .ok (f x.1, x.2) := by
  have hok : ∀ a, KeepsInput fun s : StubProcess σ H => .ok (f a, s) := fun _ _ _ => rfl
  exact hmake.bind hok

/-- An array is made of its elements, and saved. -/
def makeArray (elements : List (Option H)) (n : Int32) (s : StubProcess σ H) :
    Except Fault (Option H × StubProcess σ H) := do
  let (h, s) ← s.give (L.createArray elements n)
  return (some h, saveToObjectList h s)

/-- An array and what follows it. -/
theorem makeValues_node (sub next : Forest Literal) (s : StubProcess σ H) :
    makeValues L functions (.node sub next) s = makeValues L functions sub s >>= fun (elements, s) =>
      makeArray L elements (Int32.ofNat sub.length) s >>= fun (v, s) =>
        makeValues L functions next s >>= fun (vs, s) => .ok (v :: vs, s) := by
  simp only [makeValues, makeArray, bind_assoc]
  rfl

theorem keepsInput_makeArray (elements : List (Option H)) (n : Int32) : KeepsInput (makeArray L elements n) := by
  intro s input
  simp only [makeArray, StubProcess.give, bind_assoc]
  rfl

theorem keepsInput_makeLiteral (l : Literal) : KeepsInput (makeLiteral L functions l) := by
  intro s input
  simp only [makeLiteral, bind_assoc]
  rfl

theorem keepsInput_makeValues (F : Forest Literal) : KeepsInput (makeValues L functions F) := by
  induction F with
  | nil => intro s input; rfl
  | leaf l next ih =>
    exact (keepsInput_makeLiteral L functions l).bind fun v => ih.map (v :: ·)
  | back k next ih =>
    have hobject : KeepsInput fun s : StubProcess σ H => .ok (s.objects[k]?, s) := fun _ _ => rfl
    exact hobject.bind fun v => ih.map (v :: ·)
  | node sub next ihs ih =>
    have hbind := ihs.bind fun elements =>
      (keepsInput_makeArray L elements (Int32.ofNat sub.length)).bind fun v => ih.map (v :: ·)
    intro s input
    rw [makeValues_node, makeValues_node]
    exact hbind s input

/-- A value, and the values after it. -/
theorem readValues_succ {read : StubReader σ H (Option H)} (n : ℕ) {s : StubProcess σ H}
    {make : StubReader σ H (Option H)} {input : List UInt8} (rest : List UInt8) (hmake : KeepsInput make)
    (hread : read s = make { s with input := input }) {next : StubReader σ H (List (Option H))}
    (hnext : ∀ s' : StubProcess σ H, s'.input = input → readValues read n s' = next { s' with input := rest }) :
    readValues read (n + 1) s = make { s with input := rest } >>= fun (v, s) =>
      next s >>= fun (vs, s) => .ok (v :: vs, s) := by
  rw [readValues, hread, hmake, hmake s rest, bind_assoc, bind_assoc]
  refine bind_congr fun x => ?_
  simp only [ok_bind]
  rw [hnext _ rfl]
  rfl

/-- **A sequence of values is read back.** -/
theorem readValues_encode (hfunctions : functions ≤ 2 ^ 31) (F : Forest Literal) :
    ∀ {n : ℕ} {read : StubReader σ H (Option H)} {rest : List UInt8} {s : StubProcess σ H},
      FitsStubForest F → ReadsUpTo L functions n read → s.input.length ≤ n → s.input = encodeValues F ++ rest →
        readValues read F.length s = makeValues L functions F { s with input := rest } := by
  induction F with
  | nil =>
    intro n read rest s _ _ _ hs
    simp only [encodeValues, List.nil_append] at hs
    subst hs
    rfl
  | leaf l next ih =>
    intro n read rest s hfits hread hlen hs
    rw [encodeValues, List.append_assoc] at hs
    obtain ⟨fuel, hfuel, heq⟩ := hread s hlen
    obtain ⟨fuel, rfl⟩ : ∃ k, fuel = k + 1 := ⟨fuel - 1, by omega⟩
    rw [readStubValue_literal L functions fuel hfunctions hfits.1 hs] at heq
    rw [hs] at hlen
    simp only [List.length_append] at hlen
    exact readValues_succ _ rest (keepsInput_makeLiteral L functions l) heq fun s' hs' =>
      ih hfits.2 hread (by rw [hs']; simp; omega) hs'
  | back k next ih =>
    intro n read rest s hfits hread hlen hs
    rw [encodeValues, List.append_assoc] at hs
    obtain ⟨fuel, hfuel, heq⟩ := hread s hlen
    obtain ⟨fuel, rfl⟩ : ∃ k, fuel = k + 1 := ⟨fuel - 1, by omega⟩
    rw [readStubValue_back L functions fuel hfits.1 hs] at heq
    rw [hs] at hlen
    simp only [List.length_append] at hlen
    have hmake : KeepsInput fun s : StubProcess σ H => .ok (s.objects[k]?, s) := fun _ _ => rfl
    have hsucc := readValues_succ next.length rest hmake heq fun s' hs' =>
      ih hfits.2 hread (by rw [hs']; simp; omega) hs'
    exact hsucc
  | node sub next ihs ih =>
    intro n read rest s hfits hread hlen hs
    rw [encodeValues, encodeArrayHeader, List.cons_append, List.cons_append, List.cons_append, List.append_assoc,
      List.append_assoc] at hs
    obtain ⟨fuel, hfuel, heq⟩ := hread s hlen
    obtain ⟨fuel, rfl⟩ : ∃ k, fuel = k + 1 := ⟨fuel - 1, by omega⟩
    rw [hs] at hlen hfuel
    simp only [List.length_cons, List.length_append, length_toBytes] at hlen hfuel
    obtain ⟨fuel, rfl⟩ : ∃ k, fuel = k + 1 := ⟨fuel - 1, by omega⟩
    have hsize := readInt_toBytes (n := sub.length) (by have := hfits.1; omega)
      (s := { s with input := toBytes 4 sub.length ++ (encodeValues sub ++ (encodeValues next ++ rest)) }) rfl
    have helements := ihs (s := { s with input := encodeValues sub ++ (encodeValues next ++ rest) }) hfits.2.1
      (ReadsUpTo.readStubValue L functions fuel) (by simp only [List.length_append]; omega) rfl
    have harray : read s = (fun s => makeValues L functions sub s >>= fun x =>
        makeArray L x.1 (Int32.ofNat sub.length) x.2) { s with input := encodeValues next ++ rest } := by
      rw [heq, readStubValue, readKind_cons hs]
      show readArray L (readStubValue L functions (fuel + 1))
        { s with input := toBytes 4 sub.length ++ (encodeValues sub ++ (encodeValues next ++ rest)) } = _
      simp only [readArray, hsize, toInt32_ofNat, toNatClampNeg_ofNat hfits.1, helements]
      rfl
    have hmake := (keepsInput_makeValues L functions sub).bind fun elements =>
      keepsInput_makeArray L elements (Int32.ofNat sub.length)
    have hsucc := readValues_succ next.length rest hmake harray fun s' hs' =>
      ih hfits.2.2 hread (by rw [hs']; simp only [List.length_append]; omega) hs'
    rw [bind_assoc] at hsucc
    rw [makeValues_node]
    exact hsucc

/-! ## Calls -/

/-- A sequence of values on its own. -/
theorem readInputs_encode (hfunctions : functions ≤ 2 ^ 31) {F : Forest Literal} (hF : FitsStubForest F)
    {rest : List UInt8} {s : StubProcess σ H} (hs : s.input = encodeValues F ++ rest) :
    readValues (readInput L functions) F.length s = makeValues L functions F { s with input := rest } :=
  readValues_encode L functions hfunctions F hF (ReadsUpTo.readInput L functions s.input.length) le_rfl hs

/-- The receiver. -/
theorem readInput_encode (hfunctions : functions ≤ 2 ^ 31) {F : Forest Literal} (hF : FitsStubForest F)
    (hsingle : F.length = 1) {rest : List UInt8} {s : StubProcess σ H} (hs : s.input = encodeValues F ++ rest) :
    readInput L functions s =
      makeValues L functions F { s with input := rest } >>= fun (vs, s) => .ok (vs.head?.join, s) := by
  rw [← readInputs_encode L functions hfunctions hF hs, hsingle, readValues, bind_assoc]
  exact (bind_pure (readInput L functions s)).symm

theorem keepsInput_callApi (index : ℕ) (thisArg : Option H) (args : List (Option H)) (n : Int32) (s : StubProcess σ H)
    (input : List UInt8) :
    callApi L index thisArg args n { s with input := input } =
      callApi L index thisArg args n s >>= fun s => .ok { s with input := input } := by
  simp only [callApi, StubProcess.give, StubProcess.act, bind_assoc]
  rfl

theorem keepsInput_makeCall (st : Step FunctionIdType (Forest Literal)) (s : StubProcess σ H) (input : List UInt8) :
    makeCall L functions st { s with input := input } =
      makeCall L functions st s >>= fun s => .ok { s with input := input } := by
  have hvalues := (keepsInput_makeValues L functions st.head).bind fun thisArg =>
    (keepsInput_makeValues L functions st.args).map fun args => (thisArg, args)
  have hcall : ∀ s, makeCall L functions st s = (makeValues L functions st.head s >>= fun x =>
      makeValues L functions st.args x.2 >>= fun y => .ok ((x.1, y.1), y.2)) >>= fun z =>
        callApi L st.op.toNat z.1.1.head?.join z.1.2 (Int32.ofNat st.args.length) z.2 := by
    intro s
    simp only [makeCall, bind_assoc]
    rfl
  have hkeeps := hvalues s input
  beta_reduce at hkeeps
  rw [hcall, hcall, hkeeps]
  simp only [bind_assoc, ok_bind, keepsInput_callApi]

/-- **A call is read back.** -/
theorem readCall_encode (hfunctions : functions ≤ 2 ^ 31) {st : Step FunctionIdType (Forest Literal)}
    (hst : FitsStubStep functions st) (rest : List UInt8) {s : StubProcess σ H}
    (hs : s.input = encodeValues st.head ++ (toBytes 4 st.args.length ++ (encodeValues st.args ++ rest))) :
    readCall L functions (Int32.ofNat st.op.toNat) s = makeCall L functions st { s with input := rest } := by
  have hop : st.op.toNat < 2 ^ 31 := hst.op.trans_le hfunctions
  have hargs : ∀ s' : StubProcess σ H, s'.input = toBytes 4 st.args.length ++ (encodeValues st.args ++ rest) →
      readValues (readInput L functions) s'.readInt.1.toNatClampNeg s'.readInt.2 =
        makeValues L functions st.args { s' with input := rest } := by
    intro s' hs'
    rw [readInt_toBytes (by have := hst.length; omega) hs', toInt32_ofNat, toNatClampNeg_ofNat hst.length]
    exact readInputs_encode L functions hfunctions hst.args rfl
  have hcond : 0 ≤ Int32.ofNat st.op.toNat ∧ (Int32.ofNat st.op.toNat).toInt < functions :=
    ⟨ofNat_nonneg hop, by rw [Int32.toInt_ofNat_of_lt hop]; exact Int.ofNat_lt.mpr hst.op⟩
  rw [readCall, if_pos hcond, readInput_encode L functions hfunctions hst.head hst.single hs,
    keepsInput_makeValues L functions st.head s, makeCall, keepsInput_makeValues L functions st.head s rest]
  simp only [bind_assoc, ok_bind]
  refine bind_congr fun x => ?_
  have hcount := readInt_toBytes (n := st.args.length) (by have := hst.length; omega)
    (s := { x.2 with input := toBytes 4 st.args.length ++ (encodeValues st.args ++ rest) }) rfl
  rw [hargs _ rfl, toNatClampNeg_ofNat hop]
  simp only [hcount, toInt32_ofNat]

theorem readCalls_encode (hfunctions : functions ≤ 2 ^ 31) {Fs : List (Step FunctionIdType (Forest Literal))}
    (hFs : ∀ st ∈ Fs, FitsStubStep functions st) {rest : List UInt8} :
    ∀ {s : StubProcess σ H}, s.input = encodeStubCalls Fs ++ rest →
      readCalls L functions Fs.length s = makeCalls L functions Fs { s with input := rest } := by
  induction Fs with
  | nil =>
    intro s hs
    simp only [encodeStubCalls, List.flatMap_nil, List.nil_append] at hs
    subst hs
    rfl
  | cons st Fs ih =>
    intro s hs
    have hst := hFs st (by simp)
    have hop : st.op.toNat < 2 ^ 32 := st.op.toNat_lt
    simp only [encodeStubCalls, List.flatMap_cons, encodeStubCall, List.append_assoc] at hs
    have hid := readInt_toBytes hop hs
    have hcall := readCall_encode L functions hfunctions hst (encodeStubCalls Fs ++ rest)
      (s := s.readInt.2) (by rw [hid]; rfl)
    rw [List.length_cons, readCalls, hid, toInt32_ofNat]
    rw [hid] at hcall
    simp only at hcall ⊢
    rw [hcall, keepsInput_makeCall, makeCalls, keepsInput_makeCall L functions st s rest, bind_assoc, bind_assoc]
    exact bind_congr fun s' => ih (fun st' hst' => hFs st' (by simp [hst'])) rfl

/-- **A sequence of calls is read back**, and what comes after it is left. -/
theorem readTestCase_encode (hfunctions : functions ≤ 2 ^ 31) {Fs : List (Step FunctionIdType (Forest Literal))}
    (hlen : Fs.length < 2 ^ 31) (hFs : ∀ st ∈ Fs, FitsStubStep functions st) {rest : List UInt8} {s : StubProcess σ H}
    (hs : s.input = encodeStubInput Fs ++ rest) :
    readTestCase L functions s = makeCalls L functions Fs { s with input := rest } := by
  rw [encodeStubInput, List.append_assoc] at hs
  have hcount := readInt_toBytes (n := Fs.length) (by omega) hs
  simp only [readTestCase, hcount, toInt32_ofNat, toNatClampNeg_ofNat hlen]
  exact readCalls_encode L functions hfunctions hFs rfl

end Caf
