import Caf.Proof.CutOff
import Caf.Proof.RoundTrip
import Caf.Proof.Decoded

/-!
# Reading what bytes spell

What the deserializer builds from bytes depends on the forests that they spell only, and bytes that are
refused make it fail.

* `exists_replays`, `refused_fails`: sequences of values, by induction on the forest and on the derivation.
* `testCase_replays`, `testCase_fails`: test cases.
-/

namespace Caf

open ObjectGraph LittleEndian Run

variable {n k g : ℕ} {i : MemoryInputStream} {d b mid : List UInt8}

namespace MemoryInputStream

theorem readInt_means {size value : ℕ} (h : (Reader.int size).means d value) (hi : i.data = d ++ mid) :
    i.readInt size = (value, i.after mid) := by
  obtain ⟨_, ⟨rfl, rfl⟩, rfl⟩ := h
  rw [readInt, read_eq hi]

theorem readByte_means {value : ℕ} (h : (Reader.int 1).means d value) (hi : i.data = d ++ mid) :
    i.readByte = (UInt8.ofNat value, i.after mid) := by
  rw [readByte, readInt_means h hi]

/-- A flag is whether the byte is not zero. -/
theorem flag_means {value : ℕ} (h : (Reader.int 1).means d value) : (UInt8.ofNat value != 0) = (value != 0) := by
  obtain ⟨d, ⟨hlen, rfl⟩, rfl⟩ := h
  have hlt := ofBytes_lt d
  rw [hlen, Nat.pow_one] at hlt
  have htoNat : (UInt8.ofNat (ofBytes d)).toNat = ofBytes d := UInt8.toNat_ofNat_of_lt' hlt
  rw [Bool.eq_iff_iff, bne_iff_ne, bne_iff_ne, Ne, Ne, ← UInt8.toNat_inj, htoNat]
  rfl

/-- The bytes that are there are the low bytes of the number. -/
theorem le_readInt {size : ℕ} (hd : d.length ≤ size) (hi : i.data = d ++ mid) :
    ofBytes d ≤ (i.readInt size).1 := by
  have htake : i.data.take size = d ++ mid.take (size - d.length) := by
    rw [hi, List.take_append, List.take_of_length_le hd]
  have hread : (i.readInt size).1 = ofBytes (i.data.take size ++ (List.range (size - i.data.length)).map i.junk) := rfl
  rw [hread, htake, List.append_assoc, ofBytes_append]
  exact Nat.le_add_right _ _

end MemoryInputStream

open MemoryInputStream (readInt_means readByte_means flag_means)

/-- There are `n` slots. -/
structure DeserializationContext.HasSlots (c : DeserializationContext) (n : ℕ) : Prop where
  length : c.pool.length = n
  absent : ∀ k, n ≤ k → c.retValueIndex k = none

theorem DeserializationContext.HasSlots.setNextValue {c : DeserializationContext} (h : c.HasSlots n) (a : Addr) :
    (c.setNextValue a).HasSlots (n + 1) := by
  refine ⟨?_, fun k hk => h.absent k (by omega)⟩
  simp [DeserializationContext.setNextValue, h.length]

theorem DeserializationContext.HasSlots.setNextValueAsReturnValue {c : DeserializationContext} (h : c.HasSlots n)
    (j : ℕ) :
    (c.setNextValueAsReturnValue j).HasSlots (n + 1) := by
  refine ⟨by simp [DeserializationContext.setNextValueAsReturnValue, h.length], fun k hk => ?_⟩
  have hne : k ≠ n := by omega
  simp only [DeserializationContext.setNextValueAsReturnValue, h.length]
  rw [Function.update_of_ne hne]
  exact h.absent k (by omega)

namespace TestCaseDeserializer

variable {s : TestCaseDeserializer} {dest : Option Addr}

/-- The deserializer with another stream. -/
def withInput (s : TestCaseDeserializer) (i : MemoryInputStream) : TestCaseDeserializer := { s with input := i }

/-- The result of a run, with `i` as the stream that is left. -/
def leave {V : Type} (i : MemoryInputStream) (r : Except Error (V × TestCaseDeserializer)) :
    Except Error (V × TestCaseDeserializer) :=
  r.map fun q => (q.1, q.2.withInput i)

/-- Reading `k` values, which are pushed onto `dest` if there is such an array. -/
abbrev readValues (g : ℕ) (dest : Option Addr) (k : ℕ) (s : TestCaseDeserializer) :
    Except Error (List Addr × TestCaseDeserializer) :=
  readEach (deserializeValue g) (fun v s => { s with pool := pushDest dest v s.pool }) k s

/-- Reading a literal. -/
theorem deserializeValue_literal {kind : ValueKind} {x : Reader Literal} {l : Literal}
    (hx : literalReader? kind = some x) (hd : x.means d l) (hi : i.data = kind.toByte :: (d ++ mid)) :
    deserializeValue (g + 1) (s.withInput i) = s.give (i.after mid) (s.pool.getLiteral l) := by
  obtain ⟨h₁, h₁'⟩ := MemoryInputStream.readByte_kind hi
  simp only [deserializeValue, withInput, h₁, h₁']
  have hdata : (i.after (d ++ mid)).data = d ++ mid := rfl
  cases kind with
  | undefined =>
    cases hx
    obtain ⟨rfl, rfl⟩ := hd
    rfl
  | null =>
    cases hx
    obtain ⟨rfl, rfl⟩ := hd
    rfl
  | boolean =>
    cases hx
    obtain ⟨value, hvalue, rfl⟩ := hd
    simp only [readByte_means hvalue hdata, flag_means hvalue]
    rfl
  | string =>
    cases hx
    obtain ⟨d, len, str, rfl, hlen, bytes, ⟨hstr, hbytes⟩, rfl⟩ := hd
    subst hbytes
    subst hstr
    have hlenData : (i.after (d ++ bytes ++ mid)).data = d ++ (bytes ++ mid) := List.append_assoc _ _ _
    simp only [readInt_means hlen hlenData]
    have hrest : ((i.after (d ++ bytes ++ mid)).after (bytes ++ mid)).data = bytes ++ mid := rfl
    simp only [MemoryInputStream.readBytes_eq hrest]
    rfl
  | function =>
    cases hx
    obtain ⟨value, hvalue, rfl⟩ := hd
    simp only [readInt_means hvalue hdata]
    rfl
  | integer =>
    cases hx
    obtain ⟨value, hvalue, rfl⟩ := hd
    simp only [MemoryInputStream.readInt32, readInt_means hvalue hdata]
    rfl
  | float =>
    cases hx
    obtain ⟨value, hvalue, rfl⟩ := hd
    simp only [MemoryInputStream.readFloat, readInt_means hvalue hdata]
    rfl
  | array => cases hx
  | placeholder => cases hx

/-- What the slot `index` stands for. -/
def slotValue (s : TestCaseDeserializer) (index : ℕ) : Except Error (Addr × ObjectPool) :=
  if s.context.isReturnValueIndex index then
    (s.context.getReturnValueIndex index).map s.pool.getPlaceholderValue
  else
    (s.context.getValue index).map fun a => (a, s.pool)

theorem slotValue_fuel (s : TestCaseDeserializer) (index : ℕ) : s.slotValue index ≠ .error .outOfFuel := by
  unfold slotValue DeserializationContext.getReturnValueIndex DeserializationContext.getValue
  intro h
  split at h
  · split at h <;> cases h
  · split at h <;> cases h

/-- Reading a reference. -/
theorem deserializeValue_slot (hi : i.data = ValueKind.placeholder.toByte :: mid) :
    deserializeValue (g + 1) (s.withInput i) =
      s.slotValue ((i.after mid).readInt 4).1 >>= s.give ((i.after mid).readInt 4).2 := by
  obtain ⟨h₁, h₁'⟩ := MemoryInputStream.readByte_kind hi
  simp only [deserializeValue, withInput, h₁, h₁', slotValue]
  split
  · rcases s.context.getReturnValueIndex _ with e | a <;> rfl
  · rcases s.context.getValue _ with e | a <;> rfl

theorem deserializeValue_index {index : ℕ} (hd : (Reader.int 4).means d index)
    (hi : i.data = ValueKind.placeholder.toByte :: (d ++ mid)) :
    deserializeValue (g + 1) (s.withInput i) = s.slotValue index >>= s.give (i.after mid) := by
  rw [deserializeValue_slot hi, readInt_means hd (show (i.after (d ++ mid)).data = d ++ mid from rfl)]
  rfl

/-- The state in which the elements of a new array are read. -/
def inArray (s : TestCaseDeserializer) : TestCaseDeserializer :=
  ({ s with
    pool := s.pool.createArrayValue.2
    context := s.context.setNextValue s.pool.createArrayValue.1 } : TestCaseDeserializer).record

/-- Reading an array. -/
theorem deserializeValue_elements {size : ℕ} (hd : (Reader.int 4).means d size)
    (hi : i.data = ValueKind.array.toByte :: (d ++ mid)) :
    deserializeValue (g + 1) (s.withInput i) =
      (readValues g (some s.pool.createArrayValue.1) size (s.inArray.withInput (i.after mid))).map
        fun q => (s.pool.createArrayValue.1, q.2) := by
  obtain ⟨h₁, h₁'⟩ := MemoryInputStream.readByte_kind hi
  have hdata : (i.after (d ++ mid)).data = d ++ mid := rfl
  simp only [deserializeValue, withInput, h₁, h₁', readInt_means hd hdata]
  change (readValues g (some s.pool.createArrayValue.1) size (s.inArray.withInput (i.after mid)) >>=
    fun q => .ok (s.pool.createArrayValue.1, q.2)) =
      (readValues g (some s.pool.createArrayValue.1) size (s.inArray.withInput (i.after mid))).map _
  rcases readValues g (some s.pool.createArrayValue.1) size (s.inArray.withInput (i.after mid)) with e | q <;> rfl

/-- **What reading the forest `F` gives**, whatever the bytes are that spell it. -/
structure Replays (g : ℕ) (dest : Option Addr) (s : TestCaseDeserializer) (F : Forest Literal)
    (r : Except Error (List Addr × TestCaseDeserializer)) : Prop where
  run : ∀ {n k b i mid}, Spells n k b F → i.data = b ++ mid →
    readValues g dest k (s.withInput i) = leave (i.after mid) r
  fuel : r = .error .outOfFuel → g < F.depth
  slots : ∀ n, s.context.HasSlots n → Outcome (fun _ => True) (fun q => q.2.context.HasSlots (n + F.slots)) r

/-- After the first value. -/
def pushed (s : TestCaseDeserializer) (dest : Option Addr) (x : Addr × ObjectPool) : TestCaseDeserializer :=
  { s with pool := pushDest dest x.1 x.2 }

/-- The first value and the others. -/
theorem readValues_succ {x : Addr} {s' : TestCaseDeserializer} {r : Except Error (List Addr × TestCaseDeserializer)}
    (hx : deserializeValue g s = .ok (x, s')) (hrest : readValues g dest k (s'.pushed dest (x, s'.pool)) = leave i r) :
    readValues g dest (k + 1) s = leave i (r.map fun q => (x :: q.1, q.2)) := by
  rw [readValues, readEach_succ, hx]
  change (readValues g dest k (s'.pushed dest (x, s'.pool)) >>= fun r' => .ok (x :: r'.1, r'.2)) = _
  rw [hrest]
  rcases r with e | q <;> rfl

theorem readValues_fails {e : Error} (hx : deserializeValue g s = .error e) :
    readValues g dest (k + 1) s = .error e := by
  rw [readValues, readEach_succ, hx]
  rfl

/-- Nothing can be read without fuel. -/
theorem replays_zero {F : Forest Literal} (hF : 0 < F.depth) : Replays 0 dest s F (.error .outOfFuel) := by
  refine ⟨?_, fun _ => hF, fun n _ => trivial⟩
  intro n k b i mid h _
  cases h with
  | nil => exact absurd hF (Nat.lt_irrefl 0)
  | leaf _ _ _ => exact readValues_fails rfl
  | back _ _ => exact readValues_fails rfl
  | node _ _ _ => exact readValues_fails rfl

/-- A value without elements and then the others. -/
theorem Replays.next {F Fr : Forest Literal} {x : Addr × ObjectPool}
    {r : Except Error (List Addr × TestCaseDeserializer)}
    (hr : Replays (g + 1) dest (({ s with pool := x.2 } : TestCaseDeserializer).record.pushed dest x) Fr r)
    (hF : ∀ {n k b i mid}, Spells n k b F → i.data = b ++ mid → ∃ k' b' rest, k = k' + 1 ∧ Spells n k' b' Fr ∧
      rest = b' ++ mid ∧ deserializeValue (g + 1) (s.withInput i) = s.give (i.after rest) x)
    (hdepth : F.depth = max 1 Fr.depth) (hslots : F.slots = Fr.slots) :
    Replays (g + 1) dest s F (r.map fun q => (x.1 :: q.1, q.2)) := by
  refine ⟨?_, fun hfuel => ?_, fun n hn => ?_⟩
  · intro n k b i mid h hi
    obtain ⟨k', b', rest, rfl, hb', rfl, hread⟩ := hF h hi
    have := hr.run hb' (show (i.after (b' ++ mid)).data = b' ++ mid from rfl)
    rw [MemoryInputStream.after_after] at this
    exact readValues_succ hread this
  · have hlt := hr.fuel (by rcases r with e | q <;> cases hfuel; rfl)
    omega
  · have := hr.slots n hn
    rcases r with e | q
    · trivial
    · rw [hslots]
      exact this

/-- **What reading a forest gives** does not depend on how it is spelled. -/
theorem exists_replays (F : Forest Literal) (g : ℕ) (dest : Option Addr) (s : TestCaseDeserializer) :
    ∃ r, Replays g dest s F r := by
  induction F generalizing g dest s with
  | nil =>
    refine ⟨.ok ([], s), ?_, fun h => (by cases h), fun n hn => hn⟩
    intro n k b i mid h hi
    cases h
    rw [List.nil_append] at hi
    subst hi
    rfl
  | leaf l Fr ih =>
    cases g with
    | zero => exact ⟨_, replays_zero (by simp [Forest.depth])⟩
    | succ g =>
      obtain ⟨r, hr⟩ := ih (g + 1) dest
        (({ s with pool := (s.pool.getLiteral l).2 } : TestCaseDeserializer).record.pushed
        dest (s.pool.getLiteral l))
      refine ⟨_, hr.next ?_ rfl rfl⟩
      intro n k b i mid h hi
      cases h with
      | leaf hx hd h =>
        rw [List.cons_append, List.append_assoc] at hi
        exact ⟨_, _, _, rfl, h, rfl, deserializeValue_literal hx hd hi⟩
  | back index Fr ih =>
    cases g with
    | zero => exact ⟨_, replays_zero (by simp [Forest.depth])⟩
    | succ g =>
      rcases hvalue : s.slotValue index with e | x
      · refine ⟨.error e, ?_, fun hfuel => ?_, fun n _ => trivial⟩
        · intro n k b i mid h hi
          cases h with
          | back hd h =>
            rw [List.cons_append, List.append_assoc] at hi
            refine readValues_fails ?_
            rw [deserializeValue_index hd.1 hi, hvalue]
            rfl
        · cases hfuel
          exact absurd hvalue (slotValue_fuel s index)
      · obtain ⟨r, hr⟩ := ih (g + 1) dest (({ s with pool := x.2 } : TestCaseDeserializer).record.pushed dest x)
        refine ⟨_, hr.next ?_ rfl rfl⟩
        intro n k b i mid h hi
        cases h with
        | back hd h =>
          rw [List.cons_append, List.append_assoc] at hi
          refine ⟨_, _, _, rfl, h, rfl, ?_⟩
          rw [deserializeValue_index hd.1 hi, hvalue]
          rfl
  | node sub Fr ih₁ ih₂ =>
    cases g with
    | zero => exact ⟨_, replays_zero (by simp [Forest.depth])⟩
    | succ g =>
      obtain ⟨r₁, hr₁⟩ := ih₁ g (some s.pool.createArrayValue.1) s.inArray
      -- the array, with its elements
      have harray : ∀ {n d size b₁ i mid}, (Reader.int 4).means d size → Spells n size b₁ sub →
          i.data = ValueKind.array.toByte :: (d ++ (b₁ ++ mid)) → deserializeValue (g + 1) (s.withInput i) =
            (leave (i.after mid) r₁).map fun q => (s.pool.createArrayValue.1, q.2) := by
        intro n d size b₁ i mid hd h₁ hi
        have hrun := hr₁.run h₁ (show (i.after (b₁ ++ mid)).data = b₁ ++ mid from rfl)
        rw [MemoryInputStream.after_after] at hrun
        rw [deserializeValue_elements hd hi, hrun]
      rcases r₁ with e | ⟨vs, s₁⟩
      · refine ⟨.error e, ?_, fun hfuel => ?_, fun n _ => trivial⟩
        · intro n k b i mid h hi
          cases h with
          | node hd h₁ h =>
            rw [List.cons_append, List.append_assoc, List.append_assoc] at hi
            exact readValues_fails (harray hd h₁ hi)
        · cases hfuel
          have := hr₁.fuel rfl
          simp only [Forest.depth]
          omega
      · obtain ⟨r₂, hr₂⟩ := ih₂ (g + 1) dest (s₁.pushed dest (s.pool.createArrayValue.1, s₁.pool))
        refine ⟨r₂.map fun q => (s.pool.createArrayValue.1 :: q.1, q.2), ?_, fun hfuel => ?_, fun n hn => ?_⟩
        · intro n k b i mid h hi
          cases h with
          | node hd h₁ h =>
            rw [List.cons_append, List.append_assoc, List.append_assoc] at hi
            have hrun := hr₂.run h (show (i.after (_ ++ mid)).data = _ ++ mid from rfl)
            rw [MemoryInputStream.after_after] at hrun
            exact readValues_succ (harray hd h₁ hi) hrun
        · have hlt := hr₂.fuel (by rcases r₂ with e | q <;> cases hfuel; rfl)
          simp only [Forest.depth]
          omega
        · have h₁ := hr₁.slots (n + 1) (hn.setNextValue _)
          have h₂ := hr₂.slots _ h₁
          rcases r₂ with e | q
          · trivial
          · simpa only [Forest.slots, Outcome, Except.map, Nat.add_assoc, Nat.add_comm 1] using h₂

/-- The first value and the others. -/
theorem readValues_append (g : ℕ) (dest : Option Addr) (k : ℕ) (s : TestCaseDeserializer) :
    readValues g dest (k + 1) s = readValues g dest 1 s >>= fun q => (readValues g dest k q.2).map fun q' =>
      (q.1 ++ q'.1, q'.2) := by
  rw [readValues, readValues, readEach_succ, readEach_succ]
  rcases deserializeValue g s with e | ⟨x, s'⟩
  · rfl
  · change (readValues g dest k (s'.pushed dest (x, s'.pool)) >>= fun q => .ok (x :: q.1, q.2)) =
      (readValues g dest k (s'.pushed dest (x, s'.pool))).map fun q => (x :: q.1, q.2)
    rcases readValues g dest k (s'.pushed dest (x, s'.pool)) with e | q <;> rfl

/-- The value that is read names no slot. -/
theorem slotValue_absent {index : ℕ} (hs : s.context.HasSlots n) (h : n ≤ index) :
    s.slotValue index = .error .outOfRange := by
  have hnone : s.context.pool[index]? = none := by
    rw [List.getElem?_eq_none_iff, hs.length]
    exact h
  simp [slotValue, DeserializationContext.isReturnValueIndex, DeserializationContext.getValue, hs.absent index h,
    hnone, Except.map]

/-- **Bytes that are refused make the deserializer fail**, whatever comes after them. -/
theorem refused_fails (h : Refused n k b) : ∃ N, ∀ (g : ℕ) (dest : Option Addr) (s : TestCaseDeserializer) i mid,
    s.context.HasSlots n → i.data = b ++ mid →
      ∃ e, readValues g dest k (s.withInput i) = .error e ∧ (N ≤ g → e ≠ .outOfFuel) := by
  induction h with
  | @kind n k byte hkind =>
    refine ⟨1, fun g dest s i mid _ hi => ?_⟩
    cases g with
    | zero => exact ⟨_, readValues_fails rfl, fun h => by omega⟩
    | succ g =>
      refine ⟨.unreachable, readValues_fails ?_, fun _ => by decide⟩
      simp only [deserializeValue, withInput, MemoryInputStream.readByte_eq hi, hkind]
  | @index n k d hd =>
    refine ⟨1, fun g dest s i mid hs hi => ?_⟩
    cases g with
    | zero => exact ⟨_, readValues_fails rfl, fun h => by omega⟩
    | succ g =>
      refine ⟨.outOfRange, readValues_fails ?_, fun _ => by decide⟩
      rw [List.cons_append] at hi
      have hle := MemoryInputStream.le_readInt hd.1 (show (i.after (d ++ mid)).data = d ++ mid from rfl)
      have habsent := slotValue_absent hs (Nat.le_trans hd.2 hle)
      rw [deserializeValue_slot hi, habsent]
      rfl
  | @elements n k d size b hd _ ih =>
    obtain ⟨N, hN⟩ := ih
    refine ⟨N + 1, fun g dest s i mid hs hi => ?_⟩
    cases g with
    | zero => exact ⟨_, readValues_fails rfl, fun h => by omega⟩
    | succ g =>
      rw [List.cons_append, List.append_assoc] at hi
      obtain ⟨e, he, hfuel⟩ := hN g (some s.pool.createArrayValue.1) s.inArray (i.after (b ++ mid)) mid
        (hs.setNextValue _) rfl
      refine ⟨e, readValues_fails ?_, fun h => hfuel (by omega)⟩
      rw [deserializeValue_elements hd hi, he]
      rfl
  | @next n k b F b' hb _ ih =>
    obtain ⟨N, hN⟩ := ih
    refine ⟨max F.depth N, fun g dest s i mid hs hi => ?_⟩
    rw [List.append_assoc] at hi
    obtain ⟨r, hr⟩ := exists_replays F g dest s
    have hslots := hr.slots n hs
    rw [readValues_append, hr.run hb hi]
    rcases r with e | ⟨vs, s₁⟩
    · refine ⟨e, rfl, fun hle he => ?_⟩
      have := hr.fuel (by rw [he])
      omega
    · obtain ⟨e, he, hfuel⟩ := hN g dest s₁ (i.after (b' ++ mid)) mid hslots rfl
      refine ⟨e, ?_, fun h => hfuel (by omega)⟩
      simp only [leave, Except.map, bind, Except.bind]
      rw [he]

/-! ## Calls -/

/-- One value is read alone. -/
theorem readValues_one (g : ℕ) (s : TestCaseDeserializer) :
    readValues g none 1 s = (deserializeValue g s).map fun q => ([q.1], q.2) := by
  rw [readValues, readEach_succ]
  rcases deserializeValue g s with e | q <;> rfl

/-- The run of the deserializer on one value. -/
theorem deserializeValue_error {F : Forest Literal} {e : Error} (hr : Replays g none s F (.error e))
    (hb : Spells n 1 b F) (hi : i.data = b ++ mid) : deserializeValue g (s.withInput i) = .error e := by
  have hrun := hr.run hb hi
  rw [readValues_one] at hrun
  rcases hvalue : deserializeValue g (s.withInput i) with e' | q
  · rw [hvalue] at hrun
    cases hrun
    rfl
  · rw [hvalue] at hrun
    cases hrun

theorem deserializeValue_ok {F : Forest Literal} {vs : List Addr} {s₁ : TestCaseDeserializer}
    (hr : Replays g none s F (.ok (vs, s₁))) (hb : Spells n 1 b F) (hi : i.data = b ++ mid) :
    ∃ v, vs = [v] ∧ deserializeValue g (s.withInput i) = .ok (v, s₁.withInput (i.after mid)) := by
  have hrun := hr.run hb hi
  rw [readValues_one] at hrun
  rcases hvalue : deserializeValue g (s.withInput i) with e' | ⟨v, s'⟩
  · rw [hvalue] at hrun
    cases hrun
  · rw [hvalue] at hrun
    simp only [Except.map, leave, Except.ok.injEq, Prod.mk.injEq] at hrun
    obtain ⟨rfl, rfl⟩ := hrun
    exact ⟨v, rfl, rfl⟩

/-- **What reading the call `st` gives**, whatever the bytes are that spell it. -/
structure ReplaysCall (g : ℕ) (s : TestCaseDeserializer) (st : Step CallOp (Forest Literal))
    (r : Except Error (FunctionCall × TestCaseDeserializer)) : Prop where
  run : ∀ {n b i mid}, (callReader n).means b st → i.data = b ++ mid →
    deserializeFunctionCall g (s.withInput i) = leave (i.after mid) r
  fuel : r = .error .outOfFuel → g < max st.head.depth st.args.depth
  slots : ∀ n, s.context.HasSlots n →
    Outcome (fun _ => True) (fun q => q.2.context.HasSlots (n + st.head.slots + st.args.slots)) r

/-- The run up to the arguments. -/
theorem deserializeFunctionCall_this (mid : List UInt8) {funcId isCtor argsCount v : ℕ}
    {d' d'' bytes bytes' : List UInt8}
    {s₁ : TestCaseDeserializer} (hid : (Reader.int 4).means d funcId) (hi : i.data = d ++ bytes)
    (hthis : deserializeValue g (s.withInput (i.after bytes)) = .ok (v, s₁.withInput (i.after bytes')))
    (hctor : (Reader.int 1).means d' isCtor) (hcount : (Reader.int 4).means d'' argsCount)
    (hbytes : bytes' = d' ++ (d'' ++ mid)) :
    deserializeFunctionCall g (s.withInput i) =
      (readValues g none argsCount (s₁.withInput (i.after mid))).map fun q =>
        (⟨UInt32.ofNat funcId, some v, isCtor != 0, q.1⟩, q.2) := by
  subst hbytes
  have h₁ := readInt_means hid hi
  have h₂ := readByte_means hctor (show (i.after (d' ++ (d'' ++ mid))).data = d' ++ (d'' ++ mid) from rfl)
  have h₃ := readInt_means hcount (show (i.after (d'' ++ mid)).data = d'' ++ mid from rfl)
  rw [MemoryInputStream.after_after] at h₂ h₃
  have hthis : deserializeValue g { s.withInput i with input := i.after (bytes) } = _ := hthis
  simp only [deserializeFunctionCall, withInput, h₁] at hthis ⊢
  simp only [hthis, bind, Except.bind, h₂, h₃, flag_means hctor]
  change (readValues g none argsCount (s₁.withInput (i.after mid)) >>= fun q =>
    .ok (FunctionCall.mk (UInt32.ofNat funcId) (some v) (isCtor != 0) q.1, q.2)) =
      (readValues g none argsCount (s₁.withInput (i.after mid))).map fun q =>
        (FunctionCall.mk (UInt32.ofNat funcId) (some v) (isCtor != 0) q.1, q.2)
  rcases readValues g none argsCount (s₁.withInput (i.after mid)) with e | q <;> rfl

theorem deserializeFunctionCall_error {funcId : ℕ} {bytes : List UInt8} {e : Error}
    (hid : (Reader.int 4).means d funcId) (hi : i.data = d ++ bytes)
    (hthis : deserializeValue g (s.withInput (i.after bytes)) = .error e) :
    deserializeFunctionCall g (s.withInput i) = .error e := by
  have h₁ := readInt_means hid hi
  simp only [withInput] at hthis
  simp only [deserializeFunctionCall, withInput, h₁, hthis]
  rfl

theorem exists_replaysCall (g : ℕ) (s : TestCaseDeserializer) (st : Step CallOp (Forest Literal)) :
    ∃ r, ReplaysCall g s st r := by
  obtain ⟨r₁, hr₁⟩ := exists_replays st.head g none s
  rcases r₁ with e | ⟨vs, s₁⟩
  · refine ⟨.error e, ?_, fun hfuel => ?_, fun n _ => trivial⟩
    · rintro n b i mid ⟨d, funcId, _, rfl, hid, b₁, head, _, rfl, hhead, d', isCtor, _, rfl, hctor, d'', argsCount, b₂, rfl,
        hcount, args, hargs, rfl⟩ hi
      rw [List.append_assoc] at hi
      refine deserializeFunctionCall_error hid hi ?_
      exact deserializeValue_error hr₁ hhead (List.append_assoc _ _ _)
    · cases hfuel
      have := hr₁.fuel rfl
      omega
  · obtain ⟨r₂, hr₂⟩ := exists_replays st.args g none s₁
    refine ⟨r₂.map fun q => (⟨st.op.1, vs.head?, st.op.2, q.1⟩, q.2), ?_, fun hfuel => ?_, fun n hn => ?_⟩
    · rintro n b i mid ⟨d, funcId, _, rfl, hid, b₁, head, _, rfl, hhead, d', isCtor, _, rfl, hctor, d'', argsCount, b₂, rfl,
        hcount, args, hargs, rfl⟩ hi
      rw [List.append_assoc] at hi
      obtain ⟨v, rfl, hthis⟩ := deserializeValue_ok hr₁ hhead (i := i.after _) (List.append_assoc _ _ _)
      rw [MemoryInputStream.after_after] at hthis
      rw [deserializeFunctionCall_this (b₂ ++ mid) hid hi hthis hctor hcount (by simp)]
      have hrun := hr₂.run hargs (show (i.after (b₂ ++ mid)).data = b₂ ++ mid from rfl)
      rw [hrun, MemoryInputStream.after_after]
      rcases r₂ with e | q <;> rfl
    · have hlt := hr₂.fuel (by rcases r₂ with e | q <;> cases hfuel; rfl)
      omega
    · have h₂ := hr₂.slots _ (hr₁.slots n hn)
      rcases r₂ with e | q
      · trivial
      · exact h₂

/-- A call that is refused. -/
theorem call_fails (h : (callReader n).refuses b) : ∃ N, ∀ (g : ℕ) (s : TestCaseDeserializer) i mid,
    s.context.HasSlots n → i.data = b ++ mid →
      ∃ e, deserializeFunctionCall g (s.withInput i) = .error e ∧ (N ≤ g → e ≠ .outOfFuel) := by
  obtain hno | ⟨d, funcId, b₁, rfl, hid, hrefused | ⟨b₁, head, _, rfl, hhead, hno | ⟨d', isCtor, _, rfl, hctor,
    hno | ⟨d'', argsCount, b₂, rfl, hcount, hrefused⟩⟩⟩⟩ := h
  · exact absurd hno Reader.int_accepts
  · -- in the receiver
    obtain ⟨N, hN⟩ := refused_fails hrefused
    refine ⟨N, fun g s i mid hs hi => ?_⟩
    rw [List.append_assoc] at hi
    obtain ⟨e, he, hfuel⟩ := hN g none s (i.after (b₁ ++ mid)) mid hs rfl
    refine ⟨e, deserializeFunctionCall_error hid hi ?_, hfuel⟩
    rw [readValues_one] at he
    rcases hvalue : deserializeValue g (s.withInput (i.after (b₁ ++ mid))) with e' | q
    · rw [hvalue] at he
      cases he
      rfl
    · rw [hvalue] at he
      cases he
  · exact absurd hno Reader.int_accepts
  · exact absurd hno Reader.int_accepts
  · -- in the arguments
    obtain ⟨N, hN⟩ := refused_fails hrefused
    refine ⟨max head.depth N, fun g s i mid hs hi => ?_⟩
    rw [List.append_assoc] at hi
    obtain ⟨r, hr⟩ := exists_replays head g none s
    have hslots := hr.slots n hs
    rcases r with e | ⟨vs, s₁⟩
    · refine ⟨e, deserializeFunctionCall_error hid hi ?_, fun hle he => ?_⟩
      · exact deserializeValue_error hr hhead (List.append_assoc _ _ _)
      · have := hr.fuel (by rw [he])
        omega
    · obtain ⟨v, rfl, hthis⟩ := deserializeValue_ok hr hhead (i := i.after _) (List.append_assoc _ _ _)
      rw [MemoryInputStream.after_after] at hthis
      obtain ⟨e, he, hfuel⟩ := hN g none s₁ (i.after (b₂ ++ mid)) mid hslots rfl
      refine ⟨e, ?_, fun h => hfuel (by omega)⟩
      rw [deserializeFunctionCall_this (b₂ ++ mid) hid hi hthis hctor hcount (by simp), he]
      rfl

/-- After a call. -/
def called (s : TestCaseDeserializer) (j : ℕ) : TestCaseDeserializer :=
  ({ s with context := s.context.setNextValueAsReturnValue j } : TestCaseDeserializer).record

theorem deserializeCalls_succ (g k j : ℕ) (s : TestCaseDeserializer) : deserializeCalls g (k + 1) j s =
    deserializeFunctionCall g s >>= fun q => (deserializeCalls g k (j + 1) (q.2.called j)).map fun q' =>
      (q.1 :: q'.1, q'.2) := by
  rw [deserializeCalls]
  rcases deserializeFunctionCall g s with e | ⟨call, s'⟩
  · rfl
  · change (deserializeCalls g k (j + 1) (s'.called j) >>= fun q => .ok (call :: q.1, q.2)) =
      (deserializeCalls g k (j + 1) (s'.called j)).map fun q => (call :: q.1, q.2)
    rcases deserializeCalls g k (j + 1) (s'.called j) with e | q <;> rfl

/-- **What reading calls gives** does not depend on how they are spelled. -/
theorem exists_replaysCalls (g : ℕ) (Fs : List (Step CallOp (Forest Literal))) (j : ℕ) (s : TestCaseDeserializer) :
    ∃ r, ∀ {n k b i mid}, (callsReader n k).means b Fs → i.data = b ++ mid →
      deserializeCalls g k j (s.withInput i) = leave (i.after mid) r := by
  induction Fs generalizing j s with
  | nil =>
    refine ⟨.ok ([], s), ?_⟩
    intro n k b i mid h hi
    have hk := length_calls h
    cases k with
    | zero =>
      obtain ⟨rfl, -⟩ := h
      rw [List.nil_append] at hi
      subst hi
      rfl
    | succ k => cases hk
  | cons st Fs ih =>
    obtain ⟨r₁, hr₁⟩ := exists_replaysCall g s st
    rcases r₁ with e | ⟨call, s₁⟩
    · refine ⟨.error e, ?_⟩
      intro n k b i mid h hi
      cases k with
      | zero => cases h.2
      | succ k =>
        obtain ⟨b₁, st', b₂, rfl, h₁, Fs', h₂, heq⟩ := h
        cases heq
        rw [List.append_assoc] at hi
        rw [deserializeCalls_succ, hr₁.run h₁ hi]
        rfl
    · obtain ⟨r₂, hr₂⟩ := ih (j + 1) (s₁.called j)
      refine ⟨r₂.map fun q => (call :: q.1, q.2), ?_⟩
      intro n k b i mid h hi
      cases k with
      | zero => cases h.2
      | succ k =>
        obtain ⟨b₁, st', b₂, rfl, h₁, Fs', h₂, heq⟩ := h
        cases heq
        rw [List.append_assoc] at hi
        have hrest := hr₂ h₂ (show (i.after (b₂ ++ mid)).data = b₂ ++ mid from rfl)
        rw [MemoryInputStream.after_after] at hrest
        rw [deserializeCalls_succ, hr₁.run h₁ hi]
        change (deserializeCalls g k (j + 1) ((s₁.called j).withInput (i.after (b₂ ++ mid)))).map _ = _
        rw [hrest]
        rcases r₂ with e | q <;> rfl

/-- Calls that are refused. -/
theorem calls_fail (h : (callsReader n k).refuses b) : ∃ N, ∀ (g j : ℕ) (s : TestCaseDeserializer) i mid,
    s.context.HasSlots n → i.data = b ++ mid →
      ∃ e, deserializeCalls g k j (s.withInput i) = .error e ∧ (N ≤ g → e ≠ .outOfFuel) := by
  induction k generalizing n b with
  | zero => cases h
  | succ k ih =>
    rcases h with h | ⟨b₁, st, b₂, rfl, hst, h⟩
    · obtain ⟨N, hN⟩ := call_fails h
      refine ⟨N, fun g j s i mid hs hi => ?_⟩
      obtain ⟨e, he, hfuel⟩ := hN g s i mid hs hi
      refine ⟨e, ?_, hfuel⟩
      rw [deserializeCalls_succ, he]
      rfl
    · obtain ⟨N, hN⟩ := ih h
      refine ⟨max (max st.head.depth st.args.depth) N, fun g j s i mid hs hi => ?_⟩
      rw [List.append_assoc] at hi
      obtain ⟨r, hr⟩ := exists_replaysCall g s st
      have hslots := hr.slots n hs
      rw [deserializeCalls_succ, hr.run hst hi]
      rcases r with e | ⟨call, s₁⟩
      · refine ⟨e, rfl, fun hle he => ?_⟩
        have := hr.fuel (by rw [he])
        omega
      · have hnext : (s₁.called j).context.HasSlots (n + st.head.slots + st.args.slots + 1) :=
          DeserializationContext.HasSlots.setNextValueAsReturnValue hslots j
        rw [show n + st.head.slots + st.args.slots + 1 = n + st.slots by rw [Step.slots]; omega] at hnext
        obtain ⟨e, he, hfuel⟩ := hN g (j + 1) (s₁.called j) (i.after (b₂ ++ mid)) mid hnext rfl
        refine ⟨e, ?_, fun h => hfuel (by omega)⟩
        change (deserializeCalls g k (j + 1) ((s₁.called j).withInput (i.after (b₂ ++ mid)))).map _ = _
        rw [he]
        rfl

/-! ## Test cases -/

theorem deserialize_calls {root callsCount : ℕ} {d' : List UInt8} {pool : ObjectPool}
    (hroot : (Reader.int 4).means d root) (hcount : (Reader.int 4).means d' callsCount)
    (hi : i.data = d ++ (d' ++ mid)) : deserialize g (new i pool) =
      (deserializeCalls g callsCount 0 ((new i pool).withInput (i.after mid))).map fun q => (⟨root, q.1⟩, q.2) := by
  have h₁ := readInt_means hroot hi
  have h₂ := readInt_means hcount (show (i.after (d' ++ mid)).data = d' ++ mid from rfl)
  rw [MemoryInputStream.after_after] at h₂
  simp only [deserialize, new, h₁, h₂]
  change (deserializeCalls g callsCount 0 ((new i pool).withInput (i.after mid)) >>= fun q =>
    .ok (TestCase.mk root q.1, q.2)) =
      (deserializeCalls g callsCount 0 ((new i pool).withInput (i.after mid))).map fun q => (TestCase.mk root q.1, q.2)
  rcases deserializeCalls g callsCount 0 ((new i pool).withInput (i.after mid)) with e | q <;> rfl

/-- **What reading a test case gives** does not depend on how it is spelled, nor on what comes after it. -/
theorem exists_replaysTestCase (g : ℕ) (pool : ObjectPool) (root : ℕ) (Fs : List (Step CallOp (Forest Literal))) :
    ∃ r, ∀ {b i mid}, testCaseReader.means b (root, Fs) → i.data = b ++ mid →
      deserialize g (new i pool) = leave (i.after mid) r := by
  obtain ⟨r, hr⟩ := exists_replaysCalls g Fs 0 (new ⟨[], fun _ => 0⟩ pool)
  refine ⟨r.map fun q => (⟨root, q.1⟩, q.2), ?_⟩
  rintro b i mid ⟨d, root', _, rfl, hroot, d', callsCount, b₁, rfl, hcount, Fs', hFs, heq⟩ hi
  cases heq
  rw [List.append_assoc, List.append_assoc] at hi
  have hrun := hr hFs (show (i.after (b₁ ++ mid)).data = b₁ ++ mid from rfl)
  rw [MemoryInputStream.after_after] at hrun
  rw [deserialize_calls hroot hcount hi]
  change (deserializeCalls g callsCount 0 ((new ⟨[], fun _ => 0⟩ pool).withInput (i.after (b₁ ++ mid)))).map _ = _
  rw [hrun]
  rcases r with e | q <;> rfl

/-- **Bytes that are refused make the deserializer fail.** -/
theorem testCase_fails (h : testCaseReader.refuses b) : ∃ N, ∀ (g : ℕ) (pool : ObjectPool) i mid, i.data = b ++ mid →
    ∃ e, deserialize g (new i pool) = .error e ∧ (N ≤ g → e ≠ .outOfFuel) := by
  obtain hno | ⟨d, root, _, rfl, hroot, hno | ⟨d', callsCount, b₁, rfl, hcount, hrefused⟩⟩ := h
  · exact absurd hno Reader.int_accepts
  · exact absurd hno Reader.int_accepts
  obtain ⟨N, hN⟩ := calls_fail hrefused
  refine ⟨N, fun g pool i mid hi => ?_⟩
  rw [List.append_assoc, List.append_assoc] at hi
  have hslots : (new i pool).context.HasSlots 0 := ⟨rfl, fun _ _ => rfl⟩
  obtain ⟨e, he, hfuel⟩ := hN g 0 (new i pool) (i.after (b₁ ++ mid)) mid hslots rfl
  refine ⟨e, ?_, hfuel⟩
  rw [deserialize_calls hroot hcount hi, he]
  rfl

end TestCaseDeserializer

end Caf
