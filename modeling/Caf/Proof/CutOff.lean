import Mathlib.Tactic.IntervalCases
import Caf.Spec.Decided

/-!
# Test cases that are cut off

Any bytes either decide what a test case looks like, or can be completed to two test cases that look
different, or to one and to none. A cut-off field is completed with two highest bytes; what comes after it
is completed with zeros, which is to say with Undefined values.

* `literal_settled`: the fields of a literal.
* `values_settled`: sequences of values, by induction on the bytes.
* `testCase_settled`: test cases.
-/

namespace Caf

open ObjectGraph LittleEndian

variable {data : List UInt8} {n k : ℕ}

theorem ValueKind.toByte_of_ofByte? {byte : UInt8} {kind : ValueKind} (h : ofByte? byte = some kind) :
    kind.toByte = byte := by
  have hlt : byte.toNat < 9 := (List.getElem?_eq_some_iff.1 h).1
  rw [← UInt8.ofNat_toNat (x := byte)]
  unfold ofByte? at h
  generalize byte.toNat = m at h hlt
  interval_cases m <;> cases h <;> rfl

/-- The highest byte of a 32-bit number makes a difference. -/
theorem ofNat_ne {low : ℕ} (h : low < 256 ^ 3) : UInt32.ofNat (low + 256 ^ 3) ≠ UInt32.ofNat low := by
  intro heq
  have := congrArg UInt32.toNat heq
  rw [UInt32.toNat_ofNat_of_lt' (by simp only [UInt32.size]; omega),
    UInt32.toNat_ofNat_of_lt' (by simp only [UInt32.size]; omega)] at this
  omega

/-- A float with small exponent looks like no other. -/
theorem blurred_small {n : ℕ} (h : n < 2 ^ 57) :
    (Literal.float (UInt64.ofNat n)).blurred = .float (UInt64.ofNat n) := by
  have hmagnitude : Double.magnitude (UInt64.ofNat n) = n := by
    rw [Double.magnitude, UInt64.toNat_ofNat_of_lt' (by simp only [UInt64.size]; omega)]
    exact Nat.mod_eq_of_lt (by omega)
  have hn : Double.isNaN (UInt64.ofNat n) = false := by
    rw [Double.isNaN, hmagnitude, decide_eq_false_iff_not]
    omega
  have hi : Double.isInf (UInt64.ofNat n) = false := by
    rw [Double.isInf, hmagnitude, beq_eq_false_iff_ne]
    omega
  simp [Literal.blurred, hn, hi]

/-- A literal looks like any other that the pool may represent by the same object. -/
theorem literal_settled {kind : ValueKind} {x : Reader Literal} (hx : literalReader? kind = some x) :
    x.Settled Literal.blurred data := by
  cases kind with
  | undefined => cases hx; exact .pure
  | null => cases hx; exact .pure
  | boolean =>
    cases hx
    refine .map (.int fun low hlow => ?_)
    have : low = 0 := by simpa using hlow
    subst this
    decide
  | string =>
    cases hx
    refine Reader.Settled.bind id (.int fun low _ => ?_) (fun d len rest _ _ => .map (.field fun d _ => ?_))
      (fun d len _ => ⟨List.replicate len 0, _, _, ⟨List.length_replicate, rfl⟩, rfl⟩) ?_
    · simp
    · simp [Literal.blurred]
    · rintro len len' e e' b b' ⟨s, ⟨hs, rfl⟩, rfl⟩ ⟨s', ⟨hs', rfl⟩, rfl⟩ heq
      simp only [Literal.blurred, Literal.string.injEq] at heq
      rw [id, id, ← hs, ← hs', heq]
  | function =>
    cases hx
    refine .map (.int fun low hlow heq => ofNat_ne hlow ?_)
    exact Literal.function.inj heq
  | integer =>
    cases hx
    refine .map (.int fun low hlow heq => ofNat_ne hlow ?_)
    simp only [Literal.blurred, Literal.integer.injEq] at heq
    have := congrArg Int32.toUInt32 heq
    rwa [UInt32.toUInt32_toInt32, UInt32.toUInt32_toInt32] at this
  | float =>
    cases hx
    refine .map (.int fun low hlow heq => ?_)
    rw [blurred_small (by omega), blurred_small (by omega), Literal.float.injEq] at heq
    have := congrArg UInt64.toNat heq
    rw [UInt64.toNat_ofNat_of_lt' (by simp only [UInt64.size]; omega),
      UInt64.toNat_ofNat_of_lt' (by simp only [UInt64.size]; omega)] at this
    omega
  | array => cases hx
  | placeholder => cases hx

/-- No literal is refused. -/
theorem literal_accepts {kind : ValueKind} {x : Reader Literal} (hx : literalReader? kind = some x)
    (d : List UInt8) : ¬ x.refuses d := by
  cases kind with
  | string =>
    cases hx
    rintro (h | ⟨_, _, _, _, _, h⟩)
    · exact h
    · exact h
  | _ => cases hx <;> exact id

/-- A reference to a slot. -/
theorem index_settled : (indexReader n).Settled id data := by
  rcases Nat.lt_or_ge data.length 4 with hlt | hge
  · rcases Nat.lt_or_ge (ofBytes data) n with hn | hn
    · have hlen : (data ++ List.replicate (4 - data.length - 1) 0).length = 3 := by
        rw [List.length_append, List.length_replicate]
        omega
      have hzeros : ∀ m, ofBytes (List.replicate m 0) = 0 := by
        intro m
        induction m with
        | zero => rfl
        | succ m ih => rw [List.replicate_succ, ofBytes, ih]; rfl
      have hvalue : ∀ byte, ofBytes (data ++ (List.replicate (4 - data.length - 1) 0 ++ [byte])) =
          ofBytes data + 256 ^ 3 * byte.toNat := by
        intro byte
        rw [← List.append_assoc, ofBytes_append, hlen, ofBytes_append, hzeros]
        simp [ofBytes]
      have hfour : ∀ byte, (data ++ (List.replicate (4 - data.length - 1) 0 ++ [byte])).length = 4 := by
        intro byte
        rw [← List.append_assoc, List.length_append, hlen]
        rfl
      have hmeans : ∀ byte, ofBytes data + 256 ^ 3 * byte.toNat < n → (indexReader n).means
          (data ++ (List.replicate (4 - data.length - 1) 0 ++ [byte])) (ofBytes data + 256 ^ 3 * byte.toNat) :=
        fun byte hbyte => ⟨⟨_, ⟨hfour byte, rfl⟩, (hvalue byte).symm⟩, hbyte⟩
      refine .inr ⟨_, _, hmeans 0 hn, List.replicate (4 - data.length - 1) 0 ++ [1], ?_⟩
      rcases Nat.lt_or_ge (ofBytes data + 256 ^ 3 * (1 : UInt8).toNat) n with hn' | hn'
      · exact .inr ⟨_, hmeans 1 hn', by simp⟩
      · exact .inl ⟨(hfour 1).le, (hvalue 1).symm ▸ hn'⟩
    · exact .inl ⟨data, [], (List.append_nil _).symm, .inr ⟨hlt.le, hn⟩⟩
  · have hfour : (data.take 4).length = 4 := by
      rw [List.length_take]
      omega
    refine .inl ⟨data.take 4, data.drop 4, (List.take_append_drop _ _).symm, ?_⟩
    rcases Nat.lt_or_ge (ofBytes (data.take 4)) n with hn | hn
    · exact .inl ⟨_, ⟨_, ⟨hfour, rfl⟩, rfl⟩, hn⟩
    · exact .inr ⟨hfour.le, hn⟩

/-- Any number of values can be written. -/
theorem exists_spells (n k : ℕ) : ∃ b F, Spells n k b F := by
  induction k with
  | zero => exact ⟨[], .nil, .nil⟩
  | succ k ih =>
    obtain ⟨b, F, h⟩ := ih
    exact ⟨_, _, .leaf (show literalReader? .undefined = some _ from rfl) ⟨rfl, rfl⟩ h⟩

/-- The forest has as many values as were asked for. -/
theorem Spells.length {b : List UInt8} {F : Forest Literal} (h : Spells n k b F) : F.length = k := by
  induction h with
  | nil => rfl
  | leaf _ _ _ ih => rw [Forest.length, ih]
  | back _ _ ih => rw [Forest.length, ih]
  | node _ _ _ _ ih => rw [Forest.length, ih]

/-- How a forest looks. -/
abbrev looks (F : Forest Literal) : Forest Literal := F.map Literal.blurred

/-- **One value and then the others.** The value's bytes are its kind and what the reader `x` reads; `m` is the
number of slots after it. -/
theorem next_settled {α γ : Type*} {byte : UInt8} {x : Reader α} {look : α → γ}
    {g : α → Forest Literal → Forest Literal}
    {m : α → ℕ} (hx : x.Settled look data)
    (hrest : ∀ d a rest, data = d ++ rest → x.means d a → (valuesReader (m a) k).Settled looks rest)
    (hspells : ∀ k d a b F, x.means d a → Spells (m a) k b F → Spells n (k + 1) (byte :: (d ++ b)) (g a F))
    (hrefused : ∀ d, x.refuses d → Refused n (k + 1) (byte :: d)) (hslots : ∀ a, m a = n + (g a .nil).slots)
    (hlook : ∀ a a' F F', looks (g a F) = looks (g a' F') → look a = look a' ∧ looks F = looks F') :
    (valuesReader n (k + 1)).Settled looks (byte :: data) := by
  have hsettled : (x.bind fun a => (valuesReader (m a) k).map (g a)).Settled looks data := by
    refine hx.bind _ (fun d a rest hdata ha => ?_) (fun d a _ => ?_) ?_
    · exact .map ((hrest d a rest hdata ha).closer fun F F' h => (hlook a a F F' h).2)
    · obtain ⟨b, F, h⟩ := exists_spells (m a) k
      exact ⟨b, g a F, F, h, rfl⟩
    · rintro a a' _ _ _ _ ⟨F, _, rfl⟩ ⟨F', _, rfl⟩ h
      exact (hlook a a' F F' h).1
  refine hsettled.cons ?_ ?_
  · rintro _ _ ⟨d, a, b, rfl, ha, F, hF, rfl⟩
    exact hspells k d a b F ha hF
  · rintro _ (hd | ⟨d, a, b, rfl, ha, hb⟩)
    · exact hrefused _ hd
    · have hone := hspells 0 d a [] .nil ha .nil
      have hb : Refused (n + (g a .nil).slots) k b := hslots a ▸ hb
      have := Refused.next hone hb
      rwa [List.append_nil] at this

/-- The elements of an array. -/
theorem elements_settled (hrest : ∀ d rest size, data = d ++ rest → (valuesReader (n + 1) size).Settled looks rest) :
    ((Reader.int 4).bind fun size => valuesReader (n + 1) size).Settled looks data := by
  refine .bind id (.int fun low _ => by simp) (fun d size rest hdata _ => hrest d rest size hdata)
    (fun d size _ => exists_spells (n + 1) size) ?_
  intro size size' _ _ sub sub' h h' heq
  have hlength := congrArg Forest.length heq
  rwa [Forest.length_map, Forest.length_map, Spells.length h, Spells.length h'] at hlength

/-- **Sequences of values.** -/
theorem values_settled (n k : ℕ) (data : List UInt8) : (valuesReader n k).Settled looks data := by
  induction hm : data.length using Nat.strongRecOn generalizing n k data with
  | _ m ih =>
  cases k with
  | zero => exact .inl ⟨[], data, rfl, .inl ⟨.nil, .nil⟩⟩
  | succ k =>
  cases data with
  | nil =>
    -- the kind of the next value is missing
    obtain ⟨b, F, h⟩ := exists_spells n k
    refine .inr ⟨_, _, .leaf (show literalReader? .undefined = some _ from rfl) ⟨rfl, rfl⟩ h, _, .inr
      ⟨_, .leaf (show literalReader? .null = some _ from rfl) ⟨rfl, rfl⟩ h, ?_⟩⟩
    simp [looks, Forest.map, Literal.blurred]
  | cons byte data =>
  have hrest : ∀ d rest n k, data = d ++ rest → (valuesReader n k).Settled looks rest := by
    rintro d rest n k rfl
    refine ih rest.length ?_ n k rest rfl
    rw [← hm, List.length_cons, List.length_append]
    omega
  rcases hkind : ValueKind.ofByte? byte with - | kind
  · exact .inl ⟨[byte], data, rfl, .inr (.kind hkind)⟩
  obtain rfl := ValueKind.toByte_of_ofByte? hkind
  rcases hliteral : literalReader? kind with - | x
  · cases kind with
    | array =>
      refine next_settled (elements_settled fun d rest size hdata => hrest d rest (n + 1) size hdata)
        (m := fun sub => n + 1 + sub.slots) (g := .node) (fun d sub rest hdata _ => hrest d rest _ k hdata) ?_ ?_ ?_ ?_
      · rintro k _ sub b F ⟨d, size, b₁, rfl, hd, h₁⟩ hF
        rw [List.append_assoc]
        exact .node hd h₁ hF
      · rintro _ (⟨⟨⟩⟩ | ⟨d, size, b, rfl, hd, h⟩)
        exact .elements hd h
      · intro sub
        simp only [Forest.slots]
        omega
      · intro sub sub' F F' h
        simpa [looks, Forest.map] using h
    | placeholder =>
      refine next_settled index_settled (m := fun _ => n) (g := .back) (fun d _ rest hdata _ => hrest d rest n k hdata)
        (fun _ _ _ _ _ hd hF => .back hd hF) (fun _ hd => .index hd) (fun _ => rfl) ?_
      intro index index' F F' h
      simpa [looks, Forest.map] using h
    | _ => cases hliteral
  · refine next_settled (literal_settled hliteral) (m := fun _ => n) (g := .leaf)
      (fun d _ rest hdata _ => hrest d rest n k hdata) (fun _ _ _ _ _ hd hF => .leaf hliteral hd hF)
      (fun d hd => absurd hd (literal_accepts hliteral d)) (fun _ => rfl) ?_
    intro l l' F F' h
    simpa [looks, Forest.map] using h

/-! ## Calls -/

/-- How a call looks. -/
abbrev stepLooks (st : Step CallOp (Forest Literal)) : Step CallOp (Forest Literal) := st.map looks

theorem exists_call (n : ℕ) : ∃ b st, (callReader n).means b st := by
  obtain ⟨b, head, h⟩ := exists_spells n 1
  obtain ⟨b', args, h'⟩ := exists_spells (n + head.slots) 0
  exact ⟨_, _, _, 0, _, rfl, Reader.means_int (by decide), b, head, _, rfl, h, _, 0, _, rfl,
    Reader.means_int (by decide), _, 0, b', rfl, Reader.means_int (by decide), args, h', rfl⟩

theorem exists_calls (n k : ℕ) : ∃ b Fs, (callsReader n k).means b Fs := by
  induction k generalizing n with
  | zero => exact ⟨[], [], rfl, rfl⟩
  | succ k ih =>
    obtain ⟨b, st, h⟩ := exists_call n
    obtain ⟨b', Fs, h'⟩ := ih (n + st.slots)
    exact ⟨_, _, b, st, b', rfl, h, Fs, h', rfl⟩

theorem length_calls {b : List UInt8} {Fs : List (Step CallOp (Forest Literal))} (h : (callsReader n k).means b Fs) :
    Fs.length = k := by
  induction k generalizing n b Fs with
  | zero => rw [h.2]; rfl
  | succ k ih =>
    obtain ⟨_, st, _, _, _, Fs, h, rfl⟩ := h
    rw [List.length_cons, ih h]

/-- The constructor flag, the arguments and their number. -/
theorem args_settled {op : ℕ} {head : Forest Literal} :
    ((Reader.int 1).bind fun isCtor => (Reader.int 4).bind fun argsCount =>
    (valuesReader n argsCount).map fun args => (⟨(UInt32.ofNat op, isCtor != 0), head, args⟩ : Step CallOp _)).Settled
      stepLooks data := by
  refine .bind (fun isCtor => isCtor != 0) (.int fun low hlow => ?_) (fun _ isCtor rest _ _ => ?_) ?_ ?_
  · have : low = 0 := by simpa using hlow
    subst this
    decide
  · refine .bind id (.int fun low _ => by simp) (fun _ argsCount rest _ _ => ?_) (fun _ argsCount _ => ?_) ?_
    · refine .map ((values_settled n argsCount rest).closer fun F F' h => ?_)
      exact congrArg Step.args h
    · obtain ⟨b, F, h⟩ := exists_spells n argsCount
      exact ⟨b, _, F, h, rfl⟩
    · rintro argsCount argsCount' _ _ _ _ ⟨F, h, rfl⟩ ⟨F', h', rfl⟩ heq
      have hlength := congrArg (fun st => st.args.length) heq
      simpa [Step.map, Spells.length h, Spells.length h'] using hlength
  · intro _ isCtor _
    obtain ⟨b, F, h⟩ := exists_spells n 0
    exact ⟨_, _, _, 0, b, rfl, Reader.means_int (by decide), F, h, rfl⟩
  · rintro isCtor isCtor' _ _ _ _ ⟨_, _, _, _, _, F, _, rfl⟩ ⟨_, _, _, _, _, F', _, rfl⟩ heq
    exact congrArg (fun st => st.op.2) heq

theorem call_settled (n : ℕ) (data : List UInt8) : (callReader n).Settled stepLooks data := by
  refine .bind UInt32.ofNat (.int fun low hlow => ofNat_ne hlow) (fun _ funcId rest _ _ => ?_) ?_ ?_
  · refine .bind _ (values_settled n 1 rest) (fun _ head rest' _ _ => args_settled) (fun _ head _ => ?_) ?_
    · obtain ⟨b, F, h⟩ := exists_spells (n + head.slots) 0
      exact ⟨_, _, _, 0, _, rfl, Reader.means_int (by decide), _, 0, b, rfl, Reader.means_int (by decide), F, h, rfl⟩
    · rintro head head' _ _ _ _ ⟨_, _, _, _, _, _, _, _, _, _, F, _, rfl⟩ ⟨_, _, _, _, _, _, _, _, _, _, F', _, rfl⟩ heq
      exact congrArg Step.head heq
  · intro _ funcId _
    obtain ⟨b, head, h⟩ := exists_spells n 1
    obtain ⟨b', F, h'⟩ := exists_spells (n + head.slots) 0
    exact ⟨_, _, b, head, _, rfl, h, _, 0, _, rfl, Reader.means_int (by decide), _, 0, b', rfl,
      Reader.means_int (by decide), F, h', rfl⟩
  · rintro funcId funcId' _ _ _ _ ⟨_, _, _, _, _, _, _, _, _, _, _, _, _, _, _, F, _, rfl⟩
      ⟨_, _, _, _, _, _, _, _, _, _, _, _, _, _, _, F', _, rfl⟩ heq
    exact congrArg (fun st => st.op.1) heq

theorem calls_settled (n k : ℕ) (data : List UInt8) :
    (callsReader n k).Settled (List.map stepLooks) data := by
  induction k generalizing n data with
  | zero => exact .pure
  | succ k ih =>
    refine .bind _ (call_settled n data) (fun _ st rest _ _ => ?_) (fun _ st _ => ?_) ?_
    · exact .map ((ih (n + st.slots) rest).closer fun Fs Fs' h => (List.cons.inj h).2)
    · obtain ⟨b, Fs, h⟩ := exists_calls (n + st.slots) k
      exact ⟨b, _, Fs, h, rfl⟩
    · rintro st st' _ _ _ _ ⟨Fs, _, rfl⟩ ⟨Fs', _, rfl⟩ heq
      exact (List.cons.inj heq).1

/-- **Test cases.** The bytes decide, or they can be completed in two ways that make a difference. -/
theorem testCase_settled (data : List UInt8) :
    testCaseReader.Settled (fun r => (r.1, r.2.map stepLooks)) data := by
  refine .bind id (.int fun low _ => by simp) (fun _ root rest _ _ => ?_) ?_ ?_
  · refine .bind id (.int fun low _ => by simp) (fun _ callsCount rest' _ _ => ?_)
      (fun _ callsCount _ => ?_) ?_
    · exact .map ((calls_settled 0 callsCount rest').closer fun Fs Fs' h => congrArg Prod.snd h)
    · obtain ⟨b, Fs, h⟩ := exists_calls 0 callsCount
      exact ⟨b, _, Fs, h, rfl⟩
    · rintro callsCount callsCount' _ _ _ _ ⟨Fs, h, rfl⟩ ⟨Fs', h', rfl⟩ heq
      have hlength := congrArg (fun r => r.2.length) heq
      simpa [length_calls h, length_calls h'] using hlength
  · intro _ root _
    obtain ⟨b, Fs, h⟩ := exists_calls 0 0
    exact ⟨_, _, _, 0, b, rfl, Reader.means_int (by decide), Fs, h, rfl⟩
  · rintro root root' _ _ _ _ ⟨_, _, _, _, _, Fs, _, rfl⟩ ⟨_, _, _, _, _, Fs', _, rfl⟩ heq
    exact congrArg Prod.fst heq

end Caf
