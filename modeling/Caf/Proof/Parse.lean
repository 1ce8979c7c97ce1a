import Caf.Graph.Slots
import Caf.Proof.Bounds
import Caf.Spec.Correspondence
import Caf.Spec.Parser

/-!
# What the parser runs

From the bytes of a forest the parser builds exactly what running the forest on the target
builds, so by `WalkSteps.eval_eq` it does what the reference evaluation does.

* `parseEach_run`: a list of values.
* `parseCalls_run`: the calls.
-/

namespace Caf

open ObjectGraph LittleEndian
open MemoryInputStream (readInt_four readByte_kind)

variable {σ V : Type} {T : Target σ V} {F : Forest Literal} {fuel : ℕ} {dest : Option V}
  {p : TestCaseParser σ V} {rest : List UInt8} {vs pool' : List V} {s' : σ}

/-- The pools in `tr` are the parts of `pool` up to the counts in `ms`, and of any longer pool. -/
def PoolTraced (pool : List V) (ms : List ℕ) (tr : List (List V)) : Prop :=
  ∀ U, pool <+: U → tr = ms.map fun m => U.take m

theorem PoolTraced.mono {pool pool' : List V} {ms : List ℕ} {tr : List (List V)}
    (h : PoolTraced pool ms tr) (hp : pool <+: pool') : PoolTraced pool' ms tr :=
  fun U hU => h U (hp.trans hU)

theorem PoolTraced.append {pool : List V} {ms ms' : List ℕ} {tr tr' : List (List V)}
    (h : PoolTraced pool ms tr) (h' : PoolTraced pool ms' tr') : PoolTraced pool (ms ++ ms') (tr ++ tr') :=
  fun U hU => by rw [List.map_append, ← h U hU, ← h' U hU]

theorem PoolTraced.here (pool : List V) : PoolTraced pool [pool.length] [pool] := by
  rintro U ⟨W, rfl⟩
  simp

namespace TestCaseParser

/-- The parser has read the forest and done what the forest does. -/
def Parses (T : Target σ V) (fuel : ℕ) (F : Forest Literal) (dest : Option V) (p : TestCaseParser σ V)
    (rest : List UInt8) (vs pool' : List V) (s' : σ) : Prop :=
  ∃ tr, readEach (parseValue T fuel) (fun v p => { p with target := T.interp.pushInto dest v p.target })
      F.length p = .ok (vs, ⟨p.input.after rest, s', pool', p.trace ++ tr⟩) ∧
    PoolTraced pool' (F.marks p.pool.length) tr

/-- Parsing a literal. -/
theorem parseValue_leaf {l : Literal} (h : p.input.data = l.encode ++ rest) (hl : l.Fits) :
    parseValue T (fuel + 1) p = p.give (p.input.after rest) (T.interp.leaf l p.target) := by
  obtain ⟨hk, hk'⟩ := readByte_kind (show p.input.data = l.kind.toByte :: (l.payload ++ rest) from h)
  simp only [parseValue, hk, hk']
  cases l with
  | undefined => rfl
  | null => rfl
  | boolean b =>
    have hb := MemoryInputStream.readByte_eq
      (show (p.input.after ([b.toUInt8] ++ rest)).data = b.toUInt8 :: rest from rfl)
    have hne : (b.toUInt8 != 0) = b := by cases b <;> rfl
    have h01 : b.toUInt8 = 0 ∨ b.toUInt8 = 1 := by cases b <;> decide
    simp only [Literal.kind, Literal.payload, hb, hne, if_pos h01]
    rfl
  | string str =>
    have h₁ := readInt_four (show (p.input.after (toBytes 4 str.length ++ str ++ rest)).data =
      toBytes 4 str.length ++ (str ++ rest) from List.append_assoc _ _ _) hl
    have h₂ := MemoryInputStream.read_eq (show ((p.input.after (toBytes 4 str.length ++ str ++ rest)).after
      (str ++ rest)).data = str ++ rest from rfl)
    simp only [Literal.kind, Literal.payload, h₁, h₂]
    rfl
  | function id =>
    have h₁ := readInt_four (show (p.input.after (toBytes 4 id.toNat ++ rest)).data =
      toBytes 4 id.toNat ++ rest from rfl) id.toNat_lt
    simp only [Literal.kind, Literal.payload, h₁, UInt32.ofNat_toNat]
    rfl
  | integer i =>
    have h₁ := MemoryInputStream.readInt32_eq (show (p.input.after (toBytes 4 i.toUInt32.toNat ++ rest)).data =
      toBytes 4 i.toUInt32.toNat ++ rest from rfl)
    simp only [Literal.kind, Literal.payload, h₁]
    rfl
  | float x =>
    have h₁ := MemoryInputStream.readFloat_eq (show (p.input.after (toBytes 8 x.toNat ++ rest)).data =
      toBytes 8 x.toNat ++ rest from rfl)
    simp only [Literal.kind, Literal.payload, h₁]
    rfl

/-- Parsing a reference. -/
theorem parseValue_back {k : ℕ} {v : V} (h : p.input.data = encodePlaceholder k ++ rest) (hk : k < 2 ^ 32)
    (hv : p.pool[k]? = some v) :
    parseValue T (fuel + 1) p = p.give (p.input.after rest) (v, p.target) := by
  obtain ⟨h₁, h₁'⟩ := readByte_kind
    (show p.input.data = ValueKind.placeholder.toByte :: (toBytes 4 k ++ rest) from h)
  have h₂ := readInt_four (show (p.input.after (toBytes 4 k ++ rest)).data = toBytes 4 k ++ rest from rfl) hk
  simp only [parseValue, h₁, h₁', h₂, hv]
  rfl

/-- Parsing an array. -/
theorem parseValue_array {n : ℕ} {bytes : List UInt8} {a : V} {t : σ} {p' : TestCaseParser σ V}
    (h : p.input.data = encodeArrayHeader n ++ bytes) (hn : n < 2 ^ 32)
    (ha : T.startBuildArray n p.target = (a, t))
    (he : readEach (parseValue T fuel) (pushElement T a) n
      ⟨p.input.after bytes, t, p.pool ++ [a], p.trace ++ [p.pool ++ [a]]⟩ = .ok (vs, p')) :
    parseValue T (fuel + 1) p = .ok (a, p') := by
  obtain ⟨h₁, h₁'⟩ := readByte_kind (show p.input.data = ValueKind.array.toByte :: (toBytes 4 n ++ bytes) from h)
  have h₂ := readInt_four (show (p.input.after (toBytes 4 n ++ bytes)).data = toBytes 4 n ++ bytes from rfl) hn
  simp only [MemoryInputStream.after_after] at h₂
  simp only [parseValue, h₁, h₁', h₂, ha, record, he]
  rfl

/-- **A value without elements**, and then the rest. -/
theorem parses_item {Fr : Forest Literal} {x : V × σ}
    (hread : parseValue T fuel p = p.give (p.input.after (encodeValues Fr ++ rest)) x)
    (hlen : F.length = Fr.length + 1) (hmarks : ∀ n, F.marks n = n :: Fr.marks n)
    (hp : p.pool <+: pool')
    (hrest : Parses T fuel Fr dest ⟨p.input.after (encodeValues Fr ++ rest),
      T.interp.pushInto dest x.1 x.2, p.pool, p.trace ++ [p.pool]⟩ rest vs pool' s') :
    Parses T fuel F dest p rest (x.1 :: vs) pool' s' := by
  obtain ⟨tr, hr, htr⟩ := hrest
  refine ⟨p.pool :: tr, ?_, ?_⟩
  · rw [hlen, readEach_cons hread hr]
    simp
  · rw [hmarks]
    exact ((PoolTraced.here p.pool).mono hp).append htr

/-- **A list of values**: the parser does what the forest does. -/
theorem parseEach_run (hr : F.run T.interp dest p.pool p.target = some (vs, pool', s'))
    (hfit : FitsForest F) (hdata : p.input.data = encodeValues F ++ rest) (hf : F.depth ≤ fuel) :
    Parses T fuel F dest p rest vs pool' s' := by
  induction F generalizing fuel dest p rest vs pool' s' with
  | nil =>
    obtain ⟨rfl, rfl, rfl⟩ := Forest.run_nil_eq hr
    refine ⟨[], ?_, fun _ _ => rfl⟩
    rw [encodeValues, List.nil_append] at hdata
    rw [← hdata, List.append_nil]
    rfl
  | leaf l Fr ih =>
    obtain ⟨fuel, rfl⟩ := Forest.exists_fuel (by simp) hf
    obtain ⟨vs₁, rfl, h₁⟩ := Forest.run_leaf_eq rfl hr
    have hd : p.input.data = l.encode ++ (encodeValues Fr ++ rest) := by
      rw [hdata, encodeValues, List.append_assoc]
    refine parses_item (parseValue_leaf hd hfit.1) rfl (fun _ => rfl) (Forest.run_pool h₁).1 ?_
    exact @ih _ _ ⟨_, _, p.pool, _⟩ _ _ _ _ h₁ hfit.2 rfl (Nat.le_trans (Nat.le_max_right _ _) hf)
  | back k Fr ih =>
    obtain ⟨fuel, rfl⟩ := Forest.exists_fuel (by simp) hf
    obtain ⟨v, vs₁, hv, rfl, h₁⟩ := Forest.run_back_eq hr
    have hd : p.input.data = encodePlaceholder k ++ (encodeValues Fr ++ rest) := by
      rw [hdata, encodeValues, List.append_assoc]
    refine parses_item (parseValue_back hd hfit.1 hv) rfl (fun _ => rfl) (Forest.run_pool h₁).1 ?_
    exact @ih _ _ ⟨_, _, p.pool, _⟩ _ _ _ _ h₁ hfit.2 rfl (Nat.le_trans (Nat.le_max_right _ _) hf)
  | node sub Fr ih₁ ih₂ =>
    obtain ⟨fuel, rfl⟩ := Forest.exists_fuel (by simp) hf
    have hf₁ : sub.depth ≤ fuel := Nat.le_of_succ_le_succ (Nat.le_trans (Nat.le_max_left _ _) hf)
    have hd : p.input.data = encodeArrayHeader sub.length ++ (encodeValues sub ++ (encodeValues Fr ++ rest)) := by
      rw [hdata, encodeValues, List.append_assoc, List.append_assoc]
    obtain ⟨hsz, hfit₁, hfit₂⟩ := hfit
    obtain ⟨a, t, hat⟩ : ∃ a t, T.startBuildArray sub.length p.target = (a, t) := ⟨_, _, rfl⟩
    have hnode : T.interp.node sub.length p.target = (a, t) := hat
    obtain ⟨us, p₁, s₁, vs₂, h₁, rfl, h₂⟩ := Forest.run_node_eq hnode hr
    obtain ⟨hpre₁, hlen₁⟩ := Forest.run_pool h₁
    obtain ⟨hpre₂, hlen₂⟩ := Forest.run_pool h₂
    obtain ⟨tr₁, hread₁, htr₁⟩ := @ih₁ fuel (some a)
      ⟨p.input.after (encodeValues sub ++ (encodeValues Fr ++ rest)), t, p.pool ++ [a],
        p.trace ++ [p.pool ++ [a]]⟩ (encodeValues Fr ++ rest) _ _ _ h₁ hfit₁ rfl hf₁
    obtain ⟨tr₂, hread₂, htr₂⟩ := @ih₂ (fuel + 1) dest
      ⟨p.input.after (encodeValues Fr ++ rest), T.interp.pushInto dest a s₁, p₁,
        p.trace ++ [p.pool ++ [a]] ++ tr₁⟩ rest _ _ _ h₂ hfit₂ rfl (Nat.le_trans (Nat.le_max_right _ _) hf)
    refine ⟨[p.pool ++ [a]] ++ tr₁ ++ tr₂, ?_, ?_⟩
    · rw [Forest.length, readEach_cons (parseValue_array hd hsz hat hread₁) hread₂]
      simp
    · have hhere := (PoolTraced.here (p.pool ++ [a])).mono (hpre₁.trans hpre₂)
      have ht := (hhere.append (htr₁.mono hpre₂)).append htr₂
      simpa [Forest.marks, hlen₁] using ht

/-! ## Calls -/

variable {st : Step CallOp (Forest Literal)} {Fs : List (Step CallOp (Forest Literal))}
  {function thisValue ret : V} {p₁ p₂ : List V} {s₁ s₂ t : σ}

/-- **A call** whose function is in the database: the parser does what the step does. -/
theorem parseCall_run (hfun : T.getFunction st.op.1 = some function)
    (h₁ : st.head.run T.interp none p.pool p.target = some ([thisValue], p₁, s₁))
    (h₂ : st.args.run T.interp none p₁ s₁ = some (vs, p₂, s₂))
    (hinv : T.invoke function thisValue st.op.2 vs s₂ = (ret, t)) (hfit : FitsStep st)
    (hdata : p.input.data = encodeCall st ++ rest) (hf : st.head.depth ≤ fuel ∧ st.args.depth ≤ fuel) :
    ∃ tr, parseCall T fuel p = .ok ⟨p.input.after rest, t, p₂ ++ [ret], p.trace ++ tr⟩ ∧
      PoolTraced (p₂ ++ [ret]) (st.head.marks p.pool.length ++
        st.args.marks (p.pool.length + st.head.slots) ++ [p.pool.length + st.slots]) tr := by
  have hid := readInt_four (show p.input.data = toBytes 4 st.op.1.toNat ++ (encodeValues st.head ++
    (st.op.2.toUInt8 :: (toBytes 4 st.args.length ++ (encodeValues st.args ++ rest)))) by
      rw [hdata, encodeCall]; simp) st.op.1.toNat_lt
  obtain ⟨hpre₁, hlen₁⟩ := Forest.run_pool h₁
  obtain ⟨hpre₂, hlen₂⟩ := Forest.run_pool h₂
  obtain ⟨tr₁, hread₁, htr₁⟩ := @parseEach_run _ _ T st.head fuel none
    { p with input := p.input.after (encodeValues st.head ++ (st.op.2.toUInt8 ::
      (toBytes 4 st.args.length ++ (encodeValues st.args ++ rest)))) } _ _ _ _ h₁ hfit.head rfl hf.1
  rw [hfit.single] at hread₁
  obtain ⟨v, hv, hread₁⟩ := readEach_one hread₁
  cases hv
  have hctor := MemoryInputStream.readByte_eq (show (p.input.after (st.op.2.toUInt8 ::
    (toBytes 4 st.args.length ++ (encodeValues st.args ++ rest)))).data = _ from rfl)
  have hcount := readInt_four (show (p.input.after (toBytes 4 st.args.length ++
    (encodeValues st.args ++ rest))).data = _ from rfl) hfit.length
  obtain ⟨tr₂, hread₂, htr₂⟩ := @parseEach_run _ _ T st.args fuel none
    ⟨p.input.after (encodeValues st.args ++ rest), s₁, p₁, p.trace ++ tr₁⟩ rest _ _ _ h₂ hfit.args rfl hf.2
  have hne : (st.op.2.toUInt8 != 0) = st.op.2 := by cases st.op.2 <;> rfl
  refine ⟨tr₁ ++ tr₂ ++ [p₂ ++ [ret]], ?_, ?_⟩
  · unfold parseCall
    simp only [MemoryInputStream.after_after] at hread₁ hctor hcount
    simp only [hid, hread₁, bind, Except.bind, hctor, hcount]
    have hread₂' : readEach (parseValue T fuel) (fun _ p => p) st.args.length
        ⟨p.input.after (encodeValues st.args ++ rest), s₁, p₁, p.trace ++ tr₁⟩ = _ := hread₂
    simp only [hread₂', UInt32.ofNat_toNat, hfun, hne, hinv]
    simp [record, pure, Except.pure]
  · have hpre := List.prefix_append p₂ [ret]
    have hhere := PoolTraced.here (p₂ ++ [ret])
    have ht := ((htr₁.mono (hpre₂.trans hpre)).append (htr₂.mono hpre)).append hhere
    rw [hlen₁] at ht
    rw [List.length_append, List.length_singleton, hlen₂, hlen₁] at ht
    simpa [Step.slots, Nat.add_assoc] using ht

/-- **The calls**: the parser does what the steps do. -/
theorem parseCalls_run {es : List (Event CallOp σ V)}
    (hr : runSteps T.interp T.perform Fs p.pool p.target = some (es, pool', s'))
    (hids : ∀ st ∈ Fs, (T.getFunction st.op.1).isSome = true) (hfit : ∀ st ∈ Fs, FitsStep st)
    (hdata : p.input.data = encodeCalls Fs ++ rest) (hf : DepthLE fuel Fs) :
    ∃ tr, parseCalls T fuel Fs.length p = .ok ⟨p.input.after rest, s', pool', p.trace ++ tr⟩ ∧
      PoolTraced pool' (stepMarks p.pool.length Fs) tr := by
  induction Fs generalizing p pool' s' es with
  | nil =>
    obtain ⟨-, rfl, rfl⟩ := runSteps_nil_eq hr
    have hd : p.input.data = rest := hdata
    exact ⟨[], by rw [List.append_nil, ← hd]; rfl, fun _ _ => rfl⟩
  | cons st Fs ih =>
    obtain ⟨hs, p₁, s₁, vs, p₂, s₂, es', h₁, h₂, rfl, h₃⟩ := runSteps_cons_eq hr
    obtain ⟨function, hfun⟩ := Option.isSome_iff_exists.1 (hids st List.mem_cons_self)
    have hst := hfit st List.mem_cons_self
    -- every call is written with a receiver
    obtain ⟨thisValue, rfl⟩ : ∃ v, hs = [v] := List.length_eq_one_iff.1 ((Forest.run_length h₁).trans hst.single)
    obtain ⟨ret, t, hinv⟩ : ∃ ret t, T.invoke function thisValue st.op.2 vs s₂ = (ret, t) := ⟨_, _, rfl⟩
    have hperf : T.perform st.op [thisValue] vs s₂ = (ret, t) := by
      simp only [Target.perform, hfun, hinv]
    simp only [hperf] at h₃
    have hd : p.input.data = encodeCall st ++ (encodeCalls Fs ++ rest) := by
      rw [hdata, encodeCalls, List.flatMap_cons, List.append_assoc]
      rfl
    obtain ⟨tr₁, hrun, htr₁⟩ := parseCall_run hfun h₁ h₂ hinv hst hd (hf st List.mem_cons_self)
    obtain ⟨tr₂, hrest, htr₂⟩ := @ih ⟨p.input.after (encodeCalls Fs ++ rest), t, p₂ ++ [ret], p.trace ++ tr₁⟩
      _ _ _ h₃ (fun st hst => hids st (List.mem_cons_of_mem _ hst))
      (fun st hst => hfit st (List.mem_cons_of_mem _ hst)) rfl
      (fun st hst => hf st (List.mem_cons_of_mem _ hst))
    refine ⟨tr₁ ++ tr₂, ?_, ?_⟩
    · rw [List.length_cons, parseCalls, hrun]
      simpa [bind, Except.bind] using hrest
    · have hpre := runSteps_pool h₃
      have hlen : (p₂ ++ [ret]).length = p.pool.length + st.slots := by
        rw [List.length_append, List.length_singleton, (Forest.run_pool h₂).2, (Forest.run_pool h₁).2]
        simp only [Step.slots]
        omega
      simp only [hlen] at htr₂
      have ht := (htr₁.mono hpre).append htr₂
      simpa [stepMarks] using ht

end TestCaseParser

end Caf
