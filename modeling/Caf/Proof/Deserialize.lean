import Caf.Spec.Deserializer

/-!
# What the deserializer builds

From the bytes of a forest the deserializer builds objects whose walk writes that forest
again, with literals as the pool represents them. A `LiteralView` says how exactly literals are
compared: infinities are told apart only where there are none.

* `reads_of_ready`: a list of values.
* `deserialize_spec`: a test case.
-/

namespace Caf

open ObjectGraph LittleEndian
open MemoryInputStream (readInt_four readByte_kind)

/-- The literals that the pool represents faithfully. -/
def Literal.NoInf (l : Literal) : Prop := ∀ x : Double, l = .float x → x.isInf = false

/-- A way to compare the literal that was written with the one that the pool's object holds, in the pools in which the
two agree. -/
structure LiteralView where
  Admits : Literal → Prop
  written : Literal → Literal
  held : Literal → Literal
  Pool : ObjectPool → Prop
  ok : ∀ {p : ObjectPool}, Pool p → ObjectPoolOK p
  agree : ∀ {p : ObjectPool} {l : Literal}, Pool p → Admits l →
    ∃ l', Gives p (.literal l') (p.getLiteral l) ∧ Pool (p.getLiteral l).2 ∧ held l' = written l
  keep : ∀ {p q : ObjectPool}, Pool p → ObjectPoolOK q → q.inf = p.inf →
    (∀ (a : Addr) l, p.heap[a]? = some (.literal l) → q.heap[a]? = some (.literal l)) → Pool q

namespace LiteralView

/-- Without infinities the pool's objects hold exactly `Literal.pooled`. -/
def exact : LiteralView where
  Admits := Literal.NoInf
  written := Literal.pooled
  held := id
  Pool := ObjectPoolOK
  ok hok := hok
  agree hok hl := ⟨_, ObjectPool.getLiteral_gives hok _ hl, (ObjectPool.getLiteral_gives hok _ hl).ok, rfl⟩
  keep _ hok _ _ := hok

/-- All infinities look the same. -/
def upToInfinity : LiteralView where
  Admits _ := True
  written := Literal.blurred
  held := Literal.blurred
  Pool := ObjectPoolOK
  ok hok := hok
  agree hok _ :=
    let ⟨l', hg, hl'⟩ := ObjectPool.getLiteral_gives_blurred hok _
    ⟨l', hg, hg.ok, hl'⟩
  keep _ hok _ _ := hok

/-- The objects of the heap as they look. -/
def heap (w : LiteralView) (h : Heap) : Heap := h.map (Value.mapLiteral w.held)

theorem exact_heap (h : Heap) : exact.heap h = h := by
  have hid : Value.mapLiteral exact.held = id := funext fun v => by cases v <;> rfl
  rw [heap, hid, List.map_id]

/-- A new array is no literal. -/
theorem createArray (w : LiteralView) {p : ObjectPool} (h : w.Pool p) : w.Pool p.createArrayValue.2 :=
  have hx := ObjectPool.createArrayValue_gives (w.ok h)
  w.keep h hx.ok rfl fun _ _ ha => hx.ext.get ha

theorem getPlaceholder (w : LiteralView) {p : ObjectPool} (h : w.Pool p) (index : ℕ) :
    w.Pool (p.getPlaceholderValue index).2 :=
  have hx := ObjectPool.getPlaceholderValue_gives (w.ok h) index
  w.keep h hx.ok (ObjectPool.getOrCreate_inf fun _ _ => rfl) fun _ _ ha => hx.ext.get ha

theorem push (w : LiteralView) {p : ObjectPool} (h : w.Pool p) (d v : Addr) : w.Pool (p.push d v) :=
  w.keep h ((w.ok h).push d v) (ObjectPool.push_inf d v) fun _ _ ha => ObjectPool.push_literal v ha

/-- The forest of the literals that were written. -/
abbrev forest (w : LiteralView) (F : Forest Literal) : Forest Literal := F.map w.written

end LiteralView

/-- What slot holds what, as the context has it. -/
structure DeserializationContext.Numbers (c : DeserializationContext) (T : List Referent) : Prop where
  pool : c.pool = T.map fun
    | .node a => some a
    | .result _ => none
  ret : ∀ k i : ℕ, c.retValueIndex k = some i ↔ T[k]? = some (.result i)

namespace DeserializationContext.Numbers

variable {c : DeserializationContext} {T : List Referent}

theorem nil : new.Numbers [] := ⟨rfl, by simp [new]⟩

theorem length (h : c.Numbers T) : c.pool.length = T.length := by
  rw [h.pool, List.length_map]

theorem setNextValue (h : c.Numbers T) (a : Addr) : (c.setNextValue a).Numbers (T ++ [.node a]) := by
  refine ⟨by simp [DeserializationContext.setNextValue, h.pool], fun k i => ?_⟩
  simp only [DeserializationContext.setNextValue, h.ret]
  refine ⟨getElem?_grows (List.prefix_append _ _), fun hk => ?_⟩
  rcases getElem?_concat hk with hk | ⟨-, hr⟩
  · exact hk
  · cases hr

theorem setNextValueAsReturnValue (h : c.Numbers T) (i : ℕ) :
    (c.setNextValueAsReturnValue i).Numbers (T ++ [.result i]) := by
  refine ⟨by simp [DeserializationContext.setNextValueAsReturnValue, h.pool], fun k j => ?_⟩
  simp only [DeserializationContext.setNextValueAsReturnValue, h.length]
  by_cases hk : k = T.length
  · subst hk
    simp
  · rw [Function.update_of_ne hk, h.ret]
    refine ⟨getElem?_grows (List.prefix_append _ _), fun hk' => ?_⟩
    rcases getElem?_concat hk' with hk' | ⟨he, -⟩
    · exact hk'
    · exact absurd he hk

theorem take {T' : List Referent} (h : c.Numbers T) (hT : T <+: T') : c.Numbers (T'.take T.length) := by
  obtain ⟨U, rfl⟩ := hT
  simpa using h

/-- A slot of a return value. -/
theorem result (h : c.Numbers T) {k i : ℕ} (hk : T[k]? = some (.result i)) :
    c.isReturnValueIndex k = true ∧ c.getReturnValueIndex k = .ok i := by
  have hr := (h.ret k i).2 hk
  simp [isReturnValueIndex, getReturnValueIndex, hr]

/-- A slot of an array. -/
theorem node (h : c.Numbers T) {k : ℕ} {a : Addr} (hk : T[k]? = some (.node a)) :
    c.isReturnValueIndex k = false ∧ c.getValue k = .ok a := by
  have hn : c.retValueIndex k = none := by
    cases hr : c.retValueIndex k with
    | none => rfl
    | some i =>
      have := (h.ret k i).1 hr
      rw [hk] at this
      cases this
  have hp : c.pool[k]? = some (some a) := by rw [h.pool, List.getElem?_map, hk]; rfl
  simp [isReturnValueIndex, getValue, hn, hp]

end DeserializationContext.Numbers

/-- The contexts in `tr` number the slots of `T` up to the counts in `ms`, and do so in any
longer list of slots. -/
def Traced (T : List Referent) (ms : List ℕ) (tr : List DeserializationContext) : Prop :=
  ∀ U, T <+: U → List.Forall₂ (fun m c => c.Numbers (U.take m)) ms tr

section Traced

variable {T T' : List Referent} {ms ms' : List ℕ} {tr tr' : List DeserializationContext}

theorem Traced.mono (h : Traced T ms tr) (hT : T <+: T') : Traced T' ms tr :=
  fun U hU => h U (hT.trans hU)

theorem Traced.append (h : Traced T ms tr) (h' : Traced T ms' tr') : Traced T (ms ++ ms') (tr ++ tr') :=
  fun U hU => List.rel_append (h U hU) (h' U hU)

/-- The context at this point. -/
theorem Traced.here {c : DeserializationContext} (h : c.Numbers T) : Traced T [T.length] [c] :=
  fun _ hU => .cons (h.take hU) .nil

end Traced

/-! ## The heap while it is built -/

/-- From `p` to `q` the pool has grown; of the objects that were there, only the array `dest`
has changed: `vs` were pushed onto it. -/
structure Grows (w : LiteralView) (dest : Option Addr) (vs : List Addr) (p q : ObjectPool) : Prop where
  pool : w.Pool q
  length : p.heap.length ≤ q.heap.length
  keep : ∀ (a : Addr) v, p.heap[a]? = some v → some a ≠ dest → q.heap[a]? = some v
  push : ∀ (d : Addr) es, dest = some d → p.heap[d]? = some (.array es) →
    q.heap[d]? = some (.array (es ++ vs))

/-- `dest` is an array of the pool, if there is one. -/
def DestIn (dest : Option Addr) (p : ObjectPool) : Prop :=
  ∀ d, dest = some d → ∃ es, p.heap[d]? = some (.array es)

/-- The graph `g` has what the pool `q` holds for good, as it looks: everything but the arrays
below `n`. -/
structure Later (w : LiteralView) (g : Graph Literal) (n : ℕ) (q : ObjectPool) : Prop where
  flat : ∀ (a : Addr) v, q.heap[a]? = some v → (∀ es, v ≠ .array es) → g a = some (v.mapLiteral w.held).cell
  array : ∀ (a : Addr) es, n ≤ a → q.heap[a]? = some (.array es) → g a = some (.node es)

section Heap

variable {w : LiteralView} {dest : Option Addr} {vs ws : List Addr} {p q r : ObjectPool}
  {g : Graph Literal} {n : ℕ}

theorem DestIn.lt (h : DestIn dest p) {d : Addr} (hd : dest = some d) : d < p.heap.length := by
  obtain ⟨es, hes⟩ := h d hd
  exact (List.getElem?_eq_some_iff.1 hes).1

theorem Grows.refl (h : w.Pool p) : Grows w dest [] p p :=
  ⟨h, Nat.le_refl _, fun _ _ ha _ => ha, fun _ _ _ hd => by simpa using hd⟩

theorem Grows.destIn (h : Grows w dest vs p q) (hd : DestIn dest p) : DestIn dest q := by
  intro d hdest
  obtain ⟨es, hes⟩ := hd d hdest
  exact ⟨_, h.push d es hdest hes⟩

theorem Grows.trans (h : Grows w dest vs p q) (h' : Grows w dest ws q r) : Grows w dest (vs ++ ws) p r := by
  refine ⟨h'.pool, Nat.le_trans h.length h'.length, fun a v ha hne => h'.keep a v (h.keep a v ha hne) hne,
    fun d es hd hes => ?_⟩
  rw [← List.append_assoc]
  exact h'.push d _ hd (h.push d es hd hes)

/-- Without an array under construction, nothing is pushed. -/
theorem Grows.none (h : Grows w none vs p q) : Grows w none ws p q :=
  ⟨h.pool, h.length, h.keep, fun _ _ hd _ => by cases hd⟩

/-- An operation that gives an object changes no array. -/
theorem Grows.of_gives {v : Value} {x : Addr × ObjectPool} (h : Gives p v x) (hx : w.Pool x.2) :
    Grows w dest [] p x.2 := by
  refine ⟨hx, h.ext.length_le, fun a w ha _ => h.ext.get ha, fun d es _ hes => ?_⟩
  rw [List.append_nil]
  exact h.ext.get hes

/-- Push a value onto `dest`, if there is one. -/
def pushDest : Option Addr → Addr → ObjectPool → ObjectPool
  | none, _, p => p
  | some d, v, p => p.push d v

theorem Grows.pushDest (dest : Option Addr) (h : w.Pool p) (v : Addr) : Grows w dest [v] p (pushDest dest v p) := by
  cases dest with
  | none => exact ⟨h, Nat.le_refl _, fun _ _ ha _ => ha, fun _ _ hd _ => by cases hd⟩
  | some d =>
    refine ⟨w.push h d v, Nat.le_of_eq (ObjectPool.push_length d v).symm, fun a w ha hne => ?_,
      fun e es he hes => ?_⟩
    · have hda : d ≠ a := fun hda => hne (by rw [hda])
      exact (ObjectPool.push_get_ne v hda).trans ha
    · cases he
      exact ObjectPool.push_get_self v hes

/-- What holds of the graph for the grown pool held before. -/
theorem Later.back (hg : Later w g n r) (h : Grows w dest vs q r) (hd : DestIn dest q)
    (hn : ∀ d, dest = some d → d < n) : Later w g n q := by
  refine ⟨fun a v ha hv => hg.flat a v (h.keep a v ha fun hda => ?_) hv, fun a es hna ha => ?_⟩
  · obtain ⟨es, hes⟩ := hd a hda.symm
    rw [ha] at hes
    exact hv es (Option.some.inj hes)
  · refine hg.array a es hna (h.keep a _ ha fun hda => ?_)
    exact Nat.lt_irrefl a (Nat.lt_of_lt_of_le (hn a hda.symm) hna)

theorem Later.mono {m : ℕ} (hg : Later w g n q) (h : n ≤ m) : Later w g m q :=
  ⟨hg.flat, fun a es ha => hg.array a es (Nat.le_trans h ha)⟩

end Heap

/-! ## Lists of values -/

/-- What is needed to read the forest `F`, followed by `rest`, when the slots hold `T`. -/
structure Ready (w : LiteralView) (F : Forest Literal) (dest : Option Addr) (T : List Referent) (rest : List UInt8)
    (s : TestCaseDeserializer) : Prop where
  fits : FitsForest F
  admits : F.All w.Admits
  inScope : F.Scoped T.length
  data : s.input.data = encodeValues F ++ rest
  pool : w.Pool s.pool
  context : s.context.Numbers T
  destIn : DestIn dest s.pool
  below : ∀ a, .node a ∈ T → a < s.pool.heap.length

/-- Reading the forest `F` from `s` gave the values `vs` and left `s'`, with the slots `T'`; a
walk of the values writes the forest again. -/
structure Built (w : LiteralView) (F : Forest Literal) (dest : Option Addr) (T : List Referent) (rest : List UInt8)
    (s : TestCaseDeserializer) (vs : List Addr) (s' : TestCaseDeserializer) (T' : List Referent)
    (tr : List DeserializationContext) : Prop where
  input : s'.input = s.input.after rest
  context : s'.context.Numbers T'
  trace : s'.trace = s.trace ++ tr
  traces : Traced T' (F.marks T.length) tr
  grows : Grows w dest vs s.pool s'.pool
  below : ∀ a, .node a ∈ T' → a < s'.pool.heap.length
  slots : T <+: T'
  length : T'.length = T.length + F.slots
  walk : ∀ g, Later w g s.pool.heap.length s'.pool → NodesIn g T → Walk g T vs (w.forest F) T'

/-- The loop reads the forest. -/
def Reads (w : LiteralView) (fuel : ℕ) (F : Forest Literal) (dest : Option Addr) (T : List Referent)
    (rest : List UInt8) (s : TestCaseDeserializer) : Prop :=
  ∃ vs s' T' tr, readEach (TestCaseDeserializer.deserializeValue fuel)
      (fun v s => { s with pool := pushDest dest v s.pool }) F.length s = .ok (vs, s') ∧
    Built w F dest T rest s vs s' T' tr

namespace TestCaseDeserializer

variable {w : LiteralView} {fuel : ℕ} {F Fr : Forest Literal} {dest : Option Addr} {T : List Referent}
  {rest : List UInt8} {s : TestCaseDeserializer}

/-- Reading a literal. -/
theorem deserializeValue_leaf {l : Literal} (h : s.input.data = l.encode ++ rest) (hl : l.Fits) :
    deserializeValue (fuel + 1) s = s.give (s.input.after rest) (s.pool.getLiteral l) := by
  obtain ⟨hk, hk'⟩ := readByte_kind (show s.input.data = l.kind.toByte :: (l.payload ++ rest) from h)
  simp only [deserializeValue, hk, hk']
  cases l with
  | undefined => rfl
  | null => rfl
  | boolean b =>
    have hb := MemoryInputStream.readByte_eq
      (show (s.input.after ([b.toUInt8] ++ rest)).data = b.toUInt8 :: rest from rfl)
    have hne : (b.toUInt8 != 0) = b := by cases b <;> rfl
    simp only [Literal.kind, Literal.payload, hb, hne]
    rfl
  | string str =>
    have h₁ := readInt_four (show (s.input.after (toBytes 4 str.length ++ str ++ rest)).data =
      toBytes 4 str.length ++ (str ++ rest) from List.append_assoc _ _ _) hl
    have h₂ := MemoryInputStream.readBytes_eq (show ((s.input.after (toBytes 4 str.length ++ str ++ rest)).after
      (str ++ rest)).data = str ++ rest from rfl)
    simp only [Literal.kind, Literal.payload, h₁, h₂]
    rfl
  | function id =>
    have h₁ := readInt_four (show (s.input.after (toBytes 4 id.toNat ++ rest)).data =
      toBytes 4 id.toNat ++ rest from rfl) id.toNat_lt
    simp only [Literal.kind, Literal.payload, h₁, UInt32.ofNat_toNat]
    rfl
  | integer i =>
    have h₁ := MemoryInputStream.readInt32_eq (show (s.input.after (toBytes 4 i.toUInt32.toNat ++ rest)).data =
      toBytes 4 i.toUInt32.toNat ++ rest from rfl)
    simp only [Literal.kind, Literal.payload, h₁]
    rfl
  | float x =>
    have h₁ := MemoryInputStream.readFloat_eq (show (s.input.after (toBytes 8 x.toNat ++ rest)).data =
      toBytes 8 x.toNat ++ rest from rfl)
    simp only [Literal.kind, Literal.payload, h₁]
    rfl

/-- Reading a reference to a return value. -/
theorem deserializeValue_result {k i : ℕ} (h : s.input.data = encodePlaceholder k ++ rest)
    (hk : k < 2 ^ 32) (hc : s.context.Numbers T) (hi : T[k]? = some (.result i)) :
    deserializeValue (fuel + 1) s = s.give (s.input.after rest) (s.pool.getPlaceholderValue i) := by
  obtain ⟨h₁, h₁'⟩ := readByte_kind (show s.input.data = ValueKind.placeholder.toByte :: (toBytes 4 k ++ rest) from h)
  have h₂ := readInt_four (show (s.input.after (toBytes 4 k ++ rest)).data = toBytes 4 k ++ rest from rfl) hk
  obtain ⟨h₃, h₄⟩ := hc.result hi
  simp only [deserializeValue, h₁, h₁', h₂, h₃, h₄]
  rfl

/-- Reading a reference to an array. -/
theorem deserializeValue_node {k : ℕ} {a : Addr} (h : s.input.data = encodePlaceholder k ++ rest)
    (hk : k < 2 ^ 32) (hc : s.context.Numbers T) (ha : T[k]? = some (.node a)) :
    deserializeValue (fuel + 1) s = s.give (s.input.after rest) (a, s.pool) := by
  obtain ⟨h₁, h₁'⟩ := readByte_kind (show s.input.data = ValueKind.placeholder.toByte :: (toBytes 4 k ++ rest) from h)
  have h₂ := readInt_four (show (s.input.after (toBytes 4 k ++ rest)).data = toBytes 4 k ++ rest from rfl) hk
  obtain ⟨h₃, h₄⟩ := hc.node ha
  simp only [deserializeValue, h₁, h₁', h₂, h₃, h₄, Bool.false_eq_true, if_false]
  rfl

/-- The state in which the elements of the new array `a` are read. -/
def startArray (s : TestCaseDeserializer) (bytes : List UInt8) (a : Addr) (p : ObjectPool) :
    TestCaseDeserializer :=
  ⟨s.input.after bytes, p, s.context.setNextValue a, s.trace ++ [s.context.setNextValue a]⟩

/-- Reading an array. -/
theorem deserializeValue_array {n : ℕ} {bytes : List UInt8} {a : Addr} {p : ObjectPool}
    {vs : List Addr} {s' : TestCaseDeserializer} (h : s.input.data = encodeArrayHeader n ++ bytes)
    (hn : n < 2 ^ 32) (ha : s.pool.createArrayValue = (a, p))
    (he : readEach (deserializeValue fuel) (pushElement a) n (s.startArray bytes a p) = .ok (vs, s')) :
    deserializeValue (fuel + 1) s = .ok (a, s') := by
  obtain ⟨h₁, h₁'⟩ := readByte_kind (show s.input.data = ValueKind.array.toByte :: (toBytes 4 n ++ bytes) from h)
  have h₂ := readInt_four (show (s.input.after (toBytes 4 n ++ bytes)).data = toBytes 4 n ++ bytes from rfl) hn
  simp only [MemoryInputStream.after_after] at h₂
  simp only [startArray] at he
  simp only [deserializeValue, h₁, h₁', h₂, ha, record, he]
  rfl

/-- **A value without elements**, and then the rest. -/
theorem reads_item {x : Addr × ObjectPool}
    (hread : deserializeValue fuel s = s.give (s.input.after (encodeValues Fr ++ rest)) x)
    (hlen : F.length = Fr.length + 1) (hslots : F.slots = Fr.slots)
    (hmarks : ∀ n, F.marks n = n :: Fr.marks n)
    (hr : Ready w F dest T rest s) (hx : Grows w dest [] s.pool x.2)
    (hwalk : ∀ g S vs, Later w g s.pool.heap.length x.2 → NodesIn g T → Walk g T vs (w.forest Fr) S →
      Walk g T (x.1 :: vs) (w.forest F) S)
    (ih : ∀ s, Ready w Fr dest T rest s → Reads w fuel Fr dest T rest s)
    (hFr : FitsForest Fr ∧ Fr.All w.Admits ∧ Fr.Scoped T.length) : Reads w fuel F dest T rest s := by
  have hpush := Grows.pushDest dest hx.pool x.1
  have hgrow := hx.trans hpush
  obtain ⟨vs, s', T', tr, hrest, hb⟩ := ih
    { s with
      input := s.input.after (encodeValues Fr ++ rest)
      pool := pushDest dest x.1 x.2
      trace := s.trace ++ [s.context] }
    ⟨hFr.1, hFr.2.1, hFr.2.2, rfl, hpush.pool, hr.context, hgrow.destIn hr.destIn,
      fun a ha => Nat.lt_of_lt_of_le (hr.below a ha) hgrow.length⟩
  refine ⟨x.1 :: vs, s', T', s.context :: tr, ?_, hb.input, hb.context, ?_, ?_,
    hgrow.trans hb.grows, hb.below, hb.slots, hslots ▸ hb.length, fun g hg hT => ?_⟩
  · rw [hlen]
    exact readEach_cons hread hrest
  · rw [hb.trace]; simp
  · rw [hmarks]
    exact ((Traced.here hr.context).mono hb.slots).append hb.traces
  · have hlt : ∀ d, dest = some d → d < s.pool.heap.length := fun d hd => hr.destIn.lt hd
    have hg₁ : Later w g s.pool.heap.length (pushDest dest x.1 x.2) :=
      hg.back hb.grows (hgrow.destIn hr.destIn) hlt
    have hg₀ : Later w g s.pool.heap.length x.2 := hg₁.back hpush (hx.destIn hr.destIn) hlt
    exact hwalk g _ vs hg₀ hT (hb.walk g (hg.mono hgrow.length) hT)

/-- **An array**, and then the rest. -/
theorem reads_node {sub : Forest Literal} (hr : Ready w (.node sub Fr) dest T rest s)
    (hd : s.input.data = encodeArrayHeader sub.length ++ (encodeValues sub ++ (encodeValues Fr ++ rest)))
    (hsz : sub.length < 2 ^ 32)
    (hsub : FitsForest sub ∧ sub.All w.Admits ∧ sub.Scoped (T.length + 1))
    (hFr : FitsForest Fr ∧ Fr.All w.Admits ∧ Fr.Scoped (T.length + 1 + sub.slots))
    (ih₁ : ∀ {dest T rest s}, Ready w sub dest T rest s → Reads w fuel sub dest T rest s)
    (ih₂ : ∀ {dest T rest s}, Ready w Fr dest T rest s → Reads w (fuel + 1) Fr dest T rest s) :
    Reads w (fuel + 1) (.node sub Fr) dest T rest s := by
  obtain ⟨a, p, hap⟩ : ∃ a p, s.pool.createArrayValue = (a, p) := ⟨_, _, rfl⟩
  have hx := ObjectPool.createArrayValue_gives (w.ok hr.pool)
  have hpool := w.createArray hr.pool
  have hal : a = s.pool.heap.length := congrArg Prod.fst hap.symm
  have hpl : p.heap.length = s.pool.heap.length + 1 := by
    rw [show p = s.pool.createArrayValue.2 by rw [hap]]
    simp [ObjectPool.createArrayValue, ObjectPool.allocate]
  rw [hap] at hx hpool
  have hfr : .node a ∉ T := fun hm => Nat.lt_irrefl a (hal ▸ hr.below a hm)
  have hlt : ∀ d, dest = some d → d < s.pool.heap.length := fun d hd => hr.destIn.lt hd
  -- the elements
  have hT₁ : (T ++ [Referent.node a]).length = T.length + 1 := by simp
  have hr₁ : Ready w sub (some a) (T ++ [.node a]) (encodeValues Fr ++ rest)
      (s.startArray (encodeValues sub ++ (encodeValues Fr ++ rest)) a p) := by
    refine ⟨hsub.1, hsub.2.1, hT₁ ▸ hsub.2.2, rfl, hpool, hr.context.setNextValue a, ?_, ?_⟩
    · rintro d ⟨⟩
      exact ⟨[], hx.get⟩
    · intro b hb
      rcases List.mem_append.1 hb with hb | hb
      · exact Nat.lt_of_lt_of_le (hr.below b hb) hx.ext.length_le
      · cases List.mem_singleton.1 hb
        exact (List.getElem?_eq_some_iff.1 hx.get).1
  obtain ⟨vs₁, s₂, T₂, tr₁, hread₁, hb₁⟩ := ih₁ hr₁
  have hgrow₂ : Grows w dest [] s.pool s₂.pool := by
    refine ⟨hb₁.grows.pool, Nat.le_trans hx.ext.length_le hb₁.grows.length, fun b v hb _ => ?_,
      fun d es _ hes => ?_⟩
    · exact hb₁.grows.keep b v (hx.ext.get hb) (by
        rintro ⟨⟩
        exact absurd (List.getElem?_eq_some_iff.1 hb).1 (hal ▸ Nat.lt_irrefl _))
    · rw [List.append_nil]
      exact hb₁.grows.keep d _ (hx.ext.get hes) (by
        rintro ⟨⟩
        exact absurd (List.getElem?_eq_some_iff.1 hes).1 (hal ▸ Nat.lt_irrefl _))
  have hpush := Grows.pushDest dest hgrow₂.pool a
  have hgrow₃ := hgrow₂.trans hpush
  -- the values after it
  have hT₂ : T₂.length = T.length + 1 + sub.slots := by rw [hb₁.length, hT₁]
  have hr₂ : Ready w Fr dest T₂ rest { s₂ with pool := pushDest dest a s₂.pool } := by
    refine ⟨hFr.1, hFr.2.1, hT₂ ▸ hFr.2.2, ?_, hpush.pool, hb₁.context, hgrow₃.destIn hr.destIn, ?_⟩
    · simp [hb₁.input]
    · exact fun b hb => Nat.lt_of_lt_of_le (hb₁.below b hb) hpush.length
  obtain ⟨vs₂, s₄, T₃, tr₂, hread₂, hb₂⟩ := ih₂ hr₂
  refine ⟨a :: vs₂, s₄, T₃, [s.context.setNextValue a] ++ tr₁ ++ tr₂, ?_, ?_⟩
  · exact readEach_cons (deserializeValue_array hd hsz hap hread₁) hread₂
  · have hslots := (List.prefix_append T [Referent.node a]).trans (hb₁.slots.trans hb₂.slots)
    refine ⟨?_, hb₂.context, ?_, ?_, hgrow₃.trans hb₂.grows, hb₂.below, hslots, ?_, fun g hg hT => ?_⟩
    · rw [hb₂.input]; simp [hb₁.input, startArray]
    · rw [hb₂.trace]; simp [hb₁.trace, startArray]
    · have hc := (Traced.here (hr.context.setNextValue a)).mono (hb₁.slots.trans hb₂.slots)
      rw [Forest.marks, ← hT₂, ← hT₁]
      exact (hc.append (hb₁.traces.mono hb₂.slots)).append hb₂.traces
    · rw [hb₂.length, hT₂, Forest.slots]; omega
    · have hg₃ := hg.back hb₂.grows (hgrow₃.destIn hr.destIn) hlt
      have hg₂ := hg₃.back hpush (hgrow₂.destIn hr.destIn) hlt
      have hga : g a = some (.node vs₁) :=
        hg₂.array a vs₁ (Nat.le_of_eq hal.symm) (hb₁.grows.push a [] rfl hx.get)
      have hT' : NodesIn g (T ++ [.node a]) := by
        intro b hb
        rcases List.mem_append.1 hb with hb | hb
        · exact hT b hb
        · cases List.mem_singleton.1 hb
          exact ⟨vs₁, hga⟩
      have hw₁ := hb₁.walk g (hg₂.mono hx.ext.length_le) hT'
      have hw₂ := hb₂.walk g (hg.mono hgrow₃.length) (hw₁.nodesIn hT')
      exact .node hga hfr hw₁ hw₂

/-- **A list of values**: the loop reads the bytes of the forest and builds it. -/
theorem reads_of_ready (hr : Ready w F dest T rest s) (hf : F.depth ≤ fuel) : Reads w fuel F dest T rest s := by
  induction F generalizing fuel dest T rest s with
  | nil =>
    refine ⟨[], s, T, [], rfl, ?_, hr.context, by simp, fun _ _ => .nil, .refl hr.pool, hr.below,
      List.prefix_refl _, rfl, fun _ _ _ => .nil⟩
    have hd := hr.data
    rw [encodeValues, List.nil_append] at hd
    rw [← hd]
    rfl
  | leaf l Fr ih =>
    obtain ⟨fuel, rfl⟩ := Forest.exists_fuel (by simp) hf
    have hd : s.input.data = l.encode ++ (encodeValues Fr ++ rest) := by
      rw [hr.data, encodeValues, List.append_assoc]
    obtain ⟨l', hx, hpool, hl'⟩ := w.agree hr.pool hr.admits.1
    refine reads_item (deserializeValue_leaf hd hr.fits.1) rfl rfl (fun _ => rfl) hr (.of_gives hx hpool) ?_
      (fun s hs => ih hs (Nat.le_trans (Nat.le_max_right _ _) hf)) ⟨hr.fits.2, hr.admits.2, hr.inScope⟩
    intro g S vs hg _ hw
    have hleaf := hg.flat _ _ hx.get (by simp)
    rw [Value.mapLiteral, hl'] at hleaf
    exact .leaf hleaf hw
  | back k Fr ih =>
    obtain ⟨fuel, rfl⟩ := Forest.exists_fuel (by simp) hf
    have hd : s.input.data = encodePlaceholder k ++ (encodeValues Fr ++ rest) := by
      rw [hr.data, encodeValues, List.append_assoc]
    have ih' : ∀ s, Ready w Fr dest T rest s → Reads w (fuel + 1) Fr dest T rest s := fun s hs =>
      ih hs (Nat.le_trans (Nat.le_max_right _ _) hf)
    obtain ⟨hk, hsc⟩ := hr.inScope
    have hFr : FitsForest Fr ∧ Fr.All w.Admits ∧ Fr.Scoped T.length := ⟨hr.fits.2, hr.admits, hsc⟩
    -- the slot is that of an array or that of a return value
    obtain ⟨r, hTk⟩ : ∃ r, T[k]? = some r := ⟨_, List.getElem?_eq_getElem hk⟩
    cases r with
    | node a =>
      refine reads_item (deserializeValue_node hd hr.fits.1 hr.context hTk) rfl rfl (fun _ => rfl) hr
        (.refl hr.pool) ?_ ih' hFr
      intro g S vs _ hT hw
      obtain ⟨es, hes⟩ := hT a (List.mem_of_getElem? hTk)
      exact .seen hes hTk hw
    | result i =>
      have hx := ObjectPool.getPlaceholderValue_gives (w.ok hr.pool) i
      refine reads_item (deserializeValue_result hd hr.fits.1 hr.context hTk) rfl rfl (fun _ => rfl) hr
        (.of_gives hx (w.getPlaceholder hr.pool i)) ?_ ih' hFr
      intro g S vs hg _ hw
      exact .result (hg.flat _ _ hx.get (by simp)) hTk hw
  | node sub Fr ih₁ ih₂ =>
    obtain ⟨fuel, rfl⟩ := Forest.exists_fuel (by simp) hf
    have hf₁ : sub.depth ≤ fuel := Nat.le_of_succ_le_succ (Nat.le_trans (Nat.le_max_left _ _) hf)
    have hd : s.input.data = encodeArrayHeader sub.length ++ (encodeValues sub ++ (encodeValues Fr ++ rest)) := by
      rw [hr.data, encodeValues, List.append_assoc, List.append_assoc]
    obtain ⟨hsz, hfit₁, hfit₂⟩ := hr.fits
    obtain ⟨hni₁, hni₂⟩ := hr.admits
    obtain ⟨hsc₁, hsc₂⟩ := hr.inScope
    exact reads_node hr hd hsz ⟨hfit₁, hni₁, hsc₁⟩ ⟨hfit₂, hni₂, hsc₂⟩ (fun h => ih₁ h hf₁)
      fun h => ih₂ h (Nat.le_trans (Nat.le_max_right _ _) hf)

/-! ## Calls -/

/-- The operands of a step can be read back. -/
structure ReadableStep (w : LiteralView) (st : Step CallOp (Forest Literal)) : Prop where
  fits : FitsStep st
  head : st.head.All w.Admits
  args : st.args.All w.Admits

/-- Reading the call `st` from `s` gave `call` and left `s'`, with the slots `T'`. -/
structure BuiltCall (w : LiteralView) (st : Step CallOp (Forest Literal)) (T : List Referent) (rest : List UInt8)
    (s : TestCaseDeserializer) (call : FunctionCall) (s' : TestCaseDeserializer) (T' : List Referent)
    (tr : List DeserializationContext) : Prop where
  op : call.step.op = st.op
  hasThis : call.thisValue.isSome = true
  input : s'.input = s.input.after rest
  context : s'.context.Numbers T'
  trace : s'.trace = s.trace ++ tr
  traces : Traced T' (st.head.marks T.length ++ st.args.marks (T.length + st.head.slots)) tr
  grows : Grows w none [] s.pool s'.pool
  below : ∀ a, .node a ∈ T' → a < s'.pool.heap.length
  slots : T <+: T'
  length : T'.length + 1 = T.length + st.slots
  walk : ∀ g, Later w g s.pool.heap.length s'.pool → NodesIn g T →
    ∃ T₁, Walk g T call.step.head (w.forest st.head) T₁ ∧ Walk g T₁ call.step.args (w.forest st.args) T'

/-- **A call.** -/
theorem deserializeFunctionCall_spec {st : Step CallOp (Forest Literal)} (hst : ReadableStep w st)
    (hd : st.head.depth ≤ fuel ∧ st.args.depth ≤ fuel)
    (hsc : st.head.Scoped T.length ∧ st.args.Scoped (T.length + st.head.slots))
    (hdata : s.input.data = encodeCall st ++ rest) (hok : w.Pool s.pool)
    (hc : s.context.Numbers T) (hb : ∀ a, .node a ∈ T → a < s.pool.heap.length) :
    ∃ call s' T' tr, deserializeFunctionCall fuel s = .ok (call, s') ∧
      BuiltCall w st T rest s call s' T' tr := by
  obtain ⟨⟨funcId, ctor⟩, head, args⟩ := st
  obtain ⟨⟨hf₁, hsingle, hlen, hf₂⟩, hn₁, hn₂⟩ := hst
  simp only at hf₁ hsingle hlen hf₂ hn₁ hn₂ hd hsc
  -- the four fields of the call
  let bytes₂ := encodeValues args ++ rest
  let bytes₁ := [ctor.toUInt8] ++ (toBytes 4 args.length ++ bytes₂)
  let bytes₀ := encodeValues head ++ bytes₁
  have hdata₀ : s.input.data = toBytes 4 funcId.toNat ++ bytes₀ := by
    rw [hdata]; simp [encodeCall, bytes₀, bytes₁, bytes₂]
  have hid := readInt_four hdata₀ funcId.toNat_lt
  have hr₁ : Ready w head none T bytes₁ { s with input := s.input.after bytes₀ } :=
    ⟨hf₁, hn₁, hsc.1, rfl, hok, hc, (fun _ h => by cases h), hb⟩
  obtain ⟨vs₁, s₁, T₁, tr₁, hread₁, hb₁⟩ := reads_of_ready hr₁ hd.1
  rw [hsingle] at hread₁
  obtain ⟨t, rfl, hthis⟩ := readEach_one hread₁
  have hin₁ : s₁.input = s.input.after bytes₁ := hb₁.input
  have hctor := MemoryInputStream.readByte_eq
    (show s₁.input.data = ctor.toUInt8 :: (toBytes 4 args.length ++ bytes₂) by rw [hin₁]; rfl)
  have hne : (ctor.toUInt8 != 0) = ctor := by cases ctor <;> rfl
  have hcount := readInt_four (show (s₁.input.after (toBytes 4 args.length ++ bytes₂)).data =
    toBytes 4 args.length ++ bytes₂ from rfl) hlen
  have hr₂ : Ready w args none T₁ rest { s₁ with input := s₁.input.after bytes₂ } :=
    ⟨hf₂, hn₂, hb₁.length ▸ hsc.2, rfl, hb₁.grows.pool, hb₁.context, (fun _ h => by cases h), hb₁.below⟩
  obtain ⟨vs₂, s₂, T₂, tr₂, hread₂, hb₂⟩ := reads_of_ready hr₂ hd.2
  refine ⟨⟨funcId, some t, ctor, vs₂⟩, s₂, T₂, tr₁ ++ tr₂, ?_, rfl, rfl, ?_, hb₂.context, ?_, ?_,
    (hb₁.grows.trans hb₂.grows).none, hb₂.below, hb₁.slots.trans hb₂.slots, ?_, fun g hg hT => ?_⟩
  · rw [deserializeFunctionCall, hid]
    simp only [hthis, bind, Except.bind, hctor, hcount, hne, UInt32.ofNat_toNat]
    have hargs : readEach (deserializeValue fuel) (fun _ s => s) args.length
        { s₁ with input := s₁.input.after bytes₂ } = .ok (vs₂, s₂) := hread₂
    simp only [MemoryInputStream.after_after, hargs]
    rfl
  · rw [hb₂.input]; simp [hin₁]
  · rw [hb₂.trace]; simp [hb₁.trace]
  · rw [← hb₁.length]
    exact (hb₁.traces.mono hb₂.slots).append hb₂.traces
  · simp only [hb₂.length, hb₁.length, Step.slots]; omega
  · have hg₁ := hg.back hb₂.grows (fun _ h => by cases h) fun _ h => by cases h
    have hw₁ := hb₁.walk g hg₁ hT
    exact ⟨T₁, hw₁, hb₂.walk g (hg.mono hb₁.grows.length) (hw₁.nodesIn hT)⟩

/-- What is needed to read the calls `Fs`, followed by `rest`, when the slots hold `T`. -/
structure ReadyCalls (w : LiteralView) (Fs : List (Step CallOp (Forest Literal))) (T : List Referent)
    (rest : List UInt8) (s : TestCaseDeserializer) : Prop where
  readable : ∀ st ∈ Fs, ReadableStep w st
  inScope : ScopedSteps T.length Fs
  data : s.input.data = encodeCalls Fs ++ rest
  pool : w.Pool s.pool
  context : s.context.Numbers T
  below : ∀ a, .node a ∈ T → a < s.pool.heap.length

/-- Reading the calls `Fs`, the first of which has number `i`, gave `calls` and left `s'`, with
the slots `T'`. -/
structure BuiltCalls (w : LiteralView) (i : ℕ) (Fs : List (Step CallOp (Forest Literal))) (T : List Referent)
    (rest : List UInt8) (s : TestCaseDeserializer) (calls : List FunctionCall)
    (s' : TestCaseDeserializer) (T' : List Referent) (tr : List DeserializationContext) : Prop where
  hasThis : ∀ call ∈ calls, call.thisValue.isSome = true
  input : s'.input = s.input.after rest
  context : s'.context.Numbers T'
  trace : s'.trace = s.trace ++ tr
  traces : Traced T' (stepMarks T.length Fs) tr
  grows : Grows w none [] s.pool s'.pool
  slots : T <+: T'
  walk : ∀ g, Later w g s.pool.heap.length s'.pool → NodesIn g T →
    WalkSteps g i T (calls.map FunctionCall.step) (Fs.map (Step.map w.forest)) T'

/-- **The calls**, from call `i` on. -/
theorem deserializeCalls_spec {Fs : List (Step CallOp (Forest Literal))} {i : ℕ}
    (hr : ReadyCalls w Fs T rest s) (hd : DepthLE fuel Fs) :
    ∃ calls s' T' tr, deserializeCalls fuel Fs.length i s = .ok (calls, s') ∧
      BuiltCalls w i Fs T rest s calls s' T' tr := by
  induction Fs generalizing i T s with
  | nil =>
    refine ⟨[], s, T, [], rfl, by simp, ?_, hr.context, by simp, fun _ _ => .nil, .refl hr.pool,
      List.prefix_refl _, fun _ _ _ => .nil⟩
    have hdata := hr.data
    rw [encodeCalls, List.flatMap_nil, List.nil_append] at hdata
    rw [← hdata]
    rfl
  | cons st Fs ih =>
    obtain ⟨hsc₁, hsc₂, hsc₃⟩ := hr.inScope
    have hdata : s.input.data = encodeCall st ++ (encodeCalls Fs ++ rest) := by
      rw [hr.data, encodeCalls, List.flatMap_cons, List.append_assoc]; rfl
    obtain ⟨call, s₁, T₁, tr₁, hread₁, hb₁⟩ := deserializeFunctionCall_spec
      (hr.readable st List.mem_cons_self) (hd st List.mem_cons_self) ⟨hsc₁, hsc₂⟩ hdata hr.pool
      hr.context hr.below
    -- the slot of the return value
    have hc₂ := hb₁.context.setNextValueAsReturnValue i
    have hT₂ : (T₁ ++ [Referent.result i]).length = T.length + st.slots := by
      rw [List.length_append, List.length_singleton, hb₁.length]
    have hr₂ : ReadyCalls w Fs (T₁ ++ [.result i]) rest
        { s₁ with context := s₁.context.setNextValueAsReturnValue i }.record :=
      ⟨fun st hst => hr.readable st (List.mem_cons_of_mem _ hst), hT₂ ▸ hsc₃,
        by simp [record, hb₁.input], hb₁.grows.pool, hc₂, fun a ha => hb₁.below a (by simpa using ha)⟩
    obtain ⟨calls, s₂, T₂, tr₂, hread₂, hb₂⟩ := @ih _ _ (i + 1) hr₂
      fun st hst => hd st (List.mem_cons_of_mem _ hst)
    have hslots := (List.prefix_append T₁ [Referent.result i]).trans hb₂.slots
    refine ⟨call :: calls, s₂, T₂, tr₁ ++ [s₁.context.setNextValueAsReturnValue i] ++ tr₂, ?_, ?_, ?_,
      hb₂.context, ?_, ?_, (hb₁.grows.trans hb₂.grows).none, hb₁.slots.trans hslots, fun g hg hT => ?_⟩
    · simp only [List.length_cons, deserializeCalls, hread₁, bind, Except.bind, hread₂]
      rfl
    · intro c hc
      rcases List.mem_cons.1 hc with rfl | hc
      · exact hb₁.hasThis
      · exact hb₂.hasThis c hc
    · rw [hb₂.input]; simp [record, hb₁.input]
    · rw [hb₂.trace]; simp [record, hb₁.trace]
    · have ht := ((hb₁.traces.mono hslots).append ((Traced.here hc₂).mono hb₂.slots)).append hb₂.traces
      rw [hT₂] at ht
      simpa only [stepMarks, List.append_assoc, List.cons_append, List.nil_append] using ht
    · have hg₁ := hg.back hb₂.grows (fun _ h => by cases h) fun _ h => by cases h
      obtain ⟨T₀, hw₁, hw₂⟩ := hb₁.walk g hg₁ hT
      have hT₂' : NodesIn g (T₁ ++ [.result i]) := fun a ha =>
        hw₂.nodesIn (hw₁.nodesIn hT) a (by simpa using ha)
      show WalkSteps g i T (⟨call.step.op, call.step.head, call.step.args⟩ :: calls.map FunctionCall.step)
        (⟨st.op, w.forest st.head, w.forest st.args⟩ :: Fs.map (Step.map w.forest)) T₂
      rw [hb₁.op]
      exact .cons hw₁ hw₂ (hb₂.walk g (hg.mono hb₁.grows.length) hT₂')

/-- Reading the bytes of the calls `Fs` from `input` gave `tc` and left `s'`, with the slots `T`. -/
structure BuiltTestCase (w : LiteralView) (root : ℕ) (Fs : List (Step CallOp (Forest Literal)))
    (input : MemoryInputStream)
    (rest : List UInt8) (tc : TestCase) (s' : TestCaseDeserializer) (T : List Referent) : Prop where
  root : tc.storeRootEntryIndex = root
  hasThis : ∀ call ∈ tc.calls, call.thisValue.isSome = true
  input : s'.input = input.after rest
  ok : ObjectPoolOK s'.pool
  context : s'.context.Numbers T
  traces : List.Forall₂ (fun m c => c.Numbers (T.take m)) (stepMarks 0 Fs) s'.trace
  walk : WalkSteps (w.heap s'.pool.heap).graph 0 [] tc.steps (Fs.map (Step.map w.forest)) T

/-- **A test case.** What is built walks to the forests that were read. -/
theorem deserialize_spec {Fs : List (Step CallOp (Forest Literal))} {root : ℕ} {pool : ObjectPool}
    {input : MemoryInputStream} (hroot : root < 2 ^ 32) (hlen : Fs.length < 2 ^ 32)
    (hf : ∀ st ∈ Fs, ReadableStep w st) (hsc : ScopedSteps 0 Fs)
    (hdata : input.data = encodeTestCase root Fs ++ rest) (hok : w.Pool pool) (hd : DepthLE fuel Fs) :
    ∃ tc s' T, deserialize fuel (new input pool) = .ok (tc, s') ∧ BuiltTestCase w root Fs input rest tc s' T := by
  have hdata₁ : input.data = toBytes 4 root ++ (toBytes 4 Fs.length ++ (encodeCalls Fs ++ rest)) := by
    rw [hdata]; simp [encodeTestCase]
  have h₁ := readInt_four hdata₁ hroot
  have h₂ := readInt_four (show (input.after (toBytes 4 Fs.length ++ (encodeCalls Fs ++ rest))).data =
    toBytes 4 Fs.length ++ (encodeCalls Fs ++ rest) from rfl) hlen
  have hr : ReadyCalls w Fs [] rest { new input pool with input := input.after (encodeCalls Fs ++ rest) } :=
    ⟨hf, hsc, rfl, hok, .nil, fun a ha => by cases ha⟩
  obtain ⟨calls, s', T, tr, hread, hb⟩ := deserializeCalls_spec (i := 0) hr hd
  refine ⟨⟨root, calls⟩, s', T, ?_, rfl, hb.hasThis, ?_, w.ok hb.grows.pool, hb.context, ?_, ?_⟩
  · simp only [deserialize, new, h₁, h₂, MemoryInputStream.after_after] at hread ⊢
    simp only [hread, bind, Except.bind]
    rfl
  · rw [hb.input]; simp
  · rw [hb.trace]
    exact hb.traces T (List.prefix_refl _)
  · refine hb.walk _ ⟨fun a v ha _ => ?_, fun a es _ ha => ?_⟩ fun a ha => by cases ha
    · simp [Heap.graph, LiteralView.heap, ha]
    · exact Heap.graph_array.2 ((Heap.map_get_array _).2 ha)

end TestCaseDeserializer

end Caf
