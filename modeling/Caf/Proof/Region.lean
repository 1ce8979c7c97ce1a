import Caf.Proof.Requests
import Caf.Run.Ensures

/-!
# What can be reached from new objects

Values are made of new arrays, above an address `N`, and of objects without elements. A property of
everything that can be reached from them is checked object by object: `Okay` says it of one object, and
`Region` of the elements of the new arrays.

* `Heap.Holds.of_closed`: a property of everything that can be reached.
* `Okay.push`, `Region.push`: what pushing an element keeps.
* `Region.holds`: everything that can be reached from an object that is right is right.
-/

namespace Caf

open ObjectGraph Run

variable {h h' : Heap} {P Q : Value → Prop} {N : ℕ} {a b : Addr} {p q : ObjectPool}

theorem succ_iff : Succ h.graph a b ↔ ∃ es, h[a]? = some (.array es) ∧ b ∈ es := by
  unfold Succ
  simp only [Heap.graph_array]

/-- Everything that can be reached from `a` exists and satisfies `P`. -/
def Heap.Holds (h : Heap) (P : Value → Prop) (a : Addr) : Prop :=
  ∀ b, Reach h.graph a b → ∃ v, h[b]? = some v ∧ P v

/-- **A property of everything that can be reached**, from one of each object and of its elements. -/
theorem Heap.Holds.of_closed {R : Addr → Prop} (ha : R a)
    (hstep : ∀ b, R b → ∃ v, h[b]? = some v ∧ P v ∧ ∀ es, v = .array es → ∀ e ∈ es, R e) : h.Holds P a := by
  have hreach : ∀ b, Reach h.graph a b → R b := by
    intro b hb
    induction hb with
    | refl => exact ha
    | tail _ hs ih =>
      obtain ⟨es, hes, hmem⟩ := succ_iff.1 hs
      obtain ⟨v, hv, -, helems⟩ := hstep _ ih
      rw [hes] at hv
      exact helems es (Option.some.inj hv).symm _ hmem
  intro b hb
  obtain ⟨v, hv, hP, -⟩ := hstep b (hreach b hb)
  exact ⟨v, hv, hP⟩

theorem Heap.Holds.here (ha : h.Holds P a) : ∃ v, h[a]? = some v ∧ P v := ha a .refl

theorem Heap.Holds.elements (ha : h.Holds P a) {es : List Addr} (hes : h[a]? = some (.array es)) (hb : b ∈ es) :
    h.Holds P b :=
  fun c hc => ha c (.head (succ_iff.2 ⟨es, hes, hb⟩) hc)

theorem Heap.Holds.mono (ha : h.Holds P a) (hPQ : ∀ v, P v → Q v) : h.Holds Q a := fun b hb =>
  let ⟨v, hv, hP⟩ := ha b hb
  ⟨v, hv, hPQ v hP⟩

/-- Only the objects that can be reached matter. -/
theorem Heap.Holds.transfer (ha : h.Holds P a) (hsame : ∀ b v, Reach h.graph a b → h[b]? = some v → h'[b]? = some v) :
    h'.Holds P a := by
  refine Heap.Holds.of_closed (R := fun b => Reach h.graph a b) .refl fun b hb => ?_
  obtain ⟨v, hv, hP⟩ := ha b hb
  refine ⟨v, hsame b v hb hv, hP, fun es hes e he => hb.tail (succ_iff.2 ⟨es, ?_, he⟩)⟩
  rw [hv, hes]

theorem Heap.Holds.grow (ha : h.Holds P a) (hx : h <+: h') : h'.Holds P a :=
  ha.transfer fun _ _ _ hb => getElem?_grows hx hb

/-- Placeholders have an index below `n`. -/
def Below (n : ℕ) (v : Value) : Prop := ∀ j, v = .placeholder j → j < n

theorem sound_iff {n : ℕ} : Sound h.graph n a ↔ h.Holds (Below n) a := by
  refine forall₂_congr fun b _ => ?_
  constructor
  · rintro ⟨c, hc, hi⟩
    obtain ⟨v, hv, rfl⟩ := Option.map_eq_some_iff.1 hc
    refine ⟨v, hv, ?_⟩
    rintro j rfl
    exact hi j rfl
  · rintro ⟨v, hv, hbelow⟩
    refine ⟨v.cell, Option.map_eq_some_iff.2 ⟨v, hv, rfl⟩, fun i hi => ?_⟩
    cases v with
    | placeholder j =>
      cases hi
      exact hbelow _ rfl
    | literal l => cases hi
    | array es => cases hi

/-! ## Regions -/

/-- The object at `a` satisfies `P`, and it is new if it is an array. -/
def Okay (N : ℕ) (P : Value → Prop) (h : Heap) (a : Addr) : Prop :=
  ∃ v, h[a]? = some v ∧ P v ∧ ∀ es, v = .array es → N ≤ a

/-- The elements of new arrays are right. -/
def Region (N : ℕ) (P : Value → Prop) (h : Heap) : Prop :=
  ∀ a es, N ≤ a → h[a]? = some (.array es) → ∀ e ∈ es, Okay N P h e

theorem Okay.grow (ha : Okay N P h a) (hx : h <+: h') : Okay N P h' a := by
  obtain ⟨v, hv, hP, hN⟩ := ha
  exact ⟨v, getElem?_grows hx hv, hP, hN⟩

/-- At first there are no new arrays. -/
theorem Region.start (P : Value → Prop) (h : Heap) : Region h.length P h := by
  intro a es ha hes
  exact absurd (List.getElem?_eq_some_iff.1 hes).1 (Nat.not_lt.2 ha)

/-- **Everything that can be reached** from an object that is right satisfies `P`, and the arrays among it
are new. -/
theorem Region.reach (hr : Region N P h) (ha : Okay N P h a) (hb : Reach h.graph a b) : Okay N P h b := by
  induction hb with
  | refl => exact ha
  | tail _ hs ih =>
    obtain ⟨es, hes, hmem⟩ := succ_iff.1 hs
    obtain ⟨v, hv, -, hN⟩ := ih
    rw [hes] at hv
    exact hr _ es (hN es (Option.some.inj hv).symm) hes _ hmem

theorem Okay.mono (ha : Okay N P h a) (hPQ : ∀ v, P v → Q v) : Okay N Q h a := by
  obtain ⟨v, hv, hP, hN⟩ := ha
  exact ⟨v, hv, hPQ v hP, hN⟩

theorem Region.mono (hr : Region N P h) (hPQ : ∀ v, P v → Q v) : Region N Q h :=
  fun a es ha hes e he => (hr a es ha hes e he).mono hPQ

/-- One more object. -/
theorem Region.add (hr : Region N P h) {v : Value}
    (hv : ∀ es, v = .array es → ∀ e ∈ es, Okay N P (h ++ [v]) e) : Region N P (h ++ [v]) := by
  intro a es ha hes
  rcases getElem?_concat hes with hes | ⟨-, rfl⟩
  · exact fun e he => (hr a es ha hes e he).grow (List.prefix_append _ _)
  · exact hv es rfl

theorem Region.holds (hr : Region N P h) (ha : Okay N P h a) : h.Holds P a := by
  intro b hb
  obtain ⟨v, hv, hP, -⟩ := hr.reach ha hb
  exact ⟨v, hv, hP⟩

/-! ## Pushing an element -/

/-- Pushing changes neither the objects below the array nor what kind of object it is. -/
theorem push_extends {e : Addr} (hx : h <+: p.heap) (ha : h.length ≤ a) : h <+: (p.push a e).heap := by
  unfold ObjectPool.push
  split
  · obtain ⟨T, hT⟩ := hx
    rw [← hT, List.set_append_right _ _ ha]
    exact List.prefix_append _ _
  · exact hx

theorem Okay.push {e : Addr} (hb : Okay N P p.heap b)
    (hP : ∀ es, p.heap[a]? = some (.array es) → P (.array (es ++ [e]))) : Okay N P (p.push a e).heap b := by
  obtain ⟨v, hv, hPv, hN⟩ := hb
  by_cases hab : a = b
  · subst hab
    cases v with
    | array es => exact ⟨_, ObjectPool.push_get_self e hv, hP es hv, fun _ _ => hN es rfl⟩
    | literal l =>
      have hsame : (p.push a e).heap = p.heap := by rw [ObjectPool.push, hv]
      exact ⟨_, by rw [hsame, hv], hPv, hN⟩
    | placeholder i =>
      have hsame : (p.push a e).heap = p.heap := by rw [ObjectPool.push, hv]
      exact ⟨_, by rw [hsame, hv], hPv, hN⟩
  · exact ⟨v, by rw [ObjectPool.push_get_ne e hab, hv], hPv, hN⟩

theorem Region.push {e : Addr} (hr : Region N P p.heap) (he : Okay N P p.heap e)
    (hP : ∀ es, p.heap[a]? = some (.array es) → P (.array (es ++ [e]))) : Region N P (p.push a e).heap := by
  intro b es hb hes c hc
  by_cases hab : a = b
  · subst hab
    have hlt := (List.getElem?_eq_some_iff.1 hes).1
    rw [ObjectPool.push_length] at hlt
    obtain ⟨v, hv⟩ : ∃ v, p.heap[a]? = some v := ⟨_, List.getElem?_eq_getElem hlt⟩
    cases v with
    | array fs =>
      rw [ObjectPool.push_get_self e hv] at hes
      cases hes
      rcases List.mem_append.1 hc with hc | hc
      · exact (hr a fs hb hv c hc).push hP
      · rw [List.mem_singleton.1 hc]
        exact he.push hP
    | literal l => rw [ObjectPool.push, hv] at hes; cases hv.symm.trans hes
    | placeholder i => rw [ObjectPool.push, hv] at hes; cases hv.symm.trans hes
  · rw [ObjectPool.push_get_ne e hab] at hes
    exact (hr b es hb hes c hc).push hP

/-! ## What the pool's operations touch -/

/-- The kinds of `_values`: strings, integers and floats. -/
def Literal.Plain (l : Literal) : Prop := ∀ id, l ≠ .function id

/-- An operation added at most one object, which is no array, and only plain values. -/
structure Touches (p : ObjectPool) (r : Addr × ObjectPool) : Prop where
  heap : r.2.heap = p.heap ∨ ∃ v, (∀ es, v ≠ .array es) ∧ r.2.heap = p.heap ++ [v]
  values : ∀ a ∈ r.2.values, a ∈ p.values ∨ ∃ l : Literal, l.Plain ∧ r.2.heap[a]? = some (.literal l)

/-- The new object is no array, so nothing changes for the arrays. -/
theorem Touches.region {r : Addr × ObjectPool} (ht : Touches p r) (hr : Region N P p.heap) :
    Region N P r.2.heap := by
  rcases ht.heap with hh | ⟨v, hv, hh⟩
  · rwa [hh]
  · rw [hh]
    exact hr.add fun es hes => absurd hes (hv es)

/-- The only new value to choose from is the one that is returned. -/
def Adds (p : ObjectPool) (r : Addr × ObjectPool) : Prop := ∀ a ∈ r.2.values, a ∈ p.values ∨ a = r.1

/-- **How a request is served**: the object was there, or it is new and no array; then it has a pointer of its own, or it
is one of the values and plain. -/
inductive Serves (p : ObjectPool) (r : Addr × ObjectPool) : Prop
  | found (heap : r.2.heap = p.heap) (values : r.2.values = p.values)
  | named (v : Value) (hv : ∀ es, v ≠ .array es) (heap : r.2.heap = p.heap ++ [v]) (values : r.2.values = p.values)
  | value (l : Literal) (hl : l.Plain) (addr : r.1 = p.heap.length) (heap : r.2.heap = p.heap ++ [.literal l])
      (values : r.2.values = p.values ++ [r.1])

theorem Serves.touches {r : Addr × ObjectPool} (h : Serves p r) : Touches p r := by
  cases h with
  | found heap values => exact ⟨.inl heap, fun b hb => .inl (values ▸ hb)⟩
  | named v hv heap values => exact ⟨.inr ⟨v, hv, heap⟩, fun b hb => .inl (values ▸ hb)⟩
  | value l hl addr heap values =>
    refine ⟨.inr ⟨_, by simp, heap⟩, fun b hb => ?_⟩
    rw [values] at hb
    rcases List.mem_append.1 hb with hb | hb
    · exact .inl hb
    · right
      refine ⟨l, hl, ?_⟩
      rw [List.mem_singleton.1 hb, addr, heap, List.getElem?_concat_length]

theorem Serves.adds {r : Addr × ObjectPool} (h : Serves p r) : Adds p r := by
  intro b hb
  cases h with
  | found _ values => exact .inl (values ▸ hb)
  | named _ _ _ values => exact .inl (values ▸ hb)
  | value _ _ _ _ values =>
    rw [values] at hb
    exact (List.mem_append.1 hb).imp_right List.mem_singleton.1

theorem serves_getOrCreate (p : ObjectPool) {ptr : Option Addr} {v : Value} {set : Addr → ObjectPool → ObjectPool}
    (hv : ∀ es, v ≠ .array es) (hset : ∀ a q, (set a q).heap = q.heap ∧ (set a q).values = q.values) :
    Serves p (p.getOrCreate ptr v set) := by
  unfold ObjectPool.getOrCreate
  cases ptr with
  | some a => exact .found rfl rfl
  | none =>
    obtain ⟨hheap, hvalues⟩ := hset (p.allocate v).1 (p.allocate v).2
    exact .named v hv hheap hvalues

theorem serves_getLiteral (p : ObjectPool) (l : Literal) : Serves p (p.getLiteral l) := by
  cases l with
  | undefined =>
    unfold ObjectPool.getLiteral ObjectPool.getUndefinedValue
    exact serves_getOrCreate p (by simp) fun _ _ => ⟨rfl, rfl⟩
  | null =>
    unfold ObjectPool.getLiteral ObjectPool.getNullValue
    exact serves_getOrCreate p (by simp) fun _ _ => ⟨rfl, rfl⟩
  | boolean b =>
    unfold ObjectPool.getLiteral ObjectPool.getBooleanValue
    exact serves_getOrCreate p (by simp) fun _ _ => ⟨rfl, rfl⟩
  | function id =>
    unfold ObjectPool.getLiteral ObjectPool.getFunctionValue
    exact serves_getOrCreate p (by simp) fun _ _ => ⟨rfl, rfl⟩
  | string s =>
    have hplain : (Literal.string s).Plain := by
      rintro id ⟨⟩
    unfold ObjectPool.getLiteral ObjectPool.getOrCreateStringValue
    dsimp only
    split
    · split
      · exact .found rfl rfl
      · exact .value _ hplain rfl rfl rfl
    · exact .value _ hplain rfl rfl rfl
  | integer i =>
    have hplain : (Literal.integer i).Plain := by
      rintro id ⟨⟩
    unfold ObjectPool.getLiteral ObjectPool.getOrCreateIntegerValue
    dsimp only
    split
    · split
      · exact .found rfl rfl
      · exact .value _ hplain rfl rfl rfl
    · exact .value _ hplain rfl rfl rfl
  | float x =>
    unfold ObjectPool.getLiteral ObjectPool.getOrCreateFloatValue
    dsimp only
    split
    · exact serves_getOrCreate p (by simp) fun _ _ => ⟨rfl, rfl⟩
    · split
      · split
        · exact serves_getOrCreate p (by simp) fun _ _ => ⟨rfl, rfl⟩
        · exact serves_getOrCreate p (by simp) fun _ _ => ⟨rfl, rfl⟩
      · exact .value (.float x) (by rintro id ⟨⟩) rfl rfl rfl

theorem serves_getPlaceholderValue (p : ObjectPool) (index : ℕ) : Serves p (p.getPlaceholderValue index) := by
  unfold ObjectPool.getPlaceholderValue
  extract_lets table q
  have hserves : Serves q (q.getOrCreate table[index]?.join (.placeholder index) fun a p =>
      { p with placeholderValues := p.placeholderValues.set index (some a) }) :=
    serves_getOrCreate q (by simp) fun _ _ => ⟨rfl, rfl⟩
  -- only the table of placeholders has grown
  cases hserves with
  | found heap values => exact .found heap values
  | named v hv heap values => exact .named v hv heap values
  | value l hl addr heap values => exact .value l hl addr heap values

theorem touches_getLiteral (p : ObjectPool) (l : Literal) : Touches p (p.getLiteral l) :=
  (serves_getLiteral p l).touches

theorem adds_getLiteral (p : ObjectPool) (l : Literal) : Adds p (p.getLiteral l) :=
  (serves_getLiteral p l).adds

theorem touches_getPlaceholderValue (p : ObjectPool) (index : ℕ) : Touches p (p.getPlaceholderValue index) :=
  (serves_getPlaceholderValue p index).touches

theorem adds_getPlaceholderValue (p : ObjectPool) (index : ℕ) : Adds p (p.getPlaceholderValue index) :=
  (serves_getPlaceholderValue p index).adds

/-! ## Pools to choose from -/

/-- The tables of the pool are right, and the values to choose from are plain. -/
structure PoolReady (p : ObjectPool) : Prop where
  ok : ObjectPoolOK p
  plain : ∀ a ∈ p.values, ∃ l : Literal, l.Plain ∧ p.heap[a]? = some (.literal l)

theorem PoolReady.give (h : PoolReady p) {v : Value} {r : Addr × ObjectPool} (hg : Gives p v r) (ht : Touches p r) :
    PoolReady r.2 := by
  refine ⟨hg.ok, fun a ha => ?_⟩
  rcases ht.values a ha with ha | ha
  · obtain ⟨l, hl, hget⟩ := h.plain a ha
    exact ⟨l, hl, hg.ext.get hget⟩
  · exact ha

theorem PoolReady.createArray (h : PoolReady p) : PoolReady p.createArrayValue.2 := by
  have hg := ObjectPool.createArrayValue_gives h.ok
  refine ⟨hg.ok, fun a ha => ?_⟩
  obtain ⟨l, hl, hget⟩ := h.plain a ha
  exact ⟨l, hl, hg.ext.get hget⟩

/-- Writing elements into an array. -/
theorem PoolReady.setArray (h : PoolReady p) {es : List Addr} (es' : List Addr)
    (ha : p.heap[a]? = some (.array es)) : PoolReady { p with heap := p.heap.set a (.array es') } := by
  refine ⟨h.ok.setArray es' ha, fun b hb => ?_⟩
  obtain ⟨l, hl, hget⟩ := h.plain b hb
  have hne : a ≠ b := by
    rintro rfl
    cases ha.symm.trans hget
  exact ⟨l, hl, by rwa [List.getElem?_set_ne hne]⟩

theorem PoolReady.push (h : PoolReady p) (a e : Addr) : PoolReady (p.push a e) := by
  unfold ObjectPool.push
  split
  · exact h.setArray _ ‹_›
  · exact h

theorem PoolReady.apply (h : PoolReady p) (op : PoolOp) : PoolReady (op.apply p).2 := by
  cases op with
  | get l =>
    obtain ⟨l', hg, -⟩ := ObjectPool.getLiteral_gives_blurred h.ok l
    exact h.give hg (touches_getLiteral p l)
  | createArray => exact h.createArray
  | getPlaceholder index =>
    exact h.give (ObjectPool.getPlaceholderValue_gives h.ok index) (touches_getPlaceholderValue p index)
  | clear => exact ⟨h.ok.clear, by rintro a ⟨⟩⟩

/-- A pool with values to choose from that satisfy `P`. -/
structure Supply (P : Value → Prop) (p : ObjectPool) : Prop where
  ready : PoolReady p
  values : ∀ a ∈ p.values, ∃ v, p.heap[a]? = some v ∧ P v

theorem PoolReady.supply (h : PoolReady p) (hP : ∀ l : Literal, l.Plain → P (.literal l)) : Supply P p := by
  refine ⟨h, fun a ha => ?_⟩
  obtain ⟨l, hl, hget⟩ := h.plain a ha
  exact ⟨_, hget, hP l hl⟩

theorem Supply.give (h : Supply P p) {v : Value} {r : Addr × ObjectPool} (hg : Gives p v r) (ht : Touches p r)
    (ha : Adds p r) (hP : P v) : Supply P r.2 := by
  refine ⟨h.ready.give hg ht, fun a hmem => ?_⟩
  rcases ha a hmem with hmem | rfl
  · obtain ⟨w, hw, hPw⟩ := h.values a hmem
    exact ⟨w, hg.ext.get hw, hPw⟩
  · exact ⟨v, hg.get, hP⟩

/-- Nothing new to choose from. -/
theorem Supply.same (h : Supply P p) (hq : PoolReady q) (hvalues : q.values = p.values)
    (hget : ∀ (a : Addr) (l : Literal), p.heap[a]? = some (.literal l) → q.heap[a]? = some (.literal l)) :
    Supply P q := by
  refine ⟨hq, fun a ha => ?_⟩
  rw [hvalues] at ha
  obtain ⟨v, hv, hPv⟩ := h.values a ha
  obtain ⟨l, -, hl⟩ := h.ready.plain a ha
  rw [hv] at hl
  cases hl
  exact ⟨_, hget a l hv, hPv⟩

theorem Supply.createArray (h : Supply P p) : Supply P p.createArrayValue.2 :=
  h.same h.ready.createArray rfl fun _ _ ha => (ObjectPool.createArrayValue_gives h.ready.ok).ext.get ha

theorem Supply.push (h : Supply P p) (a e : Addr) : Supply P (p.push a e) := by
  refine h.same (h.ready.push a e) ?_ fun b l hb => ?_
  · unfold ObjectPool.push
    split <;> rfl
  · by_cases hab : a = b
    · subst hab
      unfold ObjectPool.push
      rw [hb]
      exact hb
    · exact (ObjectPool.push_get_ne e hab).trans hb

/-- **Every pool that can be reached** is ready. -/
theorem ObjectPool.Reachable.ready (h : p.Reachable) : PoolReady p := by
  induction h with
  | new => exact ⟨new_ok, by rintro a ⟨⟩⟩
  | op op _ ih => exact ih.apply op
  | setArray es' _ ha ih => exact ih.setArray es' ha

end Caf
