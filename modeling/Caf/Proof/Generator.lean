import Caf.Proof.Made
import Caf.Proof.Random
import Caf.Spec.Sizes

/-!
# What is generated

A generated value consists of new arrays, each with one place, and of objects from the pool: plain
literals, functions of the root entry and placeholders for earlier calls, all within the limits of the options.
Generating one stops early only if the root entry leads to no function.

* `generateValue_supplied`: a value, with its levels, and the pool after it.
* `generateTestCase_ensures`: a test case.
-/

namespace Caf

open ObjectGraph Run Caf.Random

/-- `P` allows whatever is generated for call `n`. -/
structure Generates (store : CAFStore) (root n : ℕ) (P : Value → Prop) : Prop where
  literal : ∀ l : Literal, l.Plain → P (.literal l)
  function : ∀ d ∈ store.descendents root, ∀ f, store.func d = some f → P (.literal (.function f.id))
  placeholder : ∀ j < n, P (.placeholder j)
  array : ∀ es, P (.array es)

/-- `P` allows whatever is generated for call `n` within the limits of the options. Arrays are for more than one level. -/
structure GeneratesWithin (gen : TestCaseGenerator) (root n : ℕ) (P : Value → Prop) : Prop where
  literal : ∀ l : Literal, l.Plain → (∀ str, l = .string str → str.length ≤ gen.options.maxStringLength) →
    P (.literal l)
  function : ∀ d ∈ gen.store.descendents root, ∀ f, gen.store.func d = some f → P (.literal (.function f.id))
  placeholder : ∀ j < n, P (.placeholder j)
  array : 1 < gen.options.maxDepth → ∀ es, es.length ≤ gen.options.maxArrayLength → P (.array es)

theorem Generates.within {gen : TestCaseGenerator} {root n : ℕ} {P : Value → Prop} (h : Generates gen.store root n P) :
    GeneratesWithin gen root n P :=
  ⟨fun l hl _ => h.literal l hl, h.function, h.placeholder, fun _ es _ => h.array es⟩

/-- New values: their arrays are new and have one place each. -/
structure NewValues (P : Value → Prop) (p : ObjectPool) (as : List Addr) (q : ObjectPool) : Prop where
  ready : PoolReady q
  ext : p.Extends q
  made : ∃ T, Made P q.heap as T ∧ T.Nodup ∧ ∀ b ∈ T, p.heap.length ≤ b

/-- A new value. -/
abbrev NewValue (P : Value → Prop) (p : ObjectPool) (a : Addr) (q : ObjectPool) : Prop := NewValues P p [a] q

/-- A new value with at most `d` levels, and a pool whose values to choose from satisfy `P`. -/
structure Supplied (P : Value → Prop) (d : ℕ) (p : ObjectPool) (a : Addr) (q : ObjectPool) : Prop where
  new : NewValue P p a q
  supply : Supply P q
  levels : LevelsLE q.heap d a

/-- The levels of a value that is generated at some depth. Without elements there is one. -/
def generatedLevels (o : Options) (depth : ℕ) : ℕ :=
  if o.maxArrayLength = 0 then 1 else max 1 (o.maxDepth + 1 - depth)

/-- The errors of a generator: only those of a root entry without functions. -/
def Stuck (store : CAFStore) (root : ℕ) (e : Error) : Prop := e ≠ .outOfFuel ∧ ¬ store.HasFunctions root

variable {gen : TestCaseGenerator} {store : CAFStore} {root n : ℕ} {P : Value → Prop} {p q : ObjectPool}
  {a : Addr} {s : Fuzzer}

/-! ## Levels -/

section Levels

variable {h h' : Heap} {m : ℕ}

theorem LevelsLE.mono (ha : LevelsLE h n a) (hnm : n ≤ m) : LevelsLE h m a := by
  induction ha generalizing m with
  | flat ha hne =>
    obtain ⟨k, rfl⟩ := Nat.exists_eq_add_of_le' (Nat.le_trans (Nat.succ_pos _) hnm)
    exact .flat ha hne
  | array ha _ ih =>
    obtain ⟨k, rfl⟩ := Nat.exists_eq_add_of_le' (Nat.le_trans (Nat.succ_pos _) hnm)
    exact .array ha fun e he => ih e he (by omega)

/-- Only the objects that can be reached matter. -/
theorem LevelsLE.transfer (ha : LevelsLE h n a)
    (hsame : ∀ b v, Reach h.graph a b → h[b]? = some v → h'[b]? = some v) : LevelsLE h' n a := by
  induction ha with
  | flat ha hne => exact .flat (hsame _ _ .refl ha) hne
  | array ha _ ih =>
    refine .array (hsame _ _ .refl ha) fun e he => ih e he fun b v hb hv => ?_
    exact hsame b v (.head (succ_iff.2 ⟨_, ha, he⟩) hb) hv

theorem LevelsLE.grow (ha : LevelsLE h n a) (hx : h <+: h') : LevelsLE h' n a :=
  ha.transfer fun _ _ _ hb => getElem?_grows hx hb

theorem LevelsLE.elements (ha : LevelsLE h (n + 1) a) {es : List Addr} (hes : h[a]? = some (.array es)) :
    ∀ e ∈ es, LevelsLE h n e := by
  cases ha with
  | flat hv hne =>
    rw [hes] at hv
    exact absurd (Option.some.inj hv).symm (hne es)
  | array hfs helems =>
    rw [hes] at hfs
    cases hfs
    exact helems

/-- Every value has a level. -/
theorem LevelsLE.pos (ha : LevelsLE h n a) : 0 < n := by
  cases ha with
  | flat _ _ => exact Nat.succ_pos _
  | array _ _ => exact Nat.succ_pos _

/-- An array without elements has one level. -/
theorem LevelsLE.empty (ha : h[a]? = some (.array [])) : LevelsLE h 1 a := .array ha (by simp)

end Levels

/-! ## New values -/

theorem NewValue.flat {v : Value} {r : Addr × ObjectPool} (h : PoolReady p) (hg : Gives p v r) (ht : Touches p r)
    (hne : ∀ es, v ≠ .array es) (hP : P v) : NewValue P p r.1 r.2 :=
  ⟨h.give hg ht, hg.ext, [], .flat hg.get hne hP .nil, List.nodup_nil, by simp⟩

/-- An object without elements has one level. -/
theorem Supplied.flat {v : Value} {r : Addr × ObjectPool} (h : Supply P p) (hg : Gives p v r) (ht : Touches p r)
    (ha : Adds p r) (hne : ∀ es, v ≠ .array es) (hP : P v) : Supplied P 1 p r.1 r.2 :=
  ⟨.flat h.ready hg ht hne hP, h.give hg ht ha hP, .flat hg.get hne⟩

theorem Supplied.mono {d d' : ℕ} (h : Supplied P d p a q) (hd : d ≤ d') : Supplied P d' p a q :=
  ⟨h.new, h.supply, h.levels.mono hd⟩

theorem NewValues.nil (h : PoolReady p) : NewValues P p [] p :=
  ⟨h, ObjectPool.Extends.refl p, [], .nil, List.nodup_nil, by simp⟩

/-- Values that are made later have other arrays. -/
theorem NewValues.append {r : ObjectPool} {as bs : List Addr} (h : NewValues P p as q) (h' : NewValues P q bs r) :
    NewValues P p (as ++ bs) r := by
  obtain ⟨T, hm, hT, hnew⟩ := h.made
  obtain ⟨S, hm', hS, hnew'⟩ := h'.made
  refine ⟨h'.ready, h.ext.trans h'.ext, T ++ S, (hm.grow h'.ext).append hm', ?_, fun b hb => ?_⟩
  · refine List.nodup_append.2 ⟨hT, hS, fun b hb c hc hbc => ?_⟩
    subst hbc
    exact absurd (hm.lt hb) (Nat.not_lt.2 (hnew' b hc))
  · rcases List.mem_append.1 hb with hb | hb
    · exact hnew b hb
    · exact Nat.le_trans h.ext.length_le (hnew' b hb)

theorem NewValues.holds {as : List Addr} (h : NewValues P p as q) (ha : a ∈ as) : q.heap.Holds P a := by
  obtain ⟨T, hm, -⟩ := h.made
  exact hm.holds ha

theorem Literal.Plain.of_blurred {l l' : Literal} (h : l.Plain) (hl : l'.blurred = l.blurred) : l'.Plain := by
  rintro id rfl
  cases l with
  | function id' => exact h id' rfl
  | float x =>
    simp only [Literal.blurred] at hl
    split at hl
    · cases hl
    · split at hl <;> cases hl
  | undefined => cases hl
  | null => cases hl
  | boolean b => cases hl
  | string s => cases hl
  | integer i => cases hl

/-- Only a string stands for a string. -/
theorem Literal.eq_string_of_blurred {l : Literal} {str : StdString} (hl : (Literal.string str).blurred = l.blurred) :
    l = .string str := by
  cases l with
  | float x =>
    simp only [Literal.blurred] at hl
    split at hl
    · cases hl
    · split at hl <;> cases hl
  | string str' =>
    cases hl
    rfl
  | undefined => cases hl
  | null => cases hl
  | boolean b => cases hl
  | function id => cases hl
  | integer i => cases hl

/-- The pool gives a placeholder. -/
theorem newValue_placeholder (h : PoolReady p) {j : ℕ} (hP : P (.placeholder j)) :
    NewValue P p (p.getPlaceholderValue j).1 (p.getPlaceholderValue j).2 := by
  refine .flat h (ObjectPool.getPlaceholderValue_gives h.ok j) (touches_getPlaceholderValue p j) ?_ hP
  intro es hes
  cases hes

theorem ensures_givePool {E : Error → Prop} {f : ObjectPool → Addr × ObjectPool} {R : Addr → ObjectPool → Prop}
    (h : R (f s.pool).1 (f s.pool).2) : Ensures E (givePool f) s fun a s' => R a s'.pool := ⟨h⟩

/-! ## Functions -/

theorem descendents_eq {i : ℕ} {entry : Entry} (h : store.entries[i]? = some entry) :
    store.descendents i = entry.descendents := by
  unfold CAFStore.descendents
  rw [h]
  rfl

theorem func_eq_of_entry {i : ℕ} {entry : Entry} (h : store.entries[i]? = some entry) :
    store.func i = entry.func := by
  unfold CAFStore.func
  rw [h]
  rfl

theorem entryAt_ensures {E : Error → Prop} {i : ℕ} (hE : store.entries[i]? = none → E .outOfRange) :
    Ensures E (store.entryAt i) s fun entry s' => s' = s ∧ store.entries[i]? = some entry := by
  cases hentry : store.entries[i]? with
  | none =>
    refine Ensures.of_error (e := .outOfRange) ?_ (hE hentry)
    unfold CAFStore.entryAt CAFStore.getEntry
    rw [hentry]
    rfl
  | some entry =>
    refine Ensures.of_eq (a := entry) ?_ ⟨rfl, rfl⟩
    unfold CAFStore.entryAt CAFStore.getEntry
    rw [hentry]
    rfl

/-- **A function of the root entry.** -/
theorem selectFunction_ensures : Ensures (Stuck store root) (store.selectFunction root) s fun id s' =>
    s'.pool = s.pool ∧ ∃ d ∈ store.descendents root, ∃ f, store.func d = some f ∧ f.id = id := by
  unfold CAFStore.selectFunction
  have hroot : store.entries[root]? = none → Stuck store root .outOfRange := by
    intro hnone
    refine ⟨by decide, fun hf => hf.1 ?_⟩
    unfold CAFStore.descendents
    rw [hnone]
    rfl
  refine (entryAt_ensures hroot).bind ?_
  rintro entry s ⟨rfl, hentry⟩
  have hdesc := descendents_eq hentry
  by_cases hne : entry.descendents = []
  · -- below the entry is no function to select
    refine Ensures.bind (P := fun _ _ => False) ?_ ?_
    · unfold CAFStore.selectDescendent Random.select
      rw [if_pos (by simp [hne])]
      exact Ensures.throw ⟨by decide, fun hf => hf.1 (hdesc.trans hne)⟩
    · rintro _ _ ⟨⟩
  · refine ensures_draw (Draws.select hne) fun d rnd hd => ?_
    rw [← hdesc] at hd
    have hmissing : store.func d = none → ¬ store.HasFunctions root := by
      intro hnone hf
      have := hf.2 d hd
      rw [hnone] at this
      cases this
    have hdescendent : store.entries[d]? = none → Stuck store root .outOfRange := by
      intro hnone
      refine ⟨by decide, hmissing ?_⟩
      unfold CAFStore.func
      rw [hnone]
      rfl
    refine (entryAt_ensures hdescendent).bind ?_
    rintro e s' ⟨rfl, he⟩
    have hfunc := func_eq_of_entry he
    cases hef : e.func with
    | none =>
      refine Ensures.bind (P := fun _ _ => False) ?_ ?_
      · refine Ensures.of_error (e := .badPointer) ?_ ⟨by decide, hmissing (hfunc.trans hef)⟩
        unfold Entry.getFunction
        rw [hef]
        rfl
      · rintro _ _ ⟨⟩
    | some f =>
      refine Ensures.bind (P := fun f' s' => f' = f ∧ s'.pool = s.pool) ?_ ?_
      · have hget : (liftM e.getFunction : FuzzM Function) { s with rnd := rnd } = .ok (f, { s with rnd := rnd }) := by
          unfold Entry.getFunction
          rw [hef]
          rfl
        exact .of_eq hget ⟨rfl, rfl⟩
      · rintro _ s' ⟨rfl, hs'⟩
        exact .pure ⟨hs', d, hd, _, hfunc.trans hef, rfl⟩

/-! ## Values without elements -/

theorem generateFunctionValue_supplied (hP : GeneratesWithin gen root n P) (h : Supply P s.pool) :
    Ensures (Stuck gen.store root) (gen.generateFunctionValue root) s fun a s' => Supplied P 1 s.pool a s'.pool := by
  refine selectFunction_ensures.bind ?_
  rintro id s' ⟨hpool, d, hd, f, hf, rfl⟩
  refine ensures_givePool ?_
  rw [hpool]
  refine .flat h (ObjectPool.getFunctionValue_gives h.ready.ok f.id) (touches_getLiteral s.pool (.function f.id))
    (adds_getLiteral s.pool (.function f.id)) ?_ (hP.function d hd f hf)
  intro es hes
  cases hes

section Scalars

variable {E : Error → Prop}

/-- **The pool gives a plain literal**, or one that stands for it. -/
theorem literal_supplied (h : Supply P s.pool) (rnd : ℕ → ℕ) {l : Literal}
    (hP : ∀ l' : Literal, l'.blurred = l.blurred → P (.literal l')) :
    Ensures E (givePool (·.getLiteral l)) { s with rnd := rnd } fun a s' => Supplied P 1 s.pool a s'.pool := by
  obtain ⟨l', hg, hblur⟩ := ObjectPool.getLiteral_gives_blurred h.ready.ok l
  refine ensures_givePool (Supplied.flat h hg (touches_getLiteral s.pool l) (adds_getLiteral s.pool l) ?_ (hP l' hblur))
  intro es hes
  cases hes

/-- What stands for a plain literal within the limits is one, too. -/
theorem GeneratesWithin.blurred (hP : GeneratesWithin gen root n P) {l : Literal} (hl : l.Plain)
    (hstring : ∀ str, l = .string str → str.length ≤ gen.options.maxStringLength) :
    ∀ l' : Literal, l'.blurred = l.blurred → P (.literal l') := by
  intro l' hblur
  refine hP.literal l' (hl.of_blurred hblur) ?_
  rintro str rfl
  exact hstring str (Literal.eq_string_of_blurred hblur)

theorem GeneratesWithin.integer (hP : GeneratesWithin gen root n P) (i : Int32) :
    ∀ l' : Literal, l'.blurred = (Literal.integer i).blurred → P (.literal l') :=
  hP.blurred (by rintro id ⟨⟩) (by rintro str ⟨⟩)

theorem GeneratesWithin.float (hP : GeneratesWithin gen root n P) (x : Double) :
    ∀ l' : Literal, l'.blurred = (Literal.float x).blurred → P (.literal l') :=
  hP.blurred (by rintro id ⟨⟩) (by rintro str ⟨⟩)

theorem GeneratesWithin.boolean (hP : GeneratesWithin gen root n P) (b : Bool) :
    ∀ l' : Literal, l'.blurred = (Literal.boolean b).blurred → P (.literal l') :=
  hP.blurred (by rintro id ⟨⟩) (by rintro str ⟨⟩)

theorem generateInteger_supplied (hP : GeneratesWithin gen root n P) (h : Supply P s.pool) :
    Ensures E TestCaseGenerator.generateInteger s fun a s' => Supplied P 1 s.pool a s'.pool := by
  unfold TestCaseGenerator.generateInteger
  refine ensures_draw (Draws.withProbability _) fun b rnd _ => ?_
  cases b
  · exact ensures_draw (Draws.nextInt (by decide)) fun value rnd _ => literal_supplied h rnd (hP.integer _)
  · exact ensures_draw (Draws.select (by decide)) fun value rnd _ => literal_supplied h rnd (hP.integer _)

theorem generateFloat_supplied (hP : GeneratesWithin gen root n P) (h : Supply P s.pool) :
    Ensures E TestCaseGenerator.generateFloat s fun a s' => Supplied P 1 s.pool a s'.pool := by
  unfold TestCaseGenerator.generateFloat
  refine ensures_draw (Draws.withProbability _) fun b rnd _ => ?_
  cases b
  · exact ensures_draw (Draws.nextReal _) fun value rnd _ => literal_supplied h rnd (hP.float _)
  · exact ensures_draw (Draws.select (by decide)) fun value rnd _ => literal_supplied h rnd (hP.float _)

end Scalars

/-- **A value without elements.** Placeholders are asked for only when there are earlier calls. -/
theorem generateScalar_supplied (hP : GeneratesWithin gen root n P) (h : Supply P s.pool) {kind : ValueKind}
    (harray : kind ≠ .array) (hplaceholder : kind = .placeholder → n ≠ 0) :
    Ensures (Stuck gen.store root) (gen.generateScalar root ⟨n⟩ kind) s fun a s' => Supplied P 1 s.pool a s'.pool := by
  cases kind with
  | undefined =>
    exact literal_supplied h s.rnd (l := .undefined) (hP.blurred (by rintro id ⟨⟩) (by rintro str ⟨⟩))
  | null => exact literal_supplied h s.rnd (l := .null) (hP.blurred (by rintro id ⟨⟩) (by rintro str ⟨⟩))
  | function => exact generateFunctionValue_supplied hP h
  | boolean => exact ensures_draw (Draws.next (Nat.zero_le 1)) fun value rnd _ => literal_supplied h rnd (hP.boolean _)
  | string =>
    refine ensures_draw (Draws.nextString (Nat.zero_le _) (by decide)) fun str rnd hstr => ?_
    refine literal_supplied h rnd (l := .string str) (hP.blurred (by rintro id ⟨⟩) ?_)
    rintro str' ⟨⟩
    exact hstr.2
  | integer => exact generateInteger_supplied hP h
  | float => exact generateFloat_supplied hP h
  | placeholder =>
    refine ensures_draw (Draws.next (Nat.zero_le _)) fun j rnd hj => ?_
    have hlt := lastIndex_lt (hplaceholder rfl) hj.2
    refine ensures_givePool (Supplied.flat h (ObjectPool.getPlaceholderValue_gives h.ready.ok j)
      (touches_getPlaceholderValue s.pool j) (adds_getPlaceholderValue s.pool j) ?_ (hP.placeholder j hlt))
    intro es hes
    cases hes
  | array => exact absurd rfl harray

/-! ## Values -/

/-- **The new array at `v`** while elements with at most `d` levels are pushed onto it: there are `k` so far. -/
structure Building (P : Value → Prop) (d k : ℕ) (p : ObjectPool) (v : Addr) (q : ObjectPool) : Prop where
  supply : Supply P q
  ext : p.Extends q
  addr : p.heap.length = v
  elements : ∃ es T, q.heap[v]? = some (.array es) ∧ es.length = k ∧ Made P q.heap es T ∧ T.Nodup ∧ (∀ b ∈ T, v < b) ∧
    ∀ e ∈ es, LevelsLE q.heap d e

theorem Building.start {d : ℕ} (h : Supply P p) : Building P d 0 p p.heap.length p.createArrayValue.2 := by
  have hg := ObjectPool.createArrayValue_gives h.ready.ok
  exact ⟨h.createArray, hg.ext, rfl, [], [], hg.get, rfl, .nil, List.nodup_nil, by simp, by simp⟩

/-- **One more element** for a new array. -/
theorem Building.push {p₀ : ObjectPool} {d k : ℕ} {v e : Addr} (h : Building P d k p₀ v p) (he : Supplied P d p e q) :
    Building P d (k + 1) p₀ v (q.push v e) := by
  obtain ⟨es, T, hes, hlen, hm, hT, hgt, hlevels⟩ := h.elements
  obtain ⟨T₁, hm₁, hT₁, hnew⟩ := he.new.made
  have hx := he.new.ext
  have hlt : v < p.heap.length := (List.getElem?_eq_some_iff.1 hes).1
  have hgt₁ : ∀ b ∈ T₁, v < b := fun b hb => Nat.lt_of_lt_of_le hlt (hnew b hb)
  have hes' := hx.get hes
  have hmade := (hm.grow hx).append hm₁
  have hall : ∀ b ∈ T ++ T₁, v < b := by
    intro b hb
    rcases List.mem_append.1 hb with hb | hb
    · exact hgt b hb
    · exact hgt₁ b hb
  -- the new array occurs in none of its elements
  have hflat : ∀ (b : Addr) (w : Value), q.heap[b]? = some w → (∀ es, w ≠ .array es) →
    (q.push v e).heap[b]? = some w := by
    intro b w hb hne
    have hvb : v ≠ b := by
      rintro rfl
      rw [hes'] at hb
      exact hne es (Option.some.inj hb).symm
    rw [ObjectPool.push_get_ne e hvb, hb]
  refine ⟨he.supply.push v e, push_extends (h.ext.trans hx) (Nat.le_of_eq h.addr), h.addr, es ++ [e], T ++ T₁,
    ObjectPool.push_get_self e hes', by rw [List.length_append, hlen]; rfl, ?_, ?_, hall, fun c hc => ?_⟩
  · exact hmade.transfer hflat fun b hb => ObjectPool.push_get_ne e (Nat.ne_of_lt (hall b hb))
  · refine List.nodup_append.2 ⟨hT, hT₁, fun b hb c hc hbc => ?_⟩
    subst hbc
    exact absurd (hm.lt hb) (Nat.not_lt.2 (hnew b hc))
  · have hcq : LevelsLE q.heap d c := by
      rcases List.mem_append.1 hc with hc | hc
      · exact (hlevels c hc).grow hx
      · exact List.mem_singleton.1 hc ▸ he.levels
    refine hcq.transfer fun b w hb hw => ?_
    by_cases harray : ∃ fs, w = .array fs
    · obtain ⟨fs, rfl⟩ := harray
      have hmem := hmade.mem_of_reach hc hb hw
      exact (ObjectPool.push_get_ne e (Nat.ne_of_lt (hall b hmem))).trans hw
    · exact hflat b w hw fun fs hfs => harray ⟨fs, hfs⟩

/-- The array is finished. -/
theorem Building.finish {d k : ℕ} {v : Addr} (h : Building P d k p v q) (hP : ∀ es, es.length = k → P (.array es)) :
    Supplied P (d + 1) p v q := by
  obtain ⟨es, T, hes, hlen, hm, hT, hgt, hlevels⟩ := h.elements
  refine ⟨⟨h.supply.ready, h.ext, v :: T, hm.singleton hes (hP es hlen), ?_, fun b hb => ?_⟩, h.supply,
    .array hes hlevels⟩
  · exact List.nodup_cons.2 ⟨fun hmem => Nat.lt_irrefl v (hgt v hmem), hT⟩
  · rw [h.addr]
    rcases List.mem_cons.1 hb with rfl | hb
    · exact Nat.le_refl _
    · exact Nat.le_of_lt (hgt b hb)

/-- A value is chosen from the pool only if it has one. -/
theorem chooseExisting_draws (s : Fuzzer) : ∃ choose rnd,
    TestCaseGenerator.chooseExisting s = .ok (choose, { s with rnd := rnd }) ∧
      (choose = true → s.pool.values ≠ []) := by
  unfold TestCaseGenerator.chooseExisting
  split
  · exact ⟨false, s.rnd, rfl, by intro hc; cases hc⟩
  · rename_i hne
    obtain ⟨choose, rnd, hdraw, -⟩ := Draws.withProbability chooseExistingProb s
    exact ⟨choose, rnd, hdraw, fun _ => by simpa using hne⟩

/-- The kinds that are drawn. -/
theorem generateValueKind_draws (arrays : Bool) (n : ℕ) :
    Draws (TestCaseGenerator.generateValueKind arrays (GeneratePlaceholderValueParams.shouldGenerate ⟨n⟩)) fun kind =>
      (kind = .array → arrays = true) ∧ (kind = .placeholder → n ≠ 0) := by
  unfold TestCaseGenerator.generateValueKind GeneratePlaceholderValueParams.shouldGenerate
  refine (Draws.select ?_).mono fun kind hmem => ⟨?_, ?_⟩
  · split <;> split <;> simp
  · rintro rfl
    by_contra harrays
    simp only [harrays] at hmem
    split at hmem <;> simp at hmem
  · rintro rfl hn
    rw [hn, if_neg (by decide)] at hmem
    split at hmem <;> simp at hmem

/-- A value of the pool. -/
theorem selectValue_supplied {E : Error → Prop} (h : Supply P s.pool) (hne : s.pool.values ≠ []) :
    Ensures E ObjectPool.selectValue s fun a s' => Supplied P 1 s.pool a s'.pool := by
  obtain ⟨a, rnd, hmem, hselect⟩ := select_mem s hne
  obtain ⟨l, -, hget⟩ := h.ready.plain a hmem
  obtain ⟨v, hv, hPv⟩ := h.values a hmem
  have hflat : ∀ es, v ≠ .array es := by
    rintro es rfl
    cases hget.symm.trans hv
  refine Ensures.of_eq hselect
    ⟨⟨h.ready, ObjectPool.Extends.refl _, [], ?_, List.nodup_nil, by simp⟩, h, .flat hv hflat⟩
  exact .flat hv hflat hPv .nil

/-- **An array**, whose elements are pushed onto it one after the other. -/
theorem generateArray_supplied {E : Error → Prop} {generate : FuzzM Addr} {size d : ℕ}
    (hP : ∀ es, es.length = size → P (.array es)) (h : Supply P s.pool)
    (hgenerate : size ≠ 0 → ∀ s, Supply P s.pool → Ensures E generate s fun a s' => Supplied P d s.pool a s'.pool) :
    Ensures E (do
      let value ← givePool (·.createArrayValue)
      forM (List.range size) fun _ => do
        let element ← generate
        TestCaseGenerator.pushElement value element
      return value) s fun a s' => Supplied P (d + 1) s.pool a s'.pool := by
  refine Ensures.bind (P := fun v s' => s.heap.length = v ∧ s'.pool = s.pool.createArrayValue.2) ⟨rfl, rfl⟩ ?_
  rintro v s₁ ⟨rfl, hs₁⟩
  have hloop : Ensures E (forM (List.range size) fun _ => do
      let element ← generate
      TestCaseGenerator.pushElement s.heap.length element) s₁ fun _ s' =>
        Building P d size s.pool s.heap.length s'.pool := by
    refine Ensures.forM_range (fun k (s' : Fuzzer) => Building P d k s.pool s.heap.length s'.pool) ?_ ?_
    · rw [hs₁]
      exact .start h
    · intro k s' hk hbuilding
      refine (hgenerate (by omega) s' hbuilding.supply).bind fun element s'' he => ?_
      exact ⟨hbuilding.push he⟩
  refine hloop.bind fun _ s' hbuilding => ?_
  exact .pure (hbuilding.finish hP)

theorem generatedLevels_pos (o : Options) (depth : ℕ) : 1 ≤ generatedLevels o depth := by
  unfold generatedLevels
  split
  · exact Nat.le_refl 1
  · exact Nat.le_max_left 1 _

/-- The elements of an array have one level less. -/
theorem generatedLevels_succ {o : Options} {depth : ℕ} (harray : o.maxArrayLength ≠ 0) (hdepth : depth < o.maxDepth) :
    generatedLevels o (depth + 1) + 1 = generatedLevels o depth := by
  unfold generatedLevels
  rw [if_neg harray, if_neg harray]
  omega

/-- **A value**, by induction on the fuel: the depth grows with every level, up to `MaxDepth`. -/
theorem generateValueAt_supplied (hP : GeneratesWithin gen root n P) {fuel depth : ℕ} (h : Supply P s.pool)
    (hfuel : gen.options.maxDepth < fuel + depth) (hpos : fuel ≠ 0) (hdepth : 1 ≤ depth) :
    Ensures (Stuck gen.store root) (gen.generateValueAt fuel root ⟨n⟩ depth) s fun a s' =>
      Supplied P (generatedLevels gen.options depth) s.pool a s'.pool := by
  induction fuel generalizing depth s with
  | zero => exact absurd rfl hpos
  | succ fuel ih =>
    unfold TestCaseGenerator.generateValueAt
    obtain ⟨choose, rnd, hchoose, hvalues⟩ := chooseExisting_draws s
    refine Ensures.bind (P := fun c s' => c = choose ∧ s' = { s with rnd := rnd }) (.of_eq hchoose ⟨rfl, rfl⟩) ?_
    rintro _ _ ⟨rfl, rfl⟩
    have hone := generatedLevels_pos gen.options depth
    split
    · exact (selectValue_supplied (s := { s with rnd := rnd }) h (hvalues ‹_›)).mono fun _ _ hv => hv.mono hone
    refine ensures_draw (generateValueKind_draws _ n) fun kind rnd' hk => ?_
    by_cases harray : kind = .array
    · rw [if_pos harray]
      have hlt : depth < gen.options.maxDepth := by simpa using hk.1 harray
      refine ensures_draw (Draws.next (Nat.zero_le _)) fun size rnd'' hsize => ?_
      have hPs : ∀ es : List Addr, es.length = size → P (.array es) := fun es hes =>
        hP.array (by omega) es (hes ▸ hsize.2)
      by_cases hmax : gen.options.maxArrayLength = 0
      · -- there are no elements
        refine (generateArray_supplied (s := { s with rnd := rnd'' }) (d := 0) hPs h ?_).mono fun _ _ hv => hv.mono hone
        intro hne
        omega
      · have hlevels := generatedLevels_succ hmax hlt
        rw [← hlevels]
        exact generateArray_supplied (s := { s with rnd := rnd'' }) hPs h fun _ s hs =>
          ih hs (by omega) (by omega) (by omega)
    · rw [if_neg harray]
      exact (generateScalar_supplied (s := { s with rnd := rnd' }) hP h harray hk.2).mono fun _ _ hv => hv.mono hone

/-- **A value**, with no more levels than `MaxDepth`, or one. -/
theorem generateValue_supplied (hP : GeneratesWithin gen root n P) (h : Supply P s.pool) :
    Ensures (Stuck gen.store root) (gen.generateValue root ⟨n⟩) s fun a s' =>
      Supplied P (generatedLevels gen.options 1) s.pool a s'.pool :=
  generateValueAt_supplied hP h (by omega) (by omega) (Nat.le_refl 1)

theorem generateValue_ensures (hP : Generates gen.store root n P) (h : PoolReady s.pool) :
    Ensures (Stuck gen.store root) (gen.generateValue root ⟨n⟩) s fun a s' => NewValue P s.pool a s'.pool :=
  (generateValue_supplied hP.within (h.supply hP.literal)).mono fun _ _ hv => hv.new

/-! ## Calls -/

/-- The callee of the call is a function of the root entry. -/
def CallsInto (store : CAFStore) (root : ℕ) (call : FunctionCall) : Prop :=
  ∃ d ∈ store.descendents root, ∃ f, store.func d = some f ∧ f.id = call.funcId

theorem generateThis_ensures (hP : Generates gen.store root n P) (h : PoolReady s.pool) :
    Ensures (Stuck gen.store root) (gen.generateThis root ⟨n⟩) s fun thisValue s' =>
      NewValues P s.pool thisValue.toList s'.pool := by
  unfold TestCaseGenerator.generateThis
  refine ensures_draw (Draws.withProbability _) fun b rnd _ => ?_
  cases b
  · exact .pure (NewValues.nil h)
  · exact (generateValue_ensures (s := { s with rnd := rnd }) hP h).map

/-- **A call** with new values. -/
theorem generateFunctionCall_ensures (hP : Generates gen.store root n P) (h : PoolReady s.pool) :
    Ensures (Stuck gen.store root) (gen.generateFunctionCall n root) s fun call s' =>
      NewValues P s.pool call.roots s'.pool ∧ CallsInto gen.store root call := by
  unfold TestCaseGenerator.generateFunctionCall
  refine selectFunction_ensures.bind ?_
  rintro calleeId s₀ ⟨hpool, hcallee⟩
  have hparams : (if n ≠ 0 then GeneratePlaceholderValueParams.setCurrentCallIndex {} n else {}) = ⟨n⟩ := by
    split
    · rfl
    · rename_i hn
      rw [not_not.1 hn]
  dsimp only
  rw [hparams]
  rw [← hpool] at h ⊢
  refine (generateThis_ensures hP h).bind fun thisValue s₁ hthis => ?_
  refine ensures_draw (Draws.withProbability _) fun ctor rnd _ => ?_
  refine ensures_draw (Draws.next (Nat.zero_le 5)) fun argsCount rnd' _ => ?_
  have hargs : Ensures (Stuck gen.store root) ((List.range argsCount).mapM fun _ => gen.generateValue root ⟨n⟩)
      { s₁ with rnd := rnd' } fun args s' => args.length = (List.range argsCount).length ∧
        NewValues P s₁.pool args s'.pool := by
    refine Ensures.mapM (fun args (s' : Fuzzer) => NewValues P s₁.pool args s'.pool) (NewValues.nil hthis.ready) ?_
    intro done i s' _ hdone
    exact (generateValue_ensures hP hdone.ready).mono fun a s'' ha => hdone.append ha
  refine hargs.bind fun args s₂ hargs => ?_
  exact .pure ⟨hthis.append hargs.2, hcallee⟩

/-- New calls, of which call `i` satisfies `P i`. -/
structure NewCalls (store : CAFStore) (root : ℕ) (P : ℕ → Value → Prop) (p : ObjectPool) (calls : List FunctionCall)
    (q : ObjectPool) : Prop where
  values : NewValues (fun _ => True) p (calls.flatMap FunctionCall.roots) q
  holds : ∀ (i : ℕ) call, calls[i]? = some call → ∀ a ∈ call.roots, q.heap.Holds (P i) a
  callees : ∀ call ∈ calls, CallsInto store root call

/-- **A test case.** -/
theorem generateTestCase_ensures {P : ℕ → Value → Prop} (hP : ∀ i, Generates gen.store root i (P i))
    (h : PoolReady s.pool) (hmax : 1 ≤ gen.options.maxCalls) :
    Ensures (Stuck gen.store root) (gen.generateTestCase root) s fun tc s' =>
      tc.storeRootEntryIndex = root ∧ tc.calls ≠ [] ∧ NewCalls gen.store root P s.pool tc.calls s'.pool := by
  unfold TestCaseGenerator.generateTestCase
  refine ensures_draw (Draws.next hmax) fun callsCount rnd hcount => ?_
  have hcalls : Ensures (Stuck gen.store root)
      ((List.range callsCount).mapM fun i => gen.generateFunctionCall i root) { s with rnd := rnd } fun calls s' =>
        calls.length = (List.range callsCount).length ∧ NewCalls gen.store root P s.pool calls s'.pool := by
    refine Ensures.mapM (fun calls (s' : Fuzzer) => NewCalls gen.store root P s.pool calls s'.pool) ?_ ?_
    · exact ⟨NewValues.nil h, by simp, by simp⟩
    · intro done i s' hi hdone
      have hid : i = done.length := by
        rw [List.getElem?_eq_some_iff] at hi
        obtain ⟨hlt, rfl⟩ := hi
        exact List.getElem_range hlt
      subst hid
      refine (generateFunctionCall_ensures (hP done.length) hdone.values.ready).mono ?_
      rintro call s'' ⟨hnew, hcallee⟩
      refine ⟨?_, fun k call' hk a ha => ?_, fun call' hmem => ?_⟩
      · rw [List.flatMap_append]
        refine hdone.values.append ⟨hnew.ready, hnew.ext, ?_⟩
        obtain ⟨T, hm, hT, hgt⟩ := hnew.made
        exact ⟨T, by simpa using hm.mono fun _ _ => trivial, hT, hgt⟩
      · rcases getElem?_concat hk with hk | ⟨rfl, rfl⟩
        · exact (hdone.holds k call' hk a ha).grow hnew.ext
        · exact hnew.holds ha
      · rcases List.mem_append.1 hmem with hmem | hmem
        · exact hdone.callees call' hmem
        · rw [List.mem_singleton.1 hmem]
          exact hcallee
  refine hcalls.bind ?_
  rintro calls s' ⟨hlen, hnew⟩
  refine .pure ⟨rfl, ?_, hnew⟩
  rintro rfl
  rw [List.length_range] at hlen
  have : callsCount = 0 := hlen.symm
  omega

end Caf
