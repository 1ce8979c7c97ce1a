import Caf.Proof.Generator

/-!
# What becomes of a mutated value

A mutated value is a generated one, the value itself, or a new array with the elements of the old one, of
which one may be mutated, missing or new. No array is written to.

* `Mutated`: what a value may become.
* `Mutated.holds`, `Mutated.made`: what it keeps.
* `mutateValueAt_remade`: what is needed for this, and which sizes and levels are kept.
-/

namespace Caf

open ObjectGraph Run Caf.Random

/-- What `a` may become, with the new arrays in it. New arrays are at `N` and above. -/
inductive Mutated (N : ℕ) (P : Value → Prop) (h : Heap) : Addr → Addr → List Addr → Prop
  | generated {a a' T} : Made P h [a'] T → T.Nodup → (∀ b ∈ T, N ≤ b) → Mutated N P h a a' T
  | same {a} : Mutated N P h a a []
  | rearranged {a a' es es'} : h[a]? = some (.array es) → h[a']? = some (.array es') → es'.Subperm es → N ≤ a' →
      Mutated N P h a a' [a']
  | pushed {a a' es e T} : h[a]? = some (.array es) → h[a']? = some (.array (es ++ [e])) → Made P h [e] T → T.Nodup →
      (∀ b ∈ T, N ≤ b) → N ≤ a' → a' ∉ T → Mutated N P h a a' (a' :: T)
  | element {a a' l e r e' T} : h[a]? = some (.array (l ++ e :: r)) → h[a']? = some (.array (l ++ e' :: r)) →
      Mutated N P h e e' T → N ≤ a' → a' ∉ T → Mutated N P h a a' (a' :: T)

variable {N : ℕ} {P Q : Value → Prop} {h h' : Heap} {a a' : Addr} {T S : List Addr}

/-- An array of such values. -/
theorem Heap.Holds.array {es : List Addr} (ha : h[a]? = some (.array es)) (hP : P (.array es))
    (hes : ∀ e ∈ es, h.Holds P e) : h.Holds P a := by
  intro b hb
  rcases Relation.ReflTransGen.cases_head hb with rfl | ⟨c, hc, hcb⟩
  · exact ⟨_, ha, hP⟩
  · obtain ⟨fs, hfs, hmem⟩ := succ_iff.1 hc
    rw [ha] at hfs
    cases hfs
    exact hes c hmem b hcb

namespace Mutated

theorem grow (hm : Mutated N P h a a' T) (hx : h <+: h') : Mutated N P h' a a' T := by
  induction hm with
  | generated hm hT hN => exact .generated (hm.grow hx) hT hN
  | same => exact .same
  | rearranged ha ha' hs hN => exact .rearranged (getElem?_grows hx ha) (getElem?_grows hx ha') hs hN
  | pushed ha ha' hm hT hN hle hn =>
    exact .pushed (getElem?_grows hx ha) (getElem?_grows hx ha') (hm.grow hx) hT hN hle hn
  | element ha ha' _ hN hn ih => exact .element (getElem?_grows hx ha) (getElem?_grows hx ha') ih hN hn

/-- The new arrays are new. -/
theorem fresh (hm : Mutated N P h a a' T) : ∀ b ∈ T, N ≤ b := by
  induction hm with
  | generated _ _ hN => exact hN
  | same => simp
  | rearranged _ _ _ hN => simpa using hN
  | pushed _ _ _ _ hN hle _ =>
    intro b hb
    rcases List.mem_cons.1 hb with rfl | hb
    · exact hle
    · exact hN b hb
  | element _ _ _ hN _ ih =>
    intro b hb
    rcases List.mem_cons.1 hb with rfl | hb
    · exact hN
    · exact ih b hb

/-- The new arrays exist. -/
theorem lt (hm : Mutated N P h a a' T) : ∀ b ∈ T, b < h.length := by
  induction hm with
  | generated hm _ _ => exact fun b hb => hm.lt hb
  | same => simp
  | rearranged _ ha' _ _ => simpa using (List.getElem?_eq_some_iff.1 ha').1
  | pushed _ ha' hm _ _ _ _ =>
    intro b hb
    rcases List.mem_cons.1 hb with rfl | hb
    · exact (List.getElem?_eq_some_iff.1 ha').1
    · exact hm.lt hb
  | element _ ha' _ _ _ ih =>
    intro b hb
    rcases List.mem_cons.1 hb with rfl | hb
    · exact (List.getElem?_eq_some_iff.1 ha').1
    · exact ih b hb

/-- **What holds of everything that can be reached** still does. -/
theorem holds (hm : Mutated N P h a a' T) (ha : h.Holds P a) (hP : ∀ es, P (.array es)) : h.Holds P a' := by
  induction hm with
  | generated hm _ _ => exact hm.holds List.mem_cons_self
  | same => exact ha
  | rearranged hes hes' hs _ => exact .array hes' (hP _) fun e he => ha.elements hes (hs.subset he)
  | pushed hes hes' hm _ _ _ _ =>
    refine .array hes' (hP _) fun e he => ?_
    rcases List.mem_append.1 he with he | he
    · exact ha.elements hes he
    · exact hm.holds he
  | element hes hes' _ _ _ ih =>
    refine .array hes' (hP _) fun e he => ?_
    rcases List.mem_append.1 he with he | he
    · exact ha.elements hes (List.mem_append_left _ he)
    · rcases List.mem_cons.1 he with rfl | he
      · exact ih (ha.elements hes (List.mem_append_right _ List.mem_cons_self))
      · exact ha.elements hes (List.mem_append_right _ (List.mem_cons_of_mem _ he))

/-- **No array gets a second place**, if none had one. -/
theorem made (hm : Mutated N P h a a' T) (ha : Made (fun _ => True) h [a] S) (hS : S.Nodup) (hlt : ∀ b ∈ S, b < N) :
    ∃ S', Made (fun _ => True) h [a'] S' ∧ S'.Nodup ∧ ∀ b ∈ S', b ∈ S ∨ b ∈ T := by
  induction hm generalizing S with
  | generated hm hT _ => exact ⟨_, hm.mono fun _ _ => trivial, hT, fun b hb => .inr hb⟩
  | same => exact ⟨S, ha, hS, fun b hb => .inl hb⟩
  | @rearranged a a' es es' hes hes' hs hN =>
    obtain ⟨U, rfl, hU⟩ := ha.elements hes
    obtain ⟨V, hV, hsub⟩ := hU.subperm hs
    have hold : ∀ b ∈ V, b ∈ a :: U := fun b hb => List.mem_cons_of_mem _ (hsub.subset hb)
    refine ⟨a' :: V, hV.singleton hes' trivial, List.nodup_cons.2 ⟨fun hmem => ?_, ?_⟩, fun b hb => ?_⟩
    · exact Nat.lt_irrefl _ (Nat.lt_of_lt_of_le (hlt a' (hold a' hmem)) hN)
    · obtain ⟨l, hp, hl⟩ := hsub
      exact hp.nodup_iff.1 (hl.nodup (List.nodup_cons.1 hS).2)
    · rcases List.mem_cons.1 hb with rfl | hb
      · exact .inr List.mem_cons_self
      · exact .inl (hold b hb)
  | @pushed a a' es e T hes hes' hm hT hN hle hn =>
    obtain ⟨U, rfl, hU⟩ := ha.elements hes
    have hold : ∀ b ∈ U, b < N := fun b hb => hlt b (List.mem_cons_of_mem _ hb)
    refine ⟨a' :: (U ++ T), (hU.append (hm.mono fun _ _ => trivial)).singleton hes' trivial,
      List.nodup_cons.2 ⟨fun hmem => ?_, List.nodup_append.2 ⟨(List.nodup_cons.1 hS).2, hT, ?_⟩⟩, fun b hb => ?_⟩
    · rcases List.mem_append.1 hmem with hmem | hmem
      · exact Nat.lt_irrefl _ (Nat.lt_of_lt_of_le (hold a' hmem) hle)
      · exact hn hmem
    · intro b hb c hc hbc
      subst hbc
      exact Nat.lt_irrefl _ (Nat.lt_of_lt_of_le (hold b hb) (hN b hc))
    · rcases List.mem_cons.1 hb with rfl | hb
      · exact .inr List.mem_cons_self
      · rcases List.mem_append.1 hb with hb | hb
        · exact .inl (List.mem_cons_of_mem _ hb)
        · exact .inr (List.mem_cons_of_mem _ hb)
  | @element a a' l e r e' T hes hes' hmut hN hn ih =>
    obtain ⟨U, rfl, hU⟩ := ha.elements hes
    obtain ⟨U₁, U', rfl, h₁, hU'⟩ := hU.split rfl
    obtain ⟨U₂, U₃, rfl, h₂, h₃⟩ := hU'.uncons
    obtain ⟨-, hnd⟩ := List.nodup_cons.1 hS
    have hnd₂ := (List.nodup_append.1 (List.nodup_append.1 hnd).2.1).1
    have hold : ∀ b ∈ U₁ ++ (U₂ ++ U₃), b < N := fun b hb => hlt b (List.mem_cons_of_mem _ hb)
    obtain ⟨V, hV, hndV, hVold⟩ := ih h₂ hnd₂ fun b hb => hold b (by simp [hb])
    -- the arrays of the other elements are old and not among those of the mutated one
    have hnew : ∀ b ∈ U₁ ++ (U₂ ++ U₃), b ∉ T := fun b hb hmem => Nat.not_le_of_lt (hold b hb) (hmut.fresh b hmem)
    obtain ⟨hndnew, hfrom⟩ := nodup_replaced hnd hnew hndV hVold
    have hmade : Made (fun _ => True) h (l ++ e' :: r) (U₁ ++ (V ++ U₃)) := h₁.append (hV.append h₃)
    refine ⟨a' :: (U₁ ++ (V ++ U₃)), hmade.singleton hes' trivial, List.nodup_cons.2 ⟨fun hmem => ?_, hndnew⟩,
      fun b hb => ?_⟩
    · rcases hfrom a' hmem with hmem | hmem
      · exact Nat.not_le_of_lt (hold a' hmem) hN
      · exact hn hmem
    · rcases List.mem_cons.1 hb with rfl | hb
      · exact .inr List.mem_cons_self
      · exact (hfrom b hb).imp (List.mem_cons_of_mem _) (List.mem_cons_of_mem _)

end Mutated

/-! ## The mutators of values -/

/-- The errors of the mutator: only those of a root entry without functions, and of limits that leave nothing
to do. -/
def Blocked (gen : TestCaseGenerator) (root : ℕ) (e : Error) : Prop :=
  e ≠ .outOfFuel ∧ (¬ gen.store.HasFunctions root ∨ gen.options.maxStringLength = 0 ∨ gen.options.maxArrayLength = 0)

theorem Stuck.blocked {gen : TestCaseGenerator} {root : ℕ} {e : Error} (h : Stuck gen.store root e) :
    Blocked gen root e :=
  ⟨h.1, .inl h.2⟩

/-- A mutated value. -/
structure MutatedValue (P : Value → Prop) (p : ObjectPool) (a a' : Addr) (q : ObjectPool) : Prop where
  ready : PoolReady q
  ext : p.Extends q
  mutated : ∃ T, Mutated p.heap.length P q.heap a a' T

/-- `P` allows what `v` may be mutated to: strings and arrays that are no longer, or within the limits. There is
something to do, or else the assertion fails. -/
structure Mutable (o : Options) (E : Error → Prop) (P : Value → Prop) (v : Value) : Prop where
  string : ∀ str, v = .literal (.string str) → ∀ str' : StdString, str'.length ≤ max str.length o.maxStringLength →
    P (.literal (.string str'))
  array : ∀ es, v = .array es → ∀ es' : List Addr, es'.length ≤ max es.length o.maxArrayLength → P (.array es')
  work : ¬ Workable o v → E .assertion

/-- **A mutated value**, and a pool whose values to choose from satisfy `P`. Levels come only from new elements, and a
value that is no array becomes a generated one. -/
structure Remade (o : Options) (P : Value → Prop) (p : ObjectPool) (a a' : Addr) (q : ObjectPool) : Prop where
  mutated : MutatedValue P p a a' q
  supply : Supply P q
  holds : p.heap.Holds P a → q.heap.Holds P a'
  levels : o.maxArrayLength = 0 → ∀ d, LevelsLE p.heap d a → LevelsLE q.heap d a'
  flat : (∀ es, p.heap[a]? ≠ some (.array es)) → LevelsLE q.heap (generatedLevels o 1) a'

section

variable {gen : TestCaseGenerator} {root n : ℕ} {p q : ObjectPool} {s : Fuzzer} {E : Error → Prop}

theorem NewValues.mutatedValue (h : NewValue P p a' q) : MutatedValue P p a a' q := by
  obtain ⟨T, hm, hT, hnew⟩ := h.made
  exact ⟨h.ready, h.ext, T, .generated hm hT hnew⟩

/-- A new value in place of any. -/
theorem Supplied.remade {o : Options} {d : ℕ} (h : Supplied P d p a' q) (hd : d ≤ generatedLevels o 1) :
    Remade o P p a a' q := by
  refine ⟨h.new.mutatedValue, h.supply, fun _ => h.new.holds List.mem_cons_self, fun hmax k hk => ?_, fun _ => ?_⟩
  · have hone : generatedLevels o 1 = 1 := if_pos hmax
    have hpos := hk.pos
    exact h.levels.mono (by omega)
  · exact h.levels.mono hd

/-! ## The mutators of strings and numbers -/

/-- The pool gave a string that is no longer than `n`. -/
def GivesString (n : ℕ) (p : ObjectPool) (a : Addr) (q : ObjectPool) : Prop :=
  ∃ str : StdString, str.length ≤ n ∧ p.getOrCreateStringValue str = (a, q)

theorem GivesString.get (h : GivesString n p a q) (hp : PoolReady p) :
    ∃ str : StdString, q.heap[a]? = some (.literal (.string str)) ∧ str.length ≤ n := by
  obtain ⟨str, hstr, hgive⟩ := h
  have hget := (ObjectPool.getOrCreateStringValue_gives hp.ok str).get
  rw [hgive] at hget
  exact ⟨str, hget, hstr⟩

theorem GivesString.supplied (h : GivesString n p a q) (hp : Supply P p)
    (hP : ∀ str : StdString, str.length ≤ n → P (.literal (.string str))) : Supplied P 1 p a q := by
  obtain ⟨str, hstr, hgive⟩ := h
  have hflat := Supplied.flat (v := .literal (.string str)) hp (ObjectPool.getOrCreateStringValue_gives hp.ready.ok str)
    (touches_getLiteral p (.string str)) (adds_getLiteral p (.string str)) (by rintro es ⟨⟩) (hP str hstr)
  rwa [hgive] at hflat

section Strings

variable {str : StdString}

theorem giveString_gives (hstr : str.length ≤ n) :
    Ensures E (givePool (·.getOrCreateStringValue str)) s fun a s' => GivesString n s.pool a s'.pool :=
  ⟨str, hstr, rfl⟩

theorem insertCharacter_gives (hn : str.length < n) :
    Ensures E (TestCaseMutator.insertCharacter str) s fun a s' => GivesString n s.pool a s'.pool := by
  unfold TestCaseMutator.insertCharacter
  refine ensures_draw (Draws.next (Nat.zero_le str.length)) fun pos rnd hpos => ?_
  refine ensures_draw Draws.generateStringCharacter fun ch rnd _ => ?_
  refine giveString_gives (s := { s with rnd := rnd }) ?_
  simp only [List.length_append, List.length_take, List.length_drop, List.length_singleton]
  omega

theorem removeCharacter_gives (hn : str.length ≤ n) (hstr : 0 < str.length) :
    Ensures E (TestCaseMutator.removeCharacter str) s fun a s' => GivesString n s.pool a s'.pool := by
  unfold TestCaseMutator.removeCharacter
  refine ensures_draw (Draws.index (List.ne_nil_of_length_pos hstr)) fun pos rnd _ => ?_
  exact giveString_gives (s := { s with rnd := rnd }) (Nat.le_trans (List.length_eraseIdx_le str pos) hn)

theorem changeCharacter_gives (hn : str.length ≤ n) (hstr : 0 < str.length) :
    Ensures E (TestCaseMutator.changeCharacter str) s fun a s' => GivesString n s.pool a s'.pool := by
  unfold TestCaseMutator.changeCharacter
  refine ensures_draw (Draws.index (List.ne_nil_of_length_pos hstr)) fun pos rnd _ => ?_
  refine ensures_draw Draws.generateStringCharacter fun ch rnd _ => ?_
  exact giveString_gives (s := { s with rnd := rnd }) (by rwa [List.length_set])

theorem exchangeCharacters_gives (hn : str.length ≤ n) (hstr : 2 ≤ str.length) :
    Ensures E (TestCaseMutator.exchangeCharacters str) s fun a s' => GivesString n s.pool a s'.pool := by
  unfold TestCaseMutator.exchangeCharacters
  have hlast : lastIndex str.length = str.length - 1 := if_neg (by omega)
  rw [hlast]
  refine ensures_draw (Draws.next (Nat.zero_le _)) fun pos₁ rnd hpos₁ => ?_
  refine ensures_draw (Draws.next (by omega)) fun pos₂ rnd hpos₂ => ?_
  have h₁ : pos₁ < str.length := by omega
  have h₂ : pos₂ < str.length := by omega
  refine ensures_draw (Draws.swapped h₁ h₂) ?_
  rintro _ rnd rfl
  exact giveString_gives (s := { s with rnd := rnd }) (by rwa [List.length_set, List.length_set])

/-- No operator is viable for a string that is empty and has to stay so. -/
theorem stringMutators_isEmpty_iff : (TestCaseMutator.stringMutators gen str).isEmpty = true ↔
    ¬ Workable gen.options (.literal (.string str)) := by
  unfold TestCaseMutator.stringMutators Workable
  cases str with
  | nil => simp
  | cons ch str => simp

/-- **A string** is mutated, unless it is empty and has to stay so. It grows only up to the limit. -/
theorem mutateString_gives (hwork : ¬ Workable gen.options (.literal (.string str)) → E .assertion) :
    Ensures E (TestCaseMutator.mutateString gen str) s fun a s' =>
      GivesString (max str.length gen.options.maxStringLength) s.pool a s'.pool := by
  unfold TestCaseMutator.mutateString
  by_cases hempty : (TestCaseMutator.stringMutators gen str).isEmpty = true
  · rw [if_pos hempty]
    -- no operator is viable: the assertion of the source
    exact .throw (hwork (stringMutators_isEmpty_iff.1 hempty))
  · rw [if_neg hempty]
    have hle := Nat.le_max_left str.length gen.options.maxStringLength
    refine ensures_draw (Draws.select (by simpa using hempty)) fun m rnd hm => ?_
    simp only [TestCaseMutator.stringMutators, List.mem_append] at hm
    rcases hm with ((hm | hm) | hm) | hm <;> split at hm <;> simp only [List.mem_singleton, List.not_mem_nil] at hm
    · rw [hm]
      exact insertCharacter_gives (s := { s with rnd := rnd }) (by omega)
    · rw [hm]
      exact removeCharacter_gives (s := { s with rnd := rnd }) hle ‹_›
    · rw [hm]
      exact changeCharacter_gives (s := { s with rnd := rnd }) hle ‹_›
    · rw [hm]
      exact exchangeCharacters_gives (s := { s with rnd := rnd }) hle ‹_›

end Strings

theorem mutateInteger_supplied (hP : GeneratesWithin gen root n P) (h : Supply P s.pool) (value : Int32) :
    Ensures E (TestCaseMutator.mutateInteger value) s fun a s' => Supplied P 1 s.pool a s'.pool := by
  unfold TestCaseMutator.mutateInteger
  have hgive : ∀ (rnd : ℕ → ℕ) (i : Int32), Ensures E (givePool (·.getOrCreateIntegerValue i))
      { s with rnd := rnd } fun a s' => Supplied P 1 s.pool a s'.pool := fun rnd i =>
    literal_supplied h rnd (hP.integer i)
  refine ensures_draw (Draws.select (by simp)) fun m rnd hm => ?_
  simp only [List.mem_cons, List.not_mem_nil, or_false] at hm
  rcases hm with rfl | rfl | rfl
  · exact ensures_draw (Draws.nextInt (by decide)) fun inc rnd _ => hgive rnd _
  · exact ensures_draw (Draws.orUndefined _) fun newValue rnd _ => hgive rnd _
  · unfold TestCaseMutator.bitflip
    refine ensures_draw (Draws.select (by decide)) fun maskLen rnd _ => ?_
    refine ensures_draw (Draws.next (Nat.zero_le _)) fun startOffset rnd _ => ?_
    exact ensures_draw (Draws.orUndefined _) fun newValue rnd _ => hgive rnd _

theorem mutateFloat_remade {o : Options} {x : Double} (hP : GeneratesWithin gen root n P) (h : Supply P s.pool)
    (ha : s.heap[a]? = some (.literal (.float x))) :
    Ensures E (TestCaseMutator.mutateFloat a x) s fun a' s' => Remade o P s.pool a a' s'.pool := by
  unfold TestCaseMutator.mutateFloat
  have hone := generatedLevels_pos o 1
  have hgive : ∀ (rnd : ℕ → ℕ) (y : Double), Ensures E (givePool (·.getOrCreateFloatValue y))
      { s with rnd := rnd } fun a' s' => Remade o P s.pool a a' s'.pool := fun rnd y =>
    (literal_supplied h rnd (hP.float y)).mono fun _ _ hv => hv.remade hone
  split
  · refine .pure ⟨⟨h.ready, ObjectPool.Extends.refl _, [], .same⟩, h, id, fun _ _ hd => hd, fun _ => ?_⟩
    refine LevelsLE.mono (.flat ha ?_) hone
    intro es hes
    cases hes
  · refine ensures_draw (Draws.select (by simp)) fun m rnd hm => ?_
    simp only [List.mem_cons, List.not_mem_nil, or_false] at hm
    rcases hm with rfl | rfl
    · exact ensures_draw (Draws.nextSigned _) fun inc rnd _ => hgive rnd _
    · exact hgive rnd _

/-! ## The mutators of arrays -/

/-- Pushing all elements onto the last object. -/
theorem pushAll_ensures {H : Heap} (es : List Addr) : ∀ (done : List Addr) (s : Fuzzer),
    s.heap = H ++ [.array done] → Supply P s.pool →
      Ensures E (forM es fun e => TestCaseGenerator.pushElement H.length e) s fun _ s' =>
        Supply P s'.pool ∧ s'.heap = H ++ [.array (done ++ es)] := by
  induction es with
  | nil =>
    intro done s hheap hsupply
    rw [List.append_nil]
    exact .pure ⟨hsupply, hheap⟩
  | cons e es ih =>
    intro done s hheap hsupply
    rw [List.forM_cons]
    have hpush : Ensures E (TestCaseGenerator.pushElement H.length e) s fun _ s' =>
      s'.pool = s.pool.push H.length e := ⟨rfl⟩
    refine hpush.bind fun _ s' hs' => ?_
    have hget : s.pool.heap[H.length]? = some (.array done) := by
      show s.heap[H.length]? = _
      rw [hheap]
      simp
    have hheap' : s'.heap = H ++ [.array (done ++ [e])] := by
      show s'.pool.heap = _
      rw [hs']
      unfold ObjectPool.push
      rw [hget]
      show s.heap.set H.length _ = _
      rw [hheap, List.set_append_right _ _ (Nat.le_refl _), Nat.sub_self]
      rfl
    have hnext := ih (done ++ [e]) s' hheap' (by rw [hs']; exact hsupply.push _ _)
    rwa [List.append_assoc] at hnext

/-- **A new array** with these elements. -/
theorem createArray_ensures (h : Supply P s.pool) (es : List Addr) :
    Ensures E (TestCaseMutator.createArray es) s fun a s' =>
      a = s.heap.length ∧ Supply P s'.pool ∧ s'.heap = s.heap ++ [.array es] := by
  unfold TestCaseMutator.createArray
  refine Ensures.bind (P := fun v s' => v = s.heap.length ∧ s'.pool = s.pool.createArrayValue.2) ⟨rfl, rfl⟩ ?_
  rintro v s₁ ⟨rfl, hs₁⟩
  refine (pushAll_ensures (P := P) es [] s₁ ?_ ?_).bind ?_
  · show s₁.pool.heap = _
    rw [hs₁]
    rfl
  · rw [hs₁]
    exact h.createArray
  · rintro _ s' ⟨hsupply, hheap⟩
    exact .pure ⟨rfl, hsupply, hheap⟩

/-- The last object of a heap. -/
theorem get_last {H : Heap} {v : Value} (hh : h = H ++ [v]) : h[H.length]? = some v := by
  rw [hh]
  simp

/-- **A mutated array**: new, and longer than the old one only up to the limit. -/
structure RemadeArray (o : Options) (P : Value → Prop) (p : ObjectPool) (a : Addr) (es : List Addr) (a' : Addr)
    (q : ObjectPool) : Prop where
  remade : Remade o P p a a' q
  size : ∃ es', q.heap[a']? = some (.array es') ∧ es'.length ≤ max es.length o.maxArrayLength

/-- What is kept is kept element by element. -/
theorem RemadeArray.of_elements {o : Options} {es es' : List Addr} (hm : MutatedValue P p a a' q) (hsupply : Supply P q)
    (ha : p.heap[a]? = some (.array es)) (ha' : q.heap[a']? = some (.array es'))
    (hlen : es'.length ≤ max es.length o.maxArrayLength) (hP : Mutable o E P (.array es))
    (hholds : ∀ e' ∈ es', p.heap.Holds P a → q.heap.Holds P e')
    (hlevels : o.maxArrayLength = 0 → ∀ e' ∈ es', ∀ d, LevelsLE p.heap (d + 1) a → LevelsLE q.heap d e') :
    RemadeArray o P p a es a' q := by
  refine ⟨⟨hm, hsupply, fun hold => ?_, fun hmax d hd => ?_, fun hne => absurd ha (hne es)⟩, es', ha', hlen⟩
  · exact .array ha' (hP.array es rfl es' hlen) fun e' he' => hholds e' he' hold
  · obtain ⟨d, rfl⟩ := Nat.exists_eq_add_of_le' hd.pos
    exact .array ha' fun e' he' => hlevels hmax e' he' d hd

/-- Elements of the old array keep what they had. -/
theorem RemadeArray.of_subperm {o : Options} {es es' : List Addr} (hsupply : Supply P q) (hx : p.Extends q)
    (ha : p.heap[a]? = some (.array es)) (ha' : q.heap[a']? = some (.array es')) (hs : es'.Subperm es)
    (hnew : p.heap.length ≤ a') (hP : Mutable o E P (.array es)) : RemadeArray o P p a es a' q := by
  refine RemadeArray.of_elements ⟨hsupply.ready, hx, _, .rearranged (hx.get ha) ha' hs hnew⟩ hsupply ha ha'
    (Nat.le_trans hs.length_le (Nat.le_max_left _ _)) hP (fun e' he' hold => ?_) fun _ e' he' d hd => ?_
  · exact (hold.elements ha (hs.subset he')).grow hx
  · exact (hd.elements ha e' (hs.subset he')).grow hx

/-- No operator is viable for an array that is empty and has to stay so. -/
theorem arrayMutators_isEmpty_iff {es : List Addr} :
    (TestCaseMutator.arrayMutators gen root n es).isEmpty = true ↔ ¬ Workable gen.options (.array es) := by
  unfold TestCaseMutator.arrayMutators Workable
  cases es with
  | nil => simp
  | cons e es => simp

/-- **An array** is mutated, unless it is empty and has to stay so. -/
theorem mutateArray_remade (hP : GeneratesWithin gen root n P) (hstuck : ∀ e, Stuck gen.store root e → E e)
    {mutate : Addr → FuzzM Addr} {es : List Addr} (h : Supply P s.pool) (ha : s.heap[a]? = some (.array es))
    (hmutable : Mutable gen.options E P (.array es))
    (hmutate : ∀ e ∈ es, ∀ rnd : ℕ → ℕ, Ensures E (mutate e) { s with rnd := rnd } fun e' s' =>
      Remade gen.options P s.pool e e' s'.pool) :
    Ensures E (TestCaseMutator.mutateArray gen root n mutate es) s fun a' s' =>
      RemadeArray gen.options P s.pool a es a' s'.pool := by
  unfold TestCaseMutator.mutateArray
  by_cases hempty : (TestCaseMutator.arrayMutators gen root n es).isEmpty = true
  · rw [if_pos hempty]
    -- no operator is viable: the assertion of the source
    exact .throw (hmutable.work (arrayMutators_isEmpty_iff.1 hempty))
  · rw [if_neg hempty]
    refine ensures_draw (Draws.select (by simpa using hempty)) fun m rnd hm => ?_
    simp only [TestCaseMutator.arrayMutators, List.mem_append] at hm
    rcases hm with ((hm | hm) | hm) | hm
    · split at hm <;> simp only [List.mem_singleton, List.not_mem_nil] at hm
      subst hm
      rename_i hlen
      -- a generated element at the end
      unfold TestCaseMutator.pushElement
      refine ((generateValue_supplied (s := { s with rnd := rnd }) hP h).excuse hstuck).bind ?_
      intro e s₁ he
      obtain ⟨T, hmade, hT, hnew⟩ := he.new.made
      refine (createArray_ensures he.supply _).mono ?_
      rintro a' s' ⟨rfl, hsupply, hheap⟩
      have hx : s₁.heap <+: s'.heap := ⟨_, hheap.symm⟩
      have hx' := he.new.ext.trans hx
      have hmutated := Mutated.pushed (P := P) (N := s.heap.length) (hx'.get ha) (get_last hheap)
        (hmade.grow hx) hT hnew
        he.new.ext.length_le fun hmem => Nat.lt_irrefl _ (hmade.lt hmem)
      refine .of_elements ⟨hsupply.ready, hx', _, hmutated⟩ hsupply ha (get_last hheap) ?_ hmutable
        (fun e' he' hold => ?_)
        fun hmax => ?_
      · rw [List.length_append, List.length_singleton]
        omega
      · rcases List.mem_append.1 he' with he' | he'
        · exact (hold.elements ha he').grow hx'
        · exact List.mem_singleton.1 he' ▸ (he.new.holds List.mem_cons_self).grow hx
      · omega
    · split at hm <;> simp only [List.mem_singleton, List.not_mem_nil] at hm
      subst hm
      -- all elements but one
      unfold TestCaseMutator.removeElement
      refine ensures_draw (Draws.next (Nat.zero_le _)) fun pos rnd _ => ?_
      refine (createArray_ensures (s := { s with rnd := rnd }) h _).mono ?_
      rintro a' s' ⟨rfl, hsupply, hheap⟩
      refine .of_subperm hsupply ⟨_, hheap.symm⟩ ha (get_last hheap) ?_ (Nat.le_refl _) hmutable
      rw [← List.eraseIdx_eq_take_drop_succ]
      exact (List.eraseIdx_sublist _ _).subperm
    · split at hm <;> simp only [List.mem_singleton, List.not_mem_nil] at hm
      subst hm
      rename_i hlen
      -- the mutated element in place of the old one
      unfold TestCaseMutator.mutateElement
      refine ensures_draw (Draws.next (Nat.zero_le _)) fun pos rnd hpos => ?_
      have hlt : pos < es.length := lastIndex_lt (by omega) hpos.2
      rw [List.getElem?_eq_getElem hlt]
      refine (hmutate _ (List.getElem_mem hlt) rnd).bind ?_
      intro e' s₁ he
      obtain ⟨T, hmut⟩ := he.mutated.mutated
      refine (createArray_ensures he.supply _).mono ?_
      rintro a' s' ⟨rfl, hsupply, hheap⟩
      have hx : s₁.heap <+: s'.heap := ⟨_, hheap.symm⟩
      have hx' := he.mutated.ext.trans hx
      have hsplit : es = es.take pos ++ es[pos] :: es.drop (pos + 1) := by
        rw [List.getElem_cons_drop, List.take_append_drop]
      have ha' := getElem?_grows hx' ha
      rw [hsplit] at ha'
      rw [List.append_assoc, List.singleton_append] at hheap
      have hmutated := Mutated.element (P := P) (N := s.heap.length) ha' (get_last hheap) (hmut.grow hx)
        he.mutated.ext.length_le fun hmem => Nat.lt_irrefl _ (hmut.lt _ hmem)
      -- every element is an old one, or the mutated one
      have helems : ∀ c ∈ es.take pos ++ e' :: es.drop (pos + 1), c ∈ es ∨ c = e' := by
        intro c hc
        rcases List.mem_append.1 hc with hc | hc
        · exact .inl (List.mem_of_mem_take hc)
        · rcases List.mem_cons.1 hc with hc | hc
          · exact .inr hc
          · exact .inl (List.mem_of_mem_drop hc)
      refine .of_elements ⟨hsupply.ready, hx', _, hmutated⟩ hsupply ha (get_last hheap) ?_ hmutable
        (fun c hc hold => ?_)
        fun hmax c hc d hd => ?_
      · simp only [List.length_append, List.length_take, List.length_cons, List.length_drop]
        omega
      · rcases helems c hc with hc | rfl
        · exact (hold.elements ha hc).grow hx'
        · exact (he.holds (hold.elements ha (List.getElem_mem hlt))).grow hx
      · rcases helems c hc with hc | rfl
        · exact (hd.elements ha c hc).grow hx'
        · exact (he.levels hmax d (hd.elements ha _ (List.getElem_mem hlt))).grow hx
    · split at hm <;> simp only [List.mem_singleton, List.not_mem_nil] at hm
      subst hm
      rename_i hlen
      -- the same elements in another order
      unfold TestCaseMutator.exchangeElements
      refine ensures_draw (Draws.next (Nat.zero_le _)) fun pos₁ rnd hpos₁ => ?_
      have hlast : lastIndex es.length = es.length - 1 := if_neg (by omega)
      rw [hlast]
      refine ensures_draw (Draws.next (by omega)) fun pos₂ rnd hpos₂ => ?_
      have h₁ : pos₁ < es.length := by omega
      have h₂ : pos₂ < es.length := by omega
      refine ensures_draw (Draws.swapped h₁ h₂) ?_
      rintro _ rnd rfl
      refine (createArray_ensures (s := { s with rnd := rnd }) h _).mono ?_
      rintro a' s' ⟨rfl, hsupply, hheap⟩
      exact .of_subperm hsupply ⟨_, hheap.symm⟩ ha (get_last hheap) (List.set_set_perm h₁ h₂).subperm (Nat.le_refl _)
        hmutable

/-! ## Values -/

/-- The object is there. -/
theorem readValue_ensures {v : Value} (ha : s.heap[a]? = some v) :
    Ensures E (readValue a) s fun w s' => w = v ∧ s' = s := by
  refine Ensures.of_eq ?_ ⟨rfl, rfl⟩
  unfold readValue
  rw [ha]

/-- Whether to generate a new value. Too deep down there is always a new one. -/
theorem generateNew_draws (gen : TestCaseGenerator) (depth : ℕ) :
    Draws (TestCaseMutator.generateNew gen depth) fun new => new = false → depth ≤ gen.options.maxDepth := by
  unfold TestCaseMutator.generateNew
  split
  · exact Draws.pure (by intro h; cases h)
  · rename_i hdepth
    exact (Draws.withProbability _).mono fun _ _ _ => by omega

/-- A new value in place of any. -/
theorem generated_remade (hP : GeneratesWithin gen root n P) (hstuck : ∀ e, Stuck gen.store root e → E e)
    (h : Supply P s.pool) (rnd : ℕ → ℕ) (a : Addr) :
    Ensures E (gen.generateValue root ⟨n⟩) { s with rnd := rnd } fun a' s' =>
      Remade gen.options P s.pool a a' s'.pool :=
  ((generateValue_supplied (s := { s with rnd := rnd }) hP h).excuse hstuck).mono fun _ _ hv =>
    hv.remade (Nat.le_refl _)

/-- **A value is mutated** as its kind wants it. -/
theorem mutateKind_remade (hP : GeneratesWithin gen root n P) (hstuck : ∀ e, Stuck gen.store root e → E e)
    (h : Supply P s.pool) {mutate : Addr → FuzzM Addr} {v : Value} (hget : s.heap[a]? = some v)
    (hmutable : Mutable gen.options E P v) (hundefined : v ≠ .literal .undefined) (hnull : v ≠ .literal .null)
    (hmutate : ∀ es, v = .array es → ∀ e ∈ es, ∀ rnd : ℕ → ℕ,
      Ensures E (mutate e) { s with rnd := rnd } fun e' s' => Remade gen.options P s.pool e e' s'.pool) :
    Ensures E (TestCaseMutator.mutateKind gen root n mutate a v) s fun a' s' =>
      Remade gen.options P s.pool a a' s'.pool := by
  have hone := generatedLevels_pos gen.options 1
  cases v with
  | placeholder j => exact generated_remade hP hstuck h s.rnd a
  | array es => exact (mutateArray_remade hP hstuck h hget hmutable (hmutate es rfl)).mono fun _ _ hv => hv.remade
  | literal l =>
    cases l with
    | undefined => exact absurd rfl hundefined
    | null => exact absurd rfl hnull
    | function id => exact ((generateFunctionValue_supplied hP h).excuse hstuck).mono fun _ _ hv => hv.remade hone
    | boolean b => exact (literal_supplied h s.rnd (hP.boolean !b)).mono fun _ _ hv => hv.remade hone
    | string str =>
      exact (mutateString_gives hmutable.work).mono fun _ _ hv => (hv.supplied h (hmutable.string str rfl)).remade hone
    | integer i => exact (mutateInteger_supplied hP h i).mono fun _ _ hv => hv.remade hone
    | float x => exact mutateFloat_remade hP h hget

/-- **A value is mutated**, by induction on the fuel, as the depth grows with every level. -/
theorem mutateValueAt_remade (hP : GeneratesWithin gen root n P) (hstuck : ∀ e, Stuck gen.store root e → E e)
    {fuel depth : ℕ} (h : Supply P s.pool) (hv : s.heap.Holds (Mutable gen.options E P) a)
    (hfuel : gen.options.maxDepth + 1 < fuel + depth) (hpos : fuel ≠ 0) :
    Ensures E (TestCaseMutator.mutateValueAt gen root n fuel a depth) s fun a' s' =>
      Remade gen.options P s.pool a a' s'.pool := by
  induction fuel generalizing depth a s with
  | zero => exact absurd rfl hpos
  | succ fuel ih =>
    unfold TestCaseMutator.mutateValueAt
    refine ensures_draw (generateNew_draws gen depth) fun new rnd hdepth => ?_
    cases new with
    | true => exact generated_remade hP hstuck h rnd a
    | false =>
      have hdepth := hdepth rfl
      obtain ⟨v, hget, hmutable⟩ := hv.here
      have hread : Ensures E (readValue a) { s with rnd := rnd } fun w s' =>
          w = v ∧ s' = { s with rnd := rnd } := readValue_ensures hget
      refine hread.bind ?_
      rintro v _ ⟨rfl, rfl⟩
      split
      · exact generated_remade hP hstuck h rnd a
      · exact generated_remade hP hstuck h rnd a
      · rename_i hundefined hnull
        refine ensures_draw (Draws.withProbability _) fun change rnd _ => ?_
        cases change with
        | true => exact generated_remade hP hstuck h rnd a
        | false =>
          refine mutateKind_remade (s := { s with rnd := rnd }) hP hstuck h hget hmutable hundefined hnull ?_
          intro es hes e he rnd
          subst hes
          exact ih (s := { s with rnd := rnd }) h (hv.elements hget he) (by omega) (by omega)

/-- Whatever is generated may be mutated. -/
theorem Generates.mutable (hP : Generates gen.store root n P) (v : Value) :
    Mutable gen.options (Blocked gen root) P v := by
  refine ⟨fun str _ str' _ => hP.literal _ (by rintro id ⟨⟩), fun _ _ es' _ => hP.array es', fun hw => ?_⟩
  refine ⟨by decide, ?_⟩
  by_contra hlimits
  push Not at hlimits
  exact hw ⟨fun _ => hlimits.2.1, fun _ => hlimits.2.2⟩

theorem mutateValue_ensures (hP : Generates gen.store root n P) (h : PoolReady s.pool)
    (hv : s.heap.Holds (fun _ => True) a) :
    Ensures (Blocked gen root) (TestCaseMutator.mutateValue gen root n a) s fun a' s' =>
      MutatedValue P s.pool a a' s'.pool :=
  (mutateValueAt_remade hP.within (fun _ => Stuck.blocked) (h.supply hP.literal) (hv.mono fun v _ => hP.mutable v)
    (by omega) (by omega)).mono fun _ _ hk => hk.mutated

end

end Caf
