import Caf.Proof.May
import Caf.Proof.Sizes

/-!
# Levels of mutated values

A new element has as many levels as any generated value, wherever it is put. So a mutated array may come to have one
level more than allowed, and any other value may not.

* `May.generate_deep`: a value with all levels that are allowed.
* `mutatesWithinDepth_iff`: the values that stay within the depth when they are mutated.
-/

namespace Caf

open ObjectGraph Run Caf.Random

variable {gen : TestCaseGenerator} {root n k : ℕ} {p q : ObjectPool} {h h' : Heap} {a e : Addr} {fs : List Function}

/-- There are arrays in arrays at `a`, `k` of them. -/
inductive Deep (h : Heap) : ℕ → Addr → Prop
  | zero (a : Addr) : Deep h 0 a
  | succ {k es} {a e : Addr} : h[a]? = some (.array es) → e ∈ es → Deep h k e → Deep h (k + 1) a

/-- Arrays stay, with more elements. -/
def Widens (h h' : Heap) : Prop :=
  ∀ (a : Addr) es, h[a]? = some (.array es) → ∃ es', h'[a]? = some (.array es') ∧ ∀ e ∈ es, e ∈ es'

theorem Widens.of_grows (hx : h <+: h') : Widens h h' :=
  fun _ es ha => ⟨es, getElem?_grows hx ha, fun _ he => he⟩

theorem Widens.trans {h'' : Heap} (hw : Widens h h') (hw' : Widens h' h'') : Widens h h'' := by
  intro a es ha
  obtain ⟨es', ha', hes'⟩ := hw a es ha
  obtain ⟨es'', ha'', hes''⟩ := hw' a es' ha'
  exact ⟨es'', ha'', fun e he => hes'' e (hes' e he)⟩

theorem Widens.push (p : ObjectPool) (v e : Addr) : Widens p.heap (p.push v e).heap := by
  intro a es ha
  by_cases hva : v = a
  · subst hva
    exact ⟨es ++ [e], ObjectPool.push_get_self e ha, fun _ he => List.mem_append_left _ he⟩
  · exact ⟨es, (ObjectPool.push_get_ne e hva).trans ha, fun _ he => he⟩

theorem Touches.widens {r : Addr × ObjectPool} (ht : Touches p r) : Widens p.heap r.2.heap := by
  refine .of_grows ?_
  rcases ht.heap with hh | ⟨v, -, hh⟩
  · rw [hh]
  · rw [hh]
    exact List.prefix_append _ _

theorem Deep.widen (hd : Deep h k a) (hw : Widens h h') : Deep h' k a := by
  induction hd with
  | zero a => exact .zero a
  | succ ha he _ ih =>
    obtain ⟨es', ha', hes'⟩ := hw _ _ ha
    exact .succ ha' (hes' _ he) ih

/-- So many arrays make so many levels, and one more. -/
theorem Deep.lt (hd : Deep h k a) (hl : LevelsLE h n a) : k < n := by
  induction hd generalizing n with
  | zero a => exact hl.pos
  | succ ha he _ ih =>
    obtain ⟨n, rfl⟩ := Nat.exists_eq_add_of_le' hl.pos
    have := ih (hl.elements ha _ he)
    omega

/-- An element can be mutated if there is one. -/
theorem mutateElement_mem {es : List Addr} (hpos : 0 < es.length) :
    TestCaseMutator.mutateElement ∈ TestCaseMutator.arrayMutators gen root n es := by
  unfold TestCaseMutator.arrayMutators
  simp [hpos]

/-! ## What may be generated -/

namespace May

theorem chooseExisting (p : ObjectPool) : May TestCaseGenerator.chooseExisting p fun c q => c = false ∧ q = p := by
  unfold May TestCaseGenerator.chooseExisting
  by_cases hempty : p.values.isEmpty = true
  · exact ⟨false, p, ⟨rfl, rfl⟩, fun rest => ⟨rest, if_pos hempty⟩⟩
  · obtain ⟨c, q, hc, hx⟩ := withProbability (p := p) (x := chooseExistingProb) (by decide) (by decide) false
    refine ⟨c, q, hc, fun rest => ?_⟩
    obtain ⟨rnd, hrnd⟩ := hx rest
    exact ⟨rnd, (if_neg hempty).trans hrnd⟩

theorem givePool (f : ObjectPool → Addr × ObjectPool) (p : ObjectPool) :
    May (givePool f) p fun a q => a = (f p).1 ∧ q = (f p).2 :=
  of_eq (fun _ => rfl) ⟨rfl, rfl⟩

theorem pushElement (p : ObjectPool) (v e : Addr) :
    May (TestCaseGenerator.pushElement v e) p fun _ q => q = p.push v e :=
  of_eq (fun _ => rfl) rfl

/-- Any kind may be chosen, an array only before the last level. -/
theorem generateValueKind {arrays placeholders : Bool} (kind : ValueKind) (harray : kind = .array → arrays = true)
    (hplaceholder : kind ≠ .placeholder) :
    May (TestCaseGenerator.generateValueKind arrays placeholders) p fun c q => c = kind ∧ q = p := by
  unfold TestCaseGenerator.generateValueKind
  refine select ?_
  cases kind with
  | placeholder => exact absurd rfl hplaceholder
  | array =>
    rw [harray rfl]
    split <;> simp
  | undefined => split <;> split <;> simp
  | null => split <;> split <;> simp
  | boolean => split <;> split <;> simp
  | string => split <;> split <;> simp
  | function => split <;> split <;> simp
  | integer => split <;> split <;> simp
  | float => split <;> split <;> simp

/-- A value without elements may be generated, at any depth. -/
theorem generate_undefined (fuel depth : ℕ) (p : ObjectPool) :
    May (gen.generateValueAt (fuel + 1) root ⟨n⟩ depth) p fun _ q => Widens p.heap q.heap := by
  unfold TestCaseGenerator.generateValueAt
  refine (chooseExisting p).bind ?_
  rintro _ _ ⟨rfl, rfl⟩
  rw [if_neg Bool.false_ne_true]
  refine (generateValueKind .undefined (by rintro ⟨⟩) (by rintro ⟨⟩)).bind ?_
  rintro _ q ⟨rfl, rfl⟩
  rw [if_neg (by rintro ⟨⟩)]
  refine (givePool (·.getUndefinedValue) q).mono ?_
  rintro a r ⟨rfl, rfl⟩
  exact (touches_getLiteral q .undefined).widens

/-- **A value as deep as allowed** may be generated, by induction on what is left of the depth. -/
theorem generate_deep (hsize : 1 ≤ gen.options.maxArrayLength) {fuel depth : ℕ}
    (hdepth : depth + k ≤ gen.options.maxDepth)
    (hfuel : k < fuel) : May (gen.generateValueAt fuel root ⟨n⟩ depth) p fun a q =>
      Deep q.heap k a ∧ Widens p.heap q.heap := by
  induction k generalizing fuel depth p with
  | zero =>
    obtain ⟨fuel, rfl⟩ := Nat.exists_eq_add_of_le' hfuel
    exact (generate_undefined fuel depth p).mono fun a q hw => ⟨.zero a, hw⟩
  | succ k ih =>
    obtain ⟨fuel, rfl⟩ := Nat.exists_eq_add_of_le' (Nat.zero_lt_of_lt hfuel)
    unfold TestCaseGenerator.generateValueAt
    -- a new array is drawn, with one element
    refine (chooseExisting p).bind ?_
    rintro _ _ ⟨rfl, rfl⟩
    rw [if_neg Bool.false_ne_true]
    refine (generateValueKind .array (fun _ => by simp; omega) (by rintro ⟨⟩)).bind ?_
    rintro _ _ ⟨rfl, rfl⟩
    rw [if_pos rfl]
    refine (next (k := 1) (Nat.zero_le 1) hsize).bind ?_
    rintro _ p ⟨rfl, rfl⟩
    refine (givePool (·.createArrayValue) _).bind ?_
    rintro v q ⟨hv, hq⟩
    have hget : q.heap[v]? = some (.array []) := by
      rw [hv, hq]
      exact ObjectPool.allocate_get _
    have hx : Widens p.heap q.heap := by
      rw [hq]
      exact .of_grows (List.prefix_append _ _)
    -- the one element is as deep as the rest of the levels
    refine May.bind (Q := fun _ r => Deep r.heap (k + 1) v ∧ Widens q.heap r.heap) ?_ fun _ r hr => ?_
    · rw [List.range_one, List.forM_cons]
      refine May.bind (Q := fun _ r => Deep r.heap (k + 1) v ∧ Widens q.heap r.heap) ?_ fun _ r hr => pure hr
      refine (ih (by omega) (by omega)).bind ?_
      rintro element r ⟨hdeep, hw⟩
      refine (pushElement r v element).mono ?_
      rintro _ t rfl
      obtain ⟨es, hes, -⟩ := hw v [] hget
      have hpush := Widens.push r v element
      exact ⟨.succ (ObjectPool.push_get_self element hes) (by simp) (hdeep.widen hpush), hw.trans hpush⟩
    · exact pure ⟨hr.1, hx.trans hr.2⟩

/-! ## What a mutated array may become -/

theorem pushAll {H : Heap} (es : List Addr) : ∀ (done : List Addr) (p : ObjectPool), p.heap = H ++ [.array done] →
    May (forM es fun e => TestCaseGenerator.pushElement H.length e) p fun _ q =>
      q.heap = H ++ [.array (done ++ es)] := by
  induction es with
  | nil =>
    intro done p hp
    rw [List.append_nil]
    exact pure hp
  | cons e es ih =>
    intro done p hp
    rw [List.forM_cons]
    refine (pushElement p H.length e).bind ?_
    rintro _ q rfl
    have hq : (p.push H.length e).heap = H ++ [.array (done ++ [e])] := by
      unfold ObjectPool.push
      rw [get_last hp]
      show p.heap.set H.length _ = _
      rw [hp, List.set_append_right _ _ (Nat.le_refl _), Nat.sub_self]
      rfl
    have hnext := ih (done ++ [e]) _ hq
    rwa [List.append_assoc] at hnext

theorem createArray (p : ObjectPool) (es : List Addr) : May (TestCaseMutator.createArray es) p fun a q =>
    q.heap[a]? = some (.array es) ∧ Widens p.heap q.heap := by
  unfold TestCaseMutator.createArray
  refine (givePool (·.createArrayValue) p).bind ?_
  rintro _ q ⟨rfl, rfl⟩
  refine (pushAll (H := p.heap) es [] _ rfl).bind fun _ q hq => pure ⟨get_last hq, ?_⟩
  rw [hq]
  exact .of_grows (List.prefix_append _ _)

theorem readValue {v : Value} (ha : p.heap[a]? = some v) : May (readValue a) p fun w q => w = v ∧ q = p := by
  refine of_eq (fun rnd => ?_) ⟨rfl, rfl⟩
  unfold Caf.readValue
  rw [ha]

/-- There is always a value to mutate, up to the greatest depth. -/
theorem generateNew_false {depth : ℕ} (hdepth : depth ≤ gen.options.maxDepth) :
    May (TestCaseMutator.generateNew gen depth) p fun new q => new = false ∧ q = p := by
  unfold TestCaseMutator.generateNew
  rw [if_neg (Nat.not_lt.2 hdepth)]
  exact withProbability (by decide) (by decide) false

/-- And always a new one. -/
theorem generateNew_true (gen : TestCaseGenerator) (depth : ℕ) (p : ObjectPool) :
    May (TestCaseMutator.generateNew gen depth) p fun new q => new = true ∧ q = p := by
  unfold TestCaseMutator.generateNew
  split
  · exact pure ⟨rfl, rfl⟩
  · exact withProbability (by decide) (by decide) true

/-- A value may be mutated as its kind wants it. -/
theorem mutateKind {Q : Addr → ObjectPool → Prop} {fuel depth : ℕ} {v : Value} (hdepth : depth ≤ gen.options.maxDepth)
    (ha : p.heap[a]? = some v) (hundefined : v ≠ .literal .undefined) (hnull : v ≠ .literal .null)
    (hkind : May (TestCaseMutator.mutateKind gen root n
      (fun element => TestCaseMutator.mutateValueAt gen root n fuel element (depth + 1)) a v) p Q) :
    May (TestCaseMutator.mutateValueAt gen root n (fuel + 1) a depth) p Q := by
  unfold TestCaseMutator.mutateValueAt
  refine (generateNew_false hdepth).bind ?_
  rintro _ _ ⟨rfl, rfl⟩
  rw [if_neg Bool.false_ne_true]
  refine (readValue ha).bind ?_
  rintro w _ ⟨rfl, rfl⟩
  split
  · exact absurd rfl hundefined
  · exact absurd rfl hnull
  · refine (withProbability (by decide) (by decide) false).bind ?_
    rintro _ _ ⟨rfl, rfl⟩
    rw [if_neg Bool.false_ne_true]
    exact hkind

/-- **An array may come to have one level more** than any value that is generated. -/
theorem mutate_deep (hsize : 1 ≤ gen.options.maxArrayLength) (hdepth : 1 ≤ gen.options.maxDepth) {es : List Addr}
    (ha : p.heap[a]? = some (.array es)) : May (TestCaseMutator.mutateValue gen root n a) p fun a' q =>
      Deep q.heap gen.options.maxDepth a' ∧ Widens p.heap q.heap := by
  have hnew : ∀ p, May (gen.generateValue root ⟨n⟩) p fun e q =>
      Deep q.heap (gen.options.maxDepth - 1) e ∧ Widens p.heap q.heap := fun p =>
        generate_deep hsize (by omega) (by omega)
  have hlevels : gen.options.maxDepth - 1 + 1 = gen.options.maxDepth := by omega
  refine mutateKind hdepth ha (by rintro ⟨⟩) (by rintro ⟨⟩) ?_
  show May (TestCaseMutator.mutateArray gen root n _ es) p _
  unfold TestCaseMutator.mutateArray
  -- an empty array gets an element, and any other has one to mutate
  by_cases hes : es = []
  · subst hes
    have hpush : TestCaseMutator.pushElement gen root n ∈ TestCaseMutator.arrayMutators gen root n [] := by
      unfold TestCaseMutator.arrayMutators
      rw [if_pos (by exact hsize)]
      simp
    rw [if_neg (by simpa using List.ne_nil_of_mem hpush)]
    refine (select hpush).bind ?_
    rintro _ _ ⟨rfl, rfl⟩
    unfold TestCaseMutator.pushElement
    refine (hnew _).bind fun e q he => ?_
    refine (createArray q _).mono fun a' r hr => ?_
    have hdeep := Deep.succ hr.1 (List.mem_append_right _ (List.mem_singleton_self e)) (he.1.widen hr.2)
    rw [hlevels] at hdeep
    exact ⟨hdeep, he.2.trans hr.2⟩
  · have hpos : 0 < es.length := List.length_pos_iff.2 hes
    have hmutate : TestCaseMutator.mutateElement ∈ TestCaseMutator.arrayMutators gen root n es := mutateElement_mem hpos
    rw [if_neg (by simpa using List.ne_nil_of_mem hmutate)]
    refine (select hmutate).bind ?_
    rintro _ _ ⟨rfl, rfl⟩
    unfold TestCaseMutator.mutateElement
    refine (next (k := 0) (Nat.le_refl 0) (Nat.zero_le _)).bind ?_
    rintro _ p ⟨rfl, rfl⟩
    rw [List.getElem?_eq_getElem hpos]
    -- one level below, a new value takes the place of the element
    have helement : May (TestCaseMutator.mutateValueAt gen root n gen.options.maxDepth es[0] 2) p fun e q =>
        Deep q.heap (gen.options.maxDepth - 1) e ∧ Widens p.heap q.heap := by
      obtain ⟨fuel, hfuel⟩ := Nat.exists_eq_add_of_le' hdepth
      rw [hfuel]
      unfold TestCaseMutator.mutateValueAt
      refine (generateNew_true gen 2 p).bind ?_
      rintro _ _ ⟨rfl, rfl⟩
      rw [if_pos rfl, ← Nat.add_sub_cancel (n := fuel) (m := 1), ← hfuel]
      exact hnew _
    refine helement.bind fun e q he => ?_
    refine (createArray q _).mono fun a' r hr => ?_
    have hdeep := Deep.succ hr.1 (by simp) (he.1.widen hr.2)
    rw [hlevels] at hdeep
    exact ⟨hdeep, he.2.trans hr.2⟩

end May

/-- The mutator may fail as it does for this kind of value. -/
theorem MayFail.mutateKind {fuel depth : ℕ} {v : Value} (hdepth : depth ≤ gen.options.maxDepth)
    (ha : p.heap[a]? = some v) (hundefined : v ≠ .literal .undefined) (hnull : v ≠ .literal .null)
    (hkind : MayFail (TestCaseMutator.mutateKind gen root n
      (fun element => TestCaseMutator.mutateValueAt gen root n fuel element (depth + 1)) a v) p) :
    MayFail (TestCaseMutator.mutateValueAt gen root n (fuel + 1) a depth) p := by
  unfold TestCaseMutator.mutateValueAt
  refine .after (May.generateNew_false hdepth) ?_
  rintro _ _ ⟨rfl, rfl⟩
  rw [if_neg Bool.false_ne_true]
  refine .after (May.readValue ha) ?_
  rintro w _ ⟨rfl, rfl⟩
  split
  · exact absurd rfl hundefined
  · exact absurd rfl hnull
  · refine .after (May.withProbability (by decide) (by decide) false) ?_
    rintro _ _ ⟨rfl, rfl⟩
    rw [if_neg Bool.false_ne_true]
    exact hkind

/-- **An operator without anything to do** may be reached, wherever in the value it is. -/
theorem mayFail_of_unworkable (hl : LevelsLE p.heap k a) {fuel depth : ℕ}
    (hdepth : depth + k ≤ gen.options.maxDepth + 1)
    (hfuel : k ≤ fuel) {b : Addr} {v : Value} (hb : Reach p.heap.graph a b) (hv : p.heap[b]? = some v)
    (hwork : ¬ Workable gen.options v) : MayFail (TestCaseMutator.mutateValueAt gen root n fuel a depth) p := by
  induction hl generalizing fuel depth with
  | @flat k a w ha hne =>
    obtain ⟨fuel, rfl⟩ := Nat.exists_eq_add_of_le' (Nat.le_trans (Nat.succ_pos _) hfuel)
    rcases Relation.ReflTransGen.cases_head hb with rfl | ⟨c, hc, -⟩
    · rw [ha] at hv
      cases hv
      -- of the values without elements, only the empty string has operators that need room
      obtain rfl : v = .literal (.string []) := by
        by_contra hnot
        exact hwork ⟨fun hv => absurd hv hnot, fun hv => absurd hv (hne [])⟩
      refine .mutateKind (by omega) ha (by rintro ⟨⟩) (by rintro ⟨⟩) ?_
      show MayFail (TestCaseMutator.mutateString gen []) p
      unfold TestCaseMutator.mutateString
      rw [if_pos (stringMutators_isEmpty_iff.2 hwork)]
      exact .throw _
    · obtain ⟨es, hes, -⟩ := succ_iff.1 hc
      rw [ha] at hes
      exact absurd (Option.some.inj hes) (hne es)
  | @array k a es ha helems ih =>
    obtain ⟨fuel, rfl⟩ := Nat.exists_eq_add_of_le' (Nat.le_trans (Nat.succ_pos _) hfuel)
    refine .mutateKind (by omega) ha (by rintro ⟨⟩) (by rintro ⟨⟩) ?_
    show MayFail (TestCaseMutator.mutateArray gen root n _ es) p
    unfold TestCaseMutator.mutateArray
    rcases Relation.ReflTransGen.cases_head hb with rfl | ⟨e, he, hreach⟩
    · rw [ha] at hv
      cases hv
      rw [if_pos (arrayMutators_isEmpty_iff.2 hwork)]
      exact .throw _
    · -- the value is below an element, which is drawn to be mutated
      obtain ⟨es', hes', hmem⟩ := succ_iff.1 he
      rw [ha] at hes'
      cases hes'
      obtain ⟨i, hi, hget⟩ := List.getElem_of_mem hmem
      have hmutate : TestCaseMutator.mutateElement ∈ TestCaseMutator.arrayMutators gen root n es :=
        mutateElement_mem (by omega)
      rw [if_neg (by simpa using List.ne_nil_of_mem hmutate)]
      refine .after (May.select hmutate) ?_
      rintro _ _ ⟨rfl, rfl⟩
      unfold TestCaseMutator.mutateElement
      have hlast : lastIndex es.length = es.length - 1 := if_neg (by omega)
      refine .after (May.next (k := i) (Nat.zero_le i) (by rw [hlast]; omega)) ?_
      rintro _ _ ⟨rfl, rfl⟩
      rw [List.getElem?_eq_getElem hi, hget]
      exact .first (ih e hmem (by omega) (by omega) hreach)

/-- **Values stay within the depth** when they are mutated just if they are no arrays, or arrays cannot have elements;
and a mutated value is returned just if every operator has something to do. -/
theorem mutatesWithinDepth_iff (hfs : fs ≠ []) (hstore : gen.store = CAFStore.addFunctions fs .new)
    (hroot : root < gen.store.entries.length) (hdepth : 1 ≤ gen.options.maxDepth) (hpool : p.InMemory)
    (ha : LevelsLE p.heap gen.options.maxDepth a) :
    MutatesWithinDepth gen root n p a ↔ (IsArray p.heap a → gen.options.maxArrayLength = 0) ∧
      ∀ b v, Reach p.heap.graph a b → p.heap[b]? = some v → Workable gen.options v := by
  constructor
  · refine fun hm => ⟨?_, fun b v hb hv => ?_⟩
    · rintro ⟨es, hes⟩
      by_contra hsize
      have hmay : May (TestCaseMutator.mutateValue gen root n a) p fun a' q =>
          Deep q.heap gen.options.maxDepth a' ∧ Widens p.heap q.heap := May.mutate_deep (by omega) hdepth hes
      -- one result has a level too many, and the mutator is a function of what is drawn
      obtain ⟨rnd, a', s', hrun, hdeep, -⟩ := hmay.run
      obtain ⟨a'', s'', hrun', hl⟩ := hm rnd
      rw [hrun] at hrun'
      cases hrun'
      exact absurd (hdeep.lt hl) (Nat.lt_irrefl _)
    · by_contra hwork
      have hfails : MayFail (TestCaseMutator.mutateValueAt gen root n (gen.options.maxDepth + 1) a 1) p :=
        mayFail_of_unworkable ha (by omega) (by omega) hb hv hwork
      obtain ⟨rnd, e, hfail⟩ := hfails
      obtain ⟨a', s', hrun, -⟩ := hm rnd
      unfold TestCaseMutator.mutateValue at hrun
      rw [hfail] at hrun
      cases hrun
  · rintro ⟨harray, hwork⟩ rnd
    have hexists : ∀ {k c}, LevelsLE p.heap k c → p.heap.Holds (fun _ => True) c := by
      intro k c hc
      induction hc with
      | flat hc hne => exact .flat hc hne trivial
      | array hc _ ih => exact .array hc trivial ih
    have hmutable : p.heap.Holds (Mutable gen.options (fun _ => False) fun _ => True) a := by
      intro b hb
      obtain ⟨v, hv, -⟩ := hexists ha b hb
      exact ⟨v, hv, fun _ _ _ _ => trivial, fun _ _ _ _ => trivial, fun hw => hw (hwork b v hb hv)⟩
    have hmutate : Ensures (fun _ => False) (TestCaseMutator.mutateValueAt gen root n (gen.options.maxDepth + 1) a 1)
        ⟨p, rnd⟩ fun a' s' => Remade gen.options (fun _ => True) p a a' s'.pool :=
      mutateValueAt_remade (generates_true gen.store root n).within (not_stuck hfs hstore hroot)
        (hpool.ready.supply fun _ _ => trivial) hmutable (by omega) (by omega)
    obtain ⟨a', s', hrun, hr⟩ := hmutate.returns fun _ => id
    refine ⟨a', s', hrun, ?_⟩
    -- only an array keeps elements of the old value
    by_cases hes : IsArray p.heap a
    · exact hr.levels (harray hes) _ ha
    · refine (hr.flat fun es hget => hes ⟨es, hget⟩).mono ?_
      unfold generatedLevels
      split <;> omega

end Caf
