import Caf.Proof.Logged
import Caf.Proof.MutateValue
import Caf.Spec.Retargeted

/-!
# Fixing placeholders

`PlaceholderFixer` visits every array that it can reach from the calls it is given, once, and writes what its
fixer makes of a placeholder in place of the placeholder. All other objects stay as they are. The runs are the logged
ones, whose log is a tour of the graph as it was before.

* `fixValue_ensures`: a value, and the arrays that can be reached from it.
* `fixCalls_ensures`: the calls, one after the other.
-/

namespace Caf

open ObjectGraph Run PlaceholderFixer

/-- Everything stays but the arrays below `N`. -/
def Stays (N : ℕ) (h h' : Heap) : Prop :=
  ∀ (b : Addr) v, h[b]? = some v → (N ≤ b ∨ ∀ es, v ≠ .array es) → h'[b]? = some v

/-- The fixer makes such replacements, of new objects and of ones without elements. -/
structure FixerOK (E : Error → Prop) (N : ℕ) (fixer : Fixer) (R : Replacement) : Prop where
  run : ∀ k j (s : Fuzzer), N ≤ s.heap.length → PoolReady s.pool → Ensures E (fixer k j) s fun a s' =>
    PoolReady s'.pool ∧ s.pool.Extends s'.pool ∧ R k j s'.heap a
  stays : ∀ {k j : ℕ} {h h' : Heap} {a : Addr}, R k j h a → Stays N h h' → R k j h' a

/-- The state while the test case of the heap `h` is fixed: only the arrays of `F` have changed. -/
structure Fixing (h : Heap) (F : List Addr) (s : Fuzzer) : Prop where
  ready : PoolReady s.pool
  length : h.length ≤ s.heap.length
  flat : ∀ (b : Addr) v, h[b]? = some v → (∀ es, v ≠ .array es) → s.heap[b]? = some v
  rest : ∀ (b : Addr) es, h[b]? = some (.array es) → b ∉ F → s.heap[b]? = some (.array es)
  arrays : ∀ b ∈ F, IsArray h b ∧ IsArray s.heap b
  nodup : F.Nodup

/-- The elements of the array at `b` have become what they should, and no array among them is left out. -/
def FixedArray (R : Replacement) (k : ℕ) (h : Heap) (F : List Addr) (h' : Heap) (b : Addr) : Prop :=
  ∃ es es', h[b]? = some (.array es) ∧ h'[b]? = some (.array es') ∧ List.Forall₂ (Retargets R k h h') es es' ∧
    ∀ e ∈ es, IsArray h e → e ∈ F

/-- The values at `as` have been fixed in call `k`, and `dest` is the array that they are elements of. -/
structure FixStep (R : Replacement) (k : ℕ) (h : Heap) (dest : Option Addr) (as F : List Addr) (s : Fuzzer)
    (l : List Visit) (F' : List Addr) (s' : Fuzzer) : Prop where
  fixing : Fixing h F' s'
  grows : F <:+ F'
  keep : ∀ b ∈ F, some b ≠ dest → s'.heap[b]? = s.heap[b]?
  fresh : ∀ (b : Addr) v, h.length ≤ b → s.heap[b]? = some v → s'.heap[b]? = some v
  fixed : ∀ b ∈ F', b ∉ F → FixedArray R k h F' s'.heap b
  tour : Tour h.graph dest {b | b ∈ F} as l {b | b ∈ F'}

variable {E : Error → Prop} {R : Replacement} {fixer : Fixer} {h h' : Heap} {F F' F'' as bs : List Addr} {k : ℕ}
  {dest : Option Addr} {s s' s'' : Fuzzer} {a b : Addr} {l l' log : List Visit}

theorem not_isArray {v : Value} (hv : h[a]? = some v) (hne : ∀ es, v ≠ .array es) : ¬ IsArray h a := by
  rintro ⟨es, hes⟩
  exact hne es (Option.some.inj (hv.symm.trans hes))

theorem Fixing.lt (hI : Fixing h F s) (hb : b ∈ F) : b < h.length := by
  obtain ⟨es, hes⟩ := (hI.arrays b hb).1
  exact (List.getElem?_eq_some_iff.1 hes).1

/-- There are no more visited arrays than objects. -/
theorem Fixing.length_le (hI : Fixing h F s) : F.length ≤ h.length := by
  have hsub : ∀ b ∈ F, b ∈ List.range h.length := fun b hb => List.mem_range.2 (hI.lt hb)
  simpa using (List.Nodup.subperm hI.nodup hsub).length_le

/-- Arrays stay arrays. -/
theorem Fixing.isArray (hI : Fixing h F s) (hb : IsArray h b) : IsArray s.heap b := by
  obtain ⟨es, hes⟩ := hb
  by_cases hmem : b ∈ F
  · exact (hI.arrays b hmem).2
  · exact ⟨es, hI.rest b es hes hmem⟩

theorem Retargets.mono (hr : Retargets R k h h' a b) {h'' : Heap} (hR : ∀ j b, R k j h' b → R k j h'' b) :
    Retargets R k h h'' a b := by
  cases hr with
  | literal ha => exact .literal ha
  | array ha => exact .array ha
  | placeholder ha hrep => exact .placeholder ha (hR _ _ hrep)

/-- What is new, and what has no elements, stays. -/
theorem Fixing.stays (h₀ : Fixing h F s) (h₁ : Fixing h F' s')
    (hfresh : ∀ (b : Addr) v, h.length ≤ b → s.heap[b]? = some v → s'.heap[b]? = some v) :
    Stays h.length s.heap s'.heap := by
  intro b v hb hv
  by_cases hlt : b < h.length
  · have hne : ∀ es, v ≠ .array es := hv.resolve_left (Nat.not_le.2 hlt)
    cases hold : h[b]? with
    | none =>
      rw [List.getElem?_eq_none_iff] at hold
      exact absurd hlt (Nat.not_lt.2 hold)
    | some w =>
      by_cases hw : ∃ es, w = .array es
      · obtain ⟨es, rfl⟩ := hw
        obtain ⟨fs, hfs⟩ := h₀.isArray ⟨es, hold⟩
        rw [hb] at hfs
        exact absurd (Option.some.inj hfs) (hne fs)
      · have hflat : ∀ es, w ≠ .array es := fun es hes => hw ⟨es, hes⟩
        have hsame := h₀.flat b w hold hflat
        rw [hb] at hsame
        rw [Option.some.inj hsame]
        exact h₁.flat b w hold hflat
  · exact hfresh b v (Nat.not_lt.1 hlt) hb

/-- Nothing changes for an array that is not touched again. -/
theorem FixedArray.lift {h₁ h₂ : Heap} (hf : FixedArray R k h F h₁ b) (hsub : ∀ e ∈ F, e ∈ F') (hkeep : h₂[b]? = h₁[b]?)
    (hR : ∀ j a, R k j h₁ a → R k j h₂ a) : FixedArray R k h F' h₂ b := by
  obtain ⟨es, es', hes, hes', hall, hclosed⟩ := hf
  exact ⟨es, es', hes, hkeep.trans hes', hall.imp fun _ _ hr => hr.mono hR, fun e he harr => hsub e (hclosed e he harr)⟩

namespace FixStep

theorem refl (hI : Fixing h F s) : FixStep R k h dest [] F s [] F s :=
  ⟨hI, List.suffix_refl F, fun _ _ _ => rfl, fun _ _ _ hb => hb, fun _ hb hn => absurd hb hn, .nil⟩

/-- What has been visited can be reached. -/
theorem reach (hs : FixStep R k h dest as F s l F' s') (hb : b ∈ F') (hn : b ∉ F) : ∃ a ∈ as, Reach h.graph a b := by
  have hlog : b ∈ entered l := ((hs.tour.recorded b).1 hb).resolve_left hn
  exact (hs.tour.reach b hlog).1

theorem stays (h₀ : Fixing h F s) (hs : FixStep R k h dest as F s l F' s') : Stays h.length s.heap s'.heap :=
  h₀.stays hs.fixing hs.fresh

/-- **One after the other.** -/
theorem trans (hR : FixerOK E h.length fixer R) (hdest : ∀ d, dest = some d → d ∈ F)
    (h₁ : FixStep R k h dest as F s l F' s') (h₂ : FixStep R k h dest bs F' s' l' F'' s'') :
    FixStep R k h dest (as ++ bs) F s (l ++ l') F'' s'' := by
  have hsub : ∀ b ∈ F, b ∈ F' := fun b hb => h₁.grows.subset hb
  refine ⟨h₂.fixing, h₁.grows.trans h₂.grows, fun b hb hne => ?_, fun b v hb hv => h₂.fresh b v hb (h₁.fresh b v hb hv),
    fun b hb hn => ?_, h₁.tour.append h₂.tour⟩
  · rw [h₂.keep b (hsub b hb) hne, h₁.keep b hb hne]
  · by_cases hmem : b ∈ F'
    · -- fixed before, and not touched since
      have hne : some b ≠ dest := fun hd => hn (hdest b hd.symm)
      exact (h₁.fixed b hmem hn).lift h₂.grows.subset (h₂.keep b hmem hne) fun j a hrep =>
        hR.stays hrep (h₂.stays h₁.fixing)
    · exact h₂.fixed b hb hmem

/-- A value without elements, or an array that has been visited. -/
theorem skip (hskip : IsArray h a → a ∈ F) (hs : FixStep R k h none [] F s l F' s') :
    FixStep R k h none [a] F s l F' s' :=
  { hs with tour := .skip (fun es hes => hskip ⟨es, Heap.graph_array.1 hes⟩) hs.tour }

/-- The value is an element of an array that has been visited, so that the step does not touch this array. -/
theorem under (hs : FixStep R k h none [a] F s l F' s') (d : Addr) :
    FixStep R k h (some d) [a] F s (.take d a :: l) F' s' :=
  ⟨hs.fixing, hs.grows, fun b hb _ => hs.keep b hb (by simp), hs.fresh, hs.fixed, hs.tour.take⟩

end FixStep

/-- The value at `a` has been fixed: it has become `a'`. -/
structure FixedValue (R : Replacement) (k : ℕ) (h : Heap) (F : List Addr) (s : Fuzzer) (a a' : Addr) (l : List Visit)
    (F' : List Addr) (s' : Fuzzer) : Prop where
  step : FixStep R k h none [a] F s l F' s'
  value : Retargets R k h s'.heap a a'
  visited : IsArray h a → a ∈ F'

/-! ## Elements -/

theorem getElement_ensures {es : List Addr} {i : ℕ} {e : Addr} (ha : s.heap[a]? = some (.array es))
    (he : es[i]? = some e) :
    Ensures E (getElement a i) s fun e' s' => e' = e ∧ s' = s := by
  unfold getElement
  refine (readValue_ensures ha).bind ?_
  rintro _ _ ⟨rfl, rfl⟩
  dsimp only
  rw [he]
  exact .pure ⟨rfl, rfl⟩

theorem setElement_ensures {es : List Addr} {i : ℕ} (ha : s.heap[a]? = some (.array es)) (hi : i < es.length)
    (e : Addr) :
    Ensures E (setElement a i e) s fun _ s' =>
      s' = { s with pool := { s.pool with heap := s.heap.set a (.array (es.set i e)) } } := by
  refine Ensures.of_eq (a := ()) ?_ rfl
  unfold setElement
  rw [ha]
  dsimp only
  rw [if_pos hi]

/-- Writing an element of a visited array. -/
theorem Fixing.write (hI : Fixing h F s) (ha : a ∈ F) {es : List Addr} (hes : s.heap[a]? = some (.array es))
    (es' : List Addr) : FixStep R k h (some a) [] F s [] F
    { s with pool := { s.pool with heap := s.heap.set a (.array es') } } := by
  have hlt : a < s.heap.length := (List.getElem?_eq_some_iff.1 hes).1
  have harr := (hI.arrays a ha).1
  have hother : ∀ b, b ≠ a → (s.heap.set a (.array es'))[b]? = s.heap[b]? := fun b hb => List.getElem?_set_ne hb.symm
  refine ⟨⟨hI.ready.setArray es' hes, ?_, ?_, ?_, ?_, hI.nodup⟩, List.suffix_refl F, ?_, ?_,
    fun _ hb hn => absurd hb hn, .nil⟩
  · show h.length ≤ (s.heap.set a (.array es')).length
    rw [List.length_set]
    exact hI.length
  · intro b v hb hv
    have hne : b ≠ a := by
      rintro rfl
      obtain ⟨fs, hfs⟩ := harr
      rw [hb] at hfs
      exact hv fs (Option.some.inj hfs)
    exact (hother b hne).trans (hI.flat b v hb hv)
  · intro b fs hb hn
    have hne : b ≠ a := by
      rintro rfl
      exact hn ha
    exact (hother b hne).trans (hI.rest b fs hb hn)
  · intro b hb
    refine ⟨(hI.arrays b hb).1, ?_⟩
    by_cases hab : b = a
    · subst hab
      exact ⟨es', List.getElem?_set_self hlt⟩
    · obtain ⟨fs, hfs⟩ := (hI.arrays b hb).2
      exact ⟨fs, (hother b hab).trans hfs⟩
  · intro b hb hne
    exact hother b fun hab => hne (by rw [hab])
  · intro b v hb hv
    have hne : b ≠ a := by
      rintro rfl
      exact absurd (hI.lt ha) (Nat.not_lt.2 hb)
    exact (hother b hne).trans hv

/-- **The elements** of a visited array, from index `i` on. -/
theorem fixElements_ensures (hR : FixerOK E h.length fixer R)
    {fixValue : Addr → List Addr → Logged Visit FuzzM (Addr × List Addr)} {rest : List Addr}
    (hvalue : ∀ e ∈ rest, ∀ F₁ s₁ log, F <:+ F₁ → Fixing h F₁ s₁ → Ensures E (fixValue e F₁ log) s₁ fun r s' =>
      ∃ l, r.2 = log ++ l ∧ FixedValue R k h F₁ s₁ e r.1.1 l r.1.2 s') (ha : a ∈ F) :
    ∀ (done done' : List Addr) {F₁ : List Addr} {s₁ : Fuzzer} (log : List Visit), F <:+ F₁ → Fixing h F₁ s₁ →
      s₁.heap[a]? = some (.array (done' ++ rest)) → List.Forall₂ (Retargets R k h s₁.heap) done done' →
      Ensures E (fixElementsLogged fixValue a (List.range' done.length rest.length) F₁ log) s₁ fun r s' =>
        ∃ l, r.2 = log ++ l ∧ FixStep R k h (some a) rest F₁ s₁ l r.1 s' ∧ (∀ e ∈ rest, IsArray h e → e ∈ r.1) ∧
          ∃ es', s'.heap[a]? = some (.array es') ∧ List.Forall₂ (Retargets R k h s'.heap) (done ++ rest) es' := by
  -- by induction on what is left: `done` is fixed, and stands as `done'` in the array
  induction rest with
  | nil =>
    intro done done' F₁ s₁ log _ hI hes hall
    rw [List.append_nil] at hes
    refine Logged.ensures_pure ⟨[], (List.append_nil log).symm, FixStep.refl hI, by simp, done', hes, ?_⟩
    rwa [List.append_nil]
  | cons e rest ih =>
    intro done done' F₁ s₁ log hF hI hes hall
    have hlen := hall.length_eq
    have ha₁ : a ∈ F₁ := hF.subset ha
    rw [List.length_cons, List.range'_succ]
    unfold fixElementsLogged
    have hget : (done' ++ e :: rest)[done.length]? = some e := by
      rw [hlen]
      simp
    refine Logged.ensures_silent (getElement_ensures hes hget) ?_
    rintro x t ⟨hx, ht⟩
    subst x t
    refine Logged.ensures_note (Logged.ensures_bind (hvalue e List.mem_cons_self F₁ s₁ _ hF hI) ?_)
    rintro ⟨⟨e', F₂⟩, log₂⟩ s₂ ⟨l₂, hlog₂, he⟩
    dsimp only at hlog₂ he ⊢
    have ha₂ : a ∈ F₂ := he.step.grows.subset ha₁
    have hes₂ : s₂.heap[a]? = some (.array (done' ++ e :: rest)) := by
      rw [he.step.keep a ha₁ (by simp), hes]
    refine Logged.ensures_silent (setElement_ensures hes₂ (by rw [hlen]; simp) e') ?_
    rintro _ s₃ rfl
    have hwrite := he.step.fixing.write (R := R) (k := k) ha₂ hes₂ ((done' ++ e :: rest).set done.length e')
    have hstep := (he.step.under a).trans hR (by rintro d ⟨⟩; exact ha₁) hwrite
    have hstays : ∀ j b, R k j s₂.heap b → R k j (s₂.heap.set a (.array ((done' ++ e :: rest).set done.length e'))) b :=
      fun j b hrep => hR.stays hrep (hwrite.stays he.step.fixing)
    have hes₃ : (s₂.heap.set a (.array ((done' ++ e :: rest).set done.length e')))[a]? =
        some (.array ((done' ++ [e']) ++ rest)) := by
      rw [List.getElem?_set_self (List.getElem?_eq_some_iff.1 hes₂).1, hlen, List.set_append_right _ _ (Nat.le_refl _),
        Nat.sub_self, List.set_cons_zero, List.append_assoc]
      rfl
    have hall₃ : List.Forall₂ (Retargets R k h (s₂.heap.set a (.array ((done' ++ e :: rest).set done.length e'))))
        (done ++ [e]) (done' ++ [e']) := by
      refine List.rel_append (hall.imp fun _ _ hr => ?_) (.cons (he.value.mono hstays) .nil)
      exact (hr.mono fun j b hrep => hR.stays hrep (he.step.stays hI)).mono hstays
    have hnext := ih (fun e he => hvalue e (List.mem_cons_of_mem _ he)) (done ++ [e]) (done' ++ [e']) log₂
      (hF.trans he.step.grows) hwrite.fixing hes₃ hall₃
    rw [List.length_append, List.length_singleton] at hnext
    refine hnext.mono ?_
    rintro ⟨F', log'⟩ s' ⟨l', hlog', hrest, hvisited, es', hes', hall'⟩
    dsimp only at hlog' hrest hvisited
    have hwhole := hstep.trans hR (by rintro d ⟨⟩; exact ha₁) hrest
    refine ⟨_, ?_, hwhole, fun x hx harr => ?_, es', hes', by rwa [List.append_assoc] at hall'⟩
    · simp [hlog', hlog₂]
    · rcases List.mem_cons.1 hx with rfl | hx
      · exact hrest.grows.subset (he.visited harr)
      · exact hvisited x hx harr

/-- Visiting an array. -/
theorem Fixing.visit (hI : Fixing h F s) {es : List Addr} (ha : h[a]? = some (.array es)) (hn : a ∉ F) :
    Fixing h (a :: F) s := by
  refine ⟨hI.ready, hI.length, hI.flat, fun b fs hb hbn => ?_, fun b hb => ?_, List.nodup_cons.2 ⟨hn, hI.nodup⟩⟩
  · exact hI.rest b fs hb fun hmem => hbn (List.mem_cons_of_mem _ hmem)
  · rcases List.mem_cons.1 hb with rfl | hb
    · exact ⟨⟨es, ha⟩, es, hI.rest b es ha hn⟩
    · exact hI.arrays b hb

/-- The fixer made something new; no array has changed. -/
theorem Fixing.extend (hI : Fixing h F s) (hq : PoolReady s'.pool) (hx : s.pool.Extends s'.pool) :
    FixStep R k h dest [] F s [] F s' := by
  have hold : ∀ (b : Addr) v, s.heap[b]? = some v → s'.heap[b]? = some v := fun b v hb => getElem?_grows hx hb
  refine ⟨⟨hq, Nat.le_trans hI.length hx.length_le, fun b v hb hv => hold b v (hI.flat b v hb hv),
    fun b es hb hn => hold b _ (hI.rest b es hb hn), fun b hb => ?_, hI.nodup⟩, List.suffix_refl F, fun b hb _ => ?_,
    fun b v _ hb => hold b v hb, fun _ hb hn => absurd hb hn, .nil⟩
  · obtain ⟨harr, es, hes⟩ := hI.arrays b hb
    exact ⟨harr, es, hold b _ hes⟩
  · obtain ⟨-, es, hes⟩ := hI.arrays b hb
    rw [hes]
    exact hold b _ hes

/-! ## Values -/

/-- A visited array, once its elements are fixed. -/
theorem FixStep.array {es es' : List Addr} (ha : h[a]? = some (.array es)) (hn : a ∉ F)
    (hs : FixStep R k h (some a) es (a :: F) s l F' s') (hvisited : ∀ e ∈ es, IsArray h e → e ∈ F')
    (hes' : s'.heap[a]? = some (.array es')) (hall : List.Forall₂ (Retargets R k h s'.heap) es es') :
    FixStep R k h none [a] F s (.enter a :: l) F' s' := by
  refine ⟨hs.fixing, (List.suffix_cons a F).trans hs.grows, fun b hb _ => ?_, hs.fresh, fun b hb hbn => ?_, ?_⟩
  · refine hs.keep b (List.mem_cons_of_mem _ hb) fun hba => hn ?_
    rwa [← Option.some.inj hba]
  · by_cases hba : b = a
    · subst hba
      exact ⟨es, es', ha, hes', hall, hvisited⟩
    · refine hs.fixed b hb fun hmem => ?_
      rcases List.mem_cons.1 hmem with rfl | hmem
      · exact hba rfl
      · exact hbn hmem
  · -- the array is noted before its elements are, and is recorded for them
    have hinsert : {b | b ∈ a :: F} = insert a {b | b ∈ F} := Set.ext fun b => List.mem_cons
    have htour := hs.tour
    rw [hinsert] at htour
    have hwhole : Tour _ none _ _ _ _ := .node (Heap.graph_array.2 ha) hn htour .nil
    rwa [List.append_nil] at hwhole

/-- **A value**, by induction on the fuel: there are no more visits than objects. -/
theorem fixValue_ensures (hR : FixerOK E h.length fixer R) {fuel : ℕ} (hfuel : h.length < fuel + F.length)
    (ha : h.Holds (fun _ => True) a) (hI : Fixing h F s) (log : List Visit) :
    Ensures E (fixValueLogged fixer k fuel a F log) s fun r s' =>
      ∃ l, r.2 = log ++ l ∧ FixedValue R k h F s a r.1.1 l r.1.2 s' := by
  induction fuel generalizing a F s log with
  | zero =>
    have hle := hI.length_le
    exact absurd hfuel (by omega)
  | succ fuel ih =>
    obtain ⟨v, hv, -⟩ := ha.here
    unfold fixValueLogged
    cases v with
    | literal c =>
      have hflat : ¬ IsArray h a := not_isArray hv (by simp)
      refine Logged.ensures_silent (readValue_ensures (hI.flat a _ hv (by simp))) ?_
      rintro v t ⟨hv', ht⟩
      subst v t
      have hstep := (FixStep.refl hI).skip (R := R) (k := k) fun harr => absurd harr hflat
      exact Logged.ensures_pure ⟨[], (List.append_nil log).symm, hstep, .literal hv, fun harr => absurd harr hflat⟩
    | placeholder j =>
      have hflat : ¬ IsArray h a := not_isArray hv (by simp)
      refine Logged.ensures_silent (readValue_ensures (hI.flat a _ hv (by simp))) ?_
      rintro v t ⟨hv', ht⟩
      subst v t
      refine Logged.ensures_silent (hR.run k j s hI.length hI.ready) ?_
      rintro a' s' ⟨hready, hx, hrep⟩
      have hstep := (hI.extend hready hx).skip (R := R) (k := k) fun harr => absurd harr hflat
      refine Logged.ensures_pure ⟨[], (List.append_nil log).symm, hstep, .placeholder hv hrep, ?_⟩
      exact fun harr => absurd harr hflat
    | array es =>
      obtain ⟨fs, hfs⟩ := hI.isArray ⟨es, hv⟩
      refine Logged.ensures_silent (readValue_ensures hfs) ?_
      rintro v t ⟨hv', ht⟩
      subst v t
      dsimp only
      -- an array that is fixed already is left alone, so that cycles end here
      by_cases hmem : a ∈ F
      · rw [if_pos hmem]
        have hstep := (FixStep.refl hI).skip (R := R) (k := k) fun _ => hmem
        exact Logged.ensures_pure ⟨[], (List.append_nil log).symm, hstep, .array ⟨es, hv⟩, fun _ => hmem⟩
      · rw [if_neg hmem]
        rw [hI.rest a es hv hmem] at hfs
        cases hfs
        have hvisit := hI.visit hv hmem
        have helems : ∀ e ∈ es, ∀ F₁ s₁ log, a :: F <:+ F₁ → Fixing h F₁ s₁ →
            Ensures E (fixValueLogged fixer k fuel e F₁ log) s₁ fun r s' =>
              ∃ l, r.2 = log ++ l ∧ FixedValue R k h F₁ s₁ e r.1.1 l r.1.2 s' := by
          intro e he F₁ s₁ log hF hI₁
          have hlen := hF.length_le
          rw [List.length_cons] at hlen
          exact ih (by omega) (ha.elements hv he) hI₁ log
        have hloop := fixElements_ensures hR helems List.mem_cons_self [] [] (log ++ [.enter a]) (List.suffix_refl _)
          hvisit (hI.rest a es hv hmem) .nil
        rw [List.length_nil, ← List.range_eq_range'] at hloop
        refine Logged.ensures_note (Logged.ensures_bind hloop ?_)
        rintro ⟨F', log'⟩ s' ⟨l, hlog, hstep, hvisited, es', hes', hall⟩
        dsimp only at hlog hstep hvisited ⊢
        refine Logged.ensures_pure ⟨.enter a :: l, ?_, hstep.array hv hmem hvisited hes' hall, .array ⟨es, hv⟩, ?_⟩
        · rw [hlog, List.append_assoc, List.singleton_append]
        · exact fun _ => hstep.grows.subset List.mem_cons_self

/-- The values at `as` have been fixed: they have become `as'`. -/
structure FixedValues (R : Replacement) (k : ℕ) (h : Heap) (F : List Addr) (s : Fuzzer) (as as' : List Addr)
    (l : List Visit) (F' : List Addr) (s' : Fuzzer) : Prop where
  step : FixStep R k h none as F s l F' s'
  values : List.Forall₂ (Retargets R k h s'.heap) as as'
  visited : ∀ a ∈ as, IsArray h a → a ∈ F'

/-- Values are fixed one after the other. -/
theorem fixValues_ensures (hR : FixerOK E h.length fixer R) {fuel : ℕ} (hfuel : h.length < fuel + F.length)
    (has : ∀ a ∈ as, h.Holds (fun _ => True) a) (hI : Fixing h F s) (log : List Visit) :
    Ensures E (fixValuesLogged fixer k fuel as F log) s fun r s' =>
      ∃ l, r.2 = log ++ l ∧ FixedValues R k h F s as r.1.1 l r.1.2 s' := by
  induction as generalizing F s log with
  | nil => exact Logged.ensures_pure ⟨[], (List.append_nil log).symm, FixStep.refl hI, .nil, by simp⟩
  | cons a as ih =>
    unfold fixValuesLogged
    refine Logged.ensures_bind (fixValue_ensures hR hfuel (has a List.mem_cons_self) hI log) ?_
    rintro ⟨⟨a', F₁⟩, log₁⟩ s₁ ⟨l₁, hlog₁, ha⟩
    dsimp only at hlog₁ ha ⊢
    have hlen := ha.step.grows.length_le
    refine Logged.ensures_bind
      (ih (by omega) (fun b hb => has b (List.mem_cons_of_mem _ hb)) ha.step.fixing log₁) ?_
    rintro ⟨⟨as', F₂⟩, log₂⟩ s₂ ⟨l₂, hlog₂, hrest⟩
    dsimp only at hlog₂ hrest ⊢
    have hstays := hrest.step.stays ha.step.fixing
    refine Logged.ensures_pure ⟨l₁ ++ l₂, by rw [hlog₂, hlog₁, List.append_assoc],
      ha.step.trans hR (by simp) hrest.step, .cons (ha.value.mono ?_) hrest.values, fun b hb harr => ?_⟩
    · exact fun j b hrep => hR.stays hrep hstays
    · rcases List.mem_cons.1 hb with rfl | hb
      · exact hrest.step.grows.subset (ha.visited harr)
      · exact hrest.visited b hb harr

/-! ## Calls -/

theorem RetargetedCall.roots {call call' : FunctionCall} (hr : RetargetedCall R k h h' call call') :
    List.Forall₂ (Retargets R k h h') call.roots call'.roots :=
  List.rel_append hr.thisValue hr.args

theorem RetargetedCall.mono {call call' : FunctionCall} (hr : RetargetedCall R k h h' call call') {h'' : Heap}
    (hR : ∀ j b, R k j h' b → R k j h'' b) : RetargetedCall R k h h'' call call' :=
  ⟨hr.funcId, hr.thisValue.imp fun _ _ hv => hv.mono hR, hr.ctor, hr.args.imp fun _ _ hv => hv.mono hR⟩

/-- The `this` object that a call has is fixed like a list of at most one value. -/
theorem toList_head? {r : Addr → Addr → Prop} {o : Option Addr} {l : List Addr} (hl : List.Forall₂ r o.toList l) :
    l.head?.toList = l := by
  cases o with
  | none =>
    cases hl
    rfl
  | some a =>
    rcases hl with - | ⟨-, ⟨⟩⟩
    rfl

theorem fixCall_ensures (hR : FixerOK E h.length fixer R) {fuel : ℕ} (hfuel : h.length < fuel + F.length)
    {call : FunctionCall} (hcall : ∀ a ∈ call.roots, h.Holds (fun _ => True) a) (hI : Fixing h F s) (log : List Visit) :
    Ensures E (fixCallLogged fixer k fuel call F log) s fun r s' =>
      ∃ l, r.2 = log ++ l ∧ FixStep R k h none call.roots F s l r.1.2 s' ∧ RetargetedCall R k h s'.heap call r.1.1 ∧
        ∀ a ∈ call.roots, IsArray h a → a ∈ r.1.2 := by
  unfold fixCallLogged
  refine Logged.ensures_bind (fixValues_ensures hR hfuel (fun a ha => hcall a (List.mem_append_left _ ha)) hI log) ?_
  rintro ⟨⟨this', F₁⟩, log₁⟩ s₁ ⟨l₁, hlog₁, hthis⟩
  dsimp only at hlog₁ hthis ⊢
  have hlen := hthis.step.grows.length_le
  refine Logged.ensures_bind
    (fixValues_ensures hR (by omega) (fun a ha => hcall a (List.mem_append_right _ ha)) hthis.step.fixing log₁) ?_
  rintro ⟨⟨args', F₂⟩, log₂⟩ s₂ ⟨l₂, hlog₂, hargs⟩
  dsimp only at hlog₂ hargs ⊢
  have hstays := hargs.step.stays hthis.step.fixing
  refine Logged.ensures_pure ⟨l₁ ++ l₂, by rw [hlog₂, hlog₁, List.append_assoc],
    hthis.step.trans hR (by simp) hargs.step, ⟨rfl, ?_, rfl, hargs.values⟩, fun a ha harr => ?_⟩
  · rw [toList_head? hthis.values]
    exact hthis.values.imp fun _ _ hv => hv.mono fun j b hrep => hR.stays hrep hstays
  · rcases List.mem_append.1 ha with ha | ha
    · exact hargs.step.grows.subset (hthis.visited a ha harr)
    · exact hargs.visited a ha harr

/-- No visited array has an array among its elements that has not been visited. -/
def VisitedClosed (h : Heap) (F : List Addr) : Prop :=
  ∀ b ∈ F, ∀ es, h[b]? = some (.array es) → ∀ e ∈ es, IsArray h e → e ∈ F

theorem VisitedClosed.step (hF : VisitedClosed h F) (hs : FixStep R k h none as F s l F' s') : VisitedClosed h F' := by
  intro b hb es hes e he harr
  by_cases hmem : b ∈ F
  · exact hs.grows.subset (hF b hmem es hes e he harr)
  · obtain ⟨fs, -, hfs, -, -, hclosed⟩ := hs.fixed b hb hmem
    rw [hes] at hfs
    cases hfs
    exact hclosed e he harr

/-- **Everything that can be reached** from visited arrays has been visited. -/
theorem VisitedClosed.reach (hF : VisitedClosed h F) (ha : IsArray h a → a ∈ F) (hab : Reach h.graph a b)
    (hb : IsArray h b) : b ∈ F := by
  induction hab with
  | refl => exact ha hb
  | @tail c b _ hs ih =>
    obtain ⟨es, hes, hmem⟩ := succ_iff.1 hs
    exact hF c (ih ⟨es, hes⟩) es hes b hmem hb

/-- The calls from call `i` on have been fixed. -/
structure FixedCalls (R : Replacement) (i : ℕ) (h : Heap) (F : List Addr) (s : Fuzzer)
    (calls calls' : List FunctionCall)
    (F' : List Addr) (s' : Fuzzer) : Prop where
  fixing : Fixing h F' s'
  grows : F <:+ F'
  keep : ∀ b ∈ F, s'.heap[b]? = s.heap[b]?
  fresh : ∀ (b : Addr) v, h.length ≤ b → s.heap[b]? = some v → s'.heap[b]? = some v
  length : calls'.length = calls.length
  call : ∀ (n : ℕ) call call', calls[n]? = some call → calls'[n]? = some call' →
    RetargetedCall R (i + n) h s'.heap call call'
  fixed : ∀ b ∈ F', b ∉ F → ∃ n, CallReaches h calls n b ∧ (∀ m < n, ¬ CallReaches h calls m b) ∧
    FixedArray R (i + n) h F' s'.heap b
  visited : ∀ call ∈ calls, ∀ a ∈ call.roots, IsArray h a → a ∈ F'
  closed : VisitedClosed h F'

/-- **The calls** are fixed one after the other, and every array in the first call that leads to it. -/
theorem fixCalls_ensures (hR : FixerOK E h.length fixer R) {fuel i : ℕ} {calls : List FunctionCall}
    (hfuel : h.length < fuel + F.length) (hcalls : ∀ call ∈ calls, ∀ a ∈ call.roots, h.Holds (fun _ => True) a)
    (hI : Fixing h F s) (hF : VisitedClosed h F) (log : List Visit) :
    Ensures E (fixCallsLogged fixer fuel i calls F log) s fun r s' =>
      ∃ l F', r.2 = log ++ l ∧ Tour h.graph none {b | b ∈ F} (calls.flatMap FunctionCall.roots) l {b | b ∈ F'} ∧
        FixedCalls R i h F s calls r.1 F' s' := by
  induction calls generalizing i F s log with
  | nil =>
    exact Logged.ensures_pure ⟨[], F, (List.append_nil log).symm, .nil, hI, List.suffix_refl F, fun _ _ => rfl,
      fun _ _ _ hb => hb, rfl, by simp, fun _ hb hn => absurd hb hn, by simp, hF⟩
  | cons call calls ih =>
    unfold fixCallsLogged
    refine Logged.ensures_bind (fixCall_ensures hR hfuel (hcalls call List.mem_cons_self) hI log) ?_
    rintro ⟨⟨call', F₁⟩, log₁⟩ s₁ ⟨l₁, hlog₁, hstep, hcall, hvisited⟩
    dsimp only at hlog₁ hstep hcall hvisited ⊢
    have hlen := hstep.grows.length_le
    have hF₁ := hF.step hstep
    refine Logged.ensures_bind
      (ih (i := i + 1) (by omega) (fun c hc => hcalls c (List.mem_cons_of_mem _ hc)) hstep.fixing hF₁ log₁) ?_
    rintro ⟨calls', log₂⟩ s' ⟨l₂, F', hlog₂, htour, hrest⟩
    dsimp only at hlog₂ hrest ⊢
    have hsub : ∀ b ∈ F, b ∈ F₁ := fun b hb => hstep.grows.subset hb
    have hstays := hstep.fixing.stays hrest.fixing hrest.fresh
    have hlift : ∀ j a, R i j s₁.heap a → R i j s'.heap a := fun j a hrep => hR.stays hrep hstays
    refine Logged.ensures_pure ⟨l₁ ++ l₂, F', by rw [hlog₂, hlog₁, List.append_assoc], hstep.tour.append htour,
      hrest.fixing, hstep.grows.trans hrest.grows, fun b hb => ?_,
      fun b v hb hv => hrest.fresh b v hb (hstep.fresh b v hb hv), by simp [hrest.length], fun n c c' hc hc' => ?_,
      fun b hb hn => ?_, fun c hc a ha harr => ?_, hrest.closed⟩
    · rw [hrest.keep b (hsub b hb), hstep.keep b hb (by simp)]
    · cases n with
      | zero =>
        cases hc
        cases hc'
        exact hcall.mono hlift
      | succ n =>
        have hnext := hrest.call n c c' hc hc'
        rwa [show i + 1 + n = i + (n + 1) by omega] at hnext
    · by_cases hmem : b ∈ F₁
      · obtain ⟨a, ha, hreach⟩ := hstep.reach hmem hn
        exact ⟨0, ⟨call, rfl, a, ha, hreach⟩, by simp,
          (hstep.fixed b hmem hn).lift hrest.grows.subset (hrest.keep b hmem) hlift⟩
      · obtain ⟨n, hreach, hfirst, hfixed⟩ := hrest.fixed b hb hmem
        refine ⟨n + 1, hreach, fun m hm => ?_, by rwa [show i + 1 + n = i + (n + 1) by omega] at hfixed⟩
        cases m with
        | zero =>
          -- what the call leads to has been visited
          rintro ⟨c, hc, a, ha, hab⟩
          cases hc
          exact hmem (hF₁.reach (hvisited a ha) hab (hrest.fixing.arrays b hb).1)
        | succ m => exact hfirst m (by omega)
    · rcases List.mem_cons.1 hc with rfl | hc
      · exact hrest.grows.subset (hvisited a ha harr)
      · exact hrest.visited c hc a ha harr

/-- **`Fix`**, with its log. -/
theorem fixLogged_ensures (start : ℕ) (tc : TestCase) (hR : FixerOK E s.heap.length fixer R) (h : PoolReady s.pool)
    (hcalls : ∀ call ∈ tc.calls.drop start, ∀ a ∈ call.roots, s.heap.Holds (fun _ => True) a) :
    Ensures E (fixLogged fixer start tc []) s fun r s' => ∃ calls' F',
      r.1 = { tc with calls := tc.calls.take start ++ calls' } ∧
        Tour s.heap.graph none ∅ ((tc.calls.drop start).flatMap FunctionCall.roots) r.2 {b | b ∈ F'} ∧
        FixedCalls R start s.heap [] s (tc.calls.drop start) calls' F' s' := by
  have hI : Fixing s.heap [] s :=
    ⟨h, Nat.le_refl _, fun _ _ hb _ => hb, fun _ _ hb _ => hb, by simp, List.nodup_nil⟩
  have hget : Ensures E (get : FuzzM Fuzzer) s fun t s' => t = s ∧ s' = s := .of_eq rfl ⟨rfl, rfl⟩
  have hnone : {b : Addr | b ∈ ([] : List Addr)} = ∅ := by simp
  unfold fixLogged
  refine Logged.ensures_silent hget ?_
  rintro _ _ ⟨rfl, rfl⟩
  refine Logged.ensures_bind (fixCalls_ensures hR (by simp) hcalls hI (by simp [VisitedClosed]) []) ?_
  rintro ⟨calls', log⟩ s' ⟨l, F', hlog, htour, hfixed⟩
  dsimp only at hlog htour hfixed
  rw [hnone] at htour
  rw [List.nil_append] at hlog
  subst hlog
  exact Logged.ensures_pure ⟨calls', F', rfl, htour, hfixed⟩

end Caf
