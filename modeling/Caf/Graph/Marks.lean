import Caf.Graph.Steps

/-!
# Labels and references

A traversal that hands out slots prints a label where a node or a result takes one, and a reference where a node
occurs again or a result is used. Nodes are referred to by their slots, but results by their own numbers.

* `Marks.slots`, `MarksSteps.slots`: the labels are the slots, in order.
* `MarksSteps.resolves_iff`: all references have labels just if results are their own slots.
* `WalkSteps.slot_iff`: a result is its own slot just if no step up to it reaches a node.
-/

namespace ObjectGraph

universe u

/-- What is printed about a slot. -/
inductive Mark where
  | label (r : Referent) (slot : ℕ)
  | ref (r : Referent) (index : ℕ)
  deriving DecidableEq

/-- The labels among the marks. -/
def labels (ms : List Mark) : List (Referent × ℕ) := ms.filterMap fun
  | .label r k => some (r, k)
  | .ref _ _ => none

/-- **Every reference has a label before it**, if it is not one of `known`. -/
def Resolves : List (Referent × ℕ) → List Mark → Prop
  | _, [] => True
  | known, .label r k :: ms => Resolves (known ++ [(r, k)]) ms
  | known, .ref r k :: ms => (r, k) ∈ known ∧ Resolves known ms

section Logs

variable {σ ε ι κ : Type*}

/-- The rest of a log, after a part of the run that has returned. -/
def logAfter (r : Except ε σ) (log : σ → List κ) : List κ :=
  match r with
  | .ok s => log s
  | .error _ => []

/-- The log of a loop. -/
def logEach (step : ι → σ → Except ε σ) (log : ι → σ → List κ) : List ι → σ → List κ
  | [], _ => []
  | i :: is, s => log i s ++ logAfter (step i s) (logEach step log is)

end Logs

variable {L : Type*} {O : Type u}

/-- `Marks g S as ms S'`: walking the addresses `as` of `g` from the slots `S` prints `ms` and leaves the slots `S'`. -/
inductive Marks (g : Graph L) : List Referent → List ℕ → List Mark → List Referent → Prop
  | nil {S} : Marks g S [] [] S
  | leaf {S a l as ms S'} : g a = some (.leaf l) → Marks g S as ms S' → Marks g S (a :: as) ms S'
  | result {S a i as ms S'} : g a = some (.result i) → Marks g S as ms S' →
      Marks g S (a :: as) (.ref (.result i) i :: ms) S'
  | seen {S a es k as ms S'} : g a = some (.node es) → S[k]? = some (.node a) → Marks g S as ms S' →
      Marks g S (a :: as) (.ref (.node a) k :: ms) S'
  | node {S a es ms₁ S₁ as ms₂ S'} : g a = some (.node es) → .node a ∉ S → Marks g (S ++ [.node a]) es ms₁ S₁ →
      Marks g S₁ as ms₂ S' → Marks g S (a :: as) (.label (.node a) S.length :: (ms₁ ++ ms₂)) S'

/-- `MarksSteps g i S steps ms S'`: walking `steps`, the first of which has number `i`. -/
inductive MarksSteps (g : Graph L) : ℕ → List Referent → List (Step O (List ℕ)) → List Mark → List Referent → Prop
  | nil {i S} : MarksSteps g i S [] [] S
  | cons {i S op as bs ms₁ S₁ ms₂ S₂ steps ms S'} : Marks g S as ms₁ S₁ → Marks g S₁ bs ms₂ S₂ →
      MarksSteps g (i + 1) (S₂ ++ [.result i]) steps ms S' →
      MarksSteps g i S (⟨op, as, bs⟩ :: steps) (ms₁ ++ ms₂ ++ .label (.result i) S₂.length :: ms) S'

variable {g : Graph L} {i j k : ℕ} {S S' : List Referent} {as : List ℕ} {ms ms' : List Mark}
  {steps : List (Step O (List ℕ))} {Fs : List (Step O (Forest L))} {known : List (Referent × ℕ)} {r : Referent}

@[simp] theorem labels_append (ms ms' : List Mark) : labels (ms ++ ms') = labels ms ++ labels ms' :=
  List.filterMap_append

@[simp] theorem labels_label (r : Referent) (k : ℕ) (ms : List Mark) :
    labels (.label r k :: ms) = (r, k) :: labels ms := rfl

@[simp] theorem labels_ref (r : Referent) (k : ℕ) (ms : List Mark) : labels (.ref r k :: ms) = labels ms := rfl

theorem resolves_append : Resolves known (ms ++ ms') ↔ Resolves known ms ∧ Resolves (known ++ labels ms) ms' := by
  induction ms generalizing known with
  | nil => simp [Resolves, labels]
  | cons m ms ih =>
    cases m with
    | label r k => simp only [List.cons_append, Resolves, ih, labels_label, List.append_assoc, List.nil_append]
    | ref r k => simp only [List.cons_append, Resolves, ih, labels_ref, and_assoc]

theorem zipIdx_concat (S : List Referent) (r : Referent) : (S ++ [r]).zipIdx = S.zipIdx ++ [(r, S.length)] := by
  simp [List.zipIdx_append]

theorem mem_slots : (r, k) ∈ S.zipIdx ↔ S[k]? = some r := List.mk_mem_zipIdx_iff_getElem?

/-! ## Labels -/

/-- **The labels are the new slots**, in order. -/
theorem Marks.slots (h : Marks g S as ms S') : S.zipIdx ++ labels ms = S'.zipIdx := by
  induction h with
  | nil => simp [labels]
  | leaf _ _ ih => exact ih
  | result _ _ ih => exact ih
  | seen _ _ _ ih => exact ih
  | node _ _ _ _ ih₁ ih₂ =>
    rw [← ih₂, ← ih₁, zipIdx_concat, labels_label, labels_append]
    simp only [List.append_assoc, List.cons_append, List.nil_append]

theorem MarksSteps.slots (h : MarksSteps g i S steps ms S') : S.zipIdx ++ labels ms = S'.zipIdx := by
  induction h with
  | nil => simp [labels]
  | cons h₁ h₂ _ ih =>
    rw [← ih, zipIdx_concat, ← h₂.slots, ← h₁.slots]
    simp only [labels_append, labels_label, List.append_assoc, List.singleton_append]

/-- The graph in which the references to results are leaves, too. -/
def resultsAsLeaves (g : Graph L) : Graph (L ⊕ ℕ) := fun a => (g a).map fun
  | .leaf l => .leaf (.inl l)
  | .node es => .node es
  | .result i => .leaf (.inr i)

theorem resultsAsLeaves_node {a : ℕ} {es : List ℕ} : resultsAsLeaves g a = some (.node es) ↔ g a = some (.node es) := by
  unfold resultsAsLeaves
  rcases g a with - | ⟨l | fs | i⟩ <;> simp

theorem resultsAsLeaves_result {a : ℕ} : resultsAsLeaves g a = some (.leaf (.inr i)) ↔ g a = some (.result i) := by
  unfold resultsAsLeaves
  rcases g a with - | ⟨l | fs | j⟩ <;> simp

theorem resultsAsLeaves_leaf {a : ℕ} {l : L} :
    resultsAsLeaves g a = some (.leaf (.inl l)) ↔ g a = some (.leaf l) := by
  unfold resultsAsLeaves
  rcases g a with - | ⟨m | fs | j⟩ <;> simp

theorem reach_resultsAsLeaves {a b : ℕ} : Reach (resultsAsLeaves g) a b ↔ Reach g a b := by
  have hsucc : Succ (resultsAsLeaves g) = Succ g := by
    funext a b
    unfold Succ
    simp only [resultsAsLeaves_node]
  unfold Reach
  rw [hsucc]

/-- The numbers of the results that the marks refer to satisfy `M`. -/
def RefersTo (ms : List Mark) (M : ℕ → Prop) : Prop := ∀ j, .ref (.result j) j ∈ ms → M j

theorem refersTo_append {M : ℕ → Prop} : RefersTo (ms ++ ms') M ↔ RefersTo ms M ∧ RefersTo ms' M := by
  unfold RefersTo
  simp only [List.mem_append]
  constructor
  · intro h
    exact ⟨fun j hj => h j (.inl hj), fun j hj => h j (.inr hj)⟩
  · rintro ⟨h₁, h₂⟩ j (hj | hj)
    · exact h₁ j hj
    · exact h₂ j hj

theorem refersTo_label {M : ℕ → Prop} : RefersTo (.label r k :: ms) M ↔ RefersTo ms M := by
  simp [RefersTo]

/-- Marks go with a walk, whose leaves are the results that the marks refer to. -/
theorem Marks.walk (h : Marks g S as ms S') : ∃ F, Walk (resultsAsLeaves g) S as F S' ∧
    ∀ M : ℕ → Prop, F.All (Sum.elim (fun _ => True) M) ↔ RefersTo ms M := by
  induction h with
  | nil => exact ⟨_, .nil, fun M => by simp [Forest.All, RefersTo]⟩
  | leaf ha _ ih =>
    obtain ⟨F, hw, hF⟩ := ih
    refine ⟨_, .leaf (resultsAsLeaves_leaf.2 ha) hw, fun M => ?_⟩
    simp only [Forest.All, Sum.elim_inl, true_and, hF]
  | @result S a i as ms S' ha _ ih =>
    obtain ⟨F, hw, hF⟩ := ih
    refine ⟨_, .leaf (resultsAsLeaves_result.2 ha) hw, fun M => ?_⟩
    simp only [Forest.All, Sum.elim_inr, hF, RefersTo, List.mem_cons, Mark.ref.injEq, Referent.result.injEq, and_self,
      forall_eq_or_imp]
  | seen ha hk _ ih =>
    obtain ⟨F, hw, hF⟩ := ih
    refine ⟨_, .seen (resultsAsLeaves_node.2 ha) hk hw, fun M => ?_⟩
    simp [Forest.All, hF, RefersTo]
  | node ha hn _ _ ih₁ ih₂ =>
    obtain ⟨F₁, hw₁, hF₁⟩ := ih₁
    obtain ⟨F₂, hw₂, hF₂⟩ := ih₂
    refine ⟨_, .node (resultsAsLeaves_node.2 ha) hn hw₁ hw₂, fun M => ?_⟩
    rw [Forest.All, hF₁, hF₂, refersTo_label, refersTo_append]

theorem MarksSteps.walk (h : MarksSteps g i S steps ms S') :
    ∃ Fs : List (Step O (Forest (L ⊕ ℕ))), WalkSteps (resultsAsLeaves g) i S steps Fs S' ∧ ∀ M : ℕ → Prop,
      (∀ st ∈ Fs, st.head.All (Sum.elim (fun _ => True) M) ∧ st.args.All (Sum.elim (fun _ => True) M)) ↔
        RefersTo ms M := by
  induction h with
  | nil => exact ⟨_, .nil, fun M => by simp [RefersTo]⟩
  | cons h₁ h₂ _ ih =>
    obtain ⟨F₁, hw₁, hF₁⟩ := h₁.walk
    obtain ⟨F₂, hw₂, hF₂⟩ := h₂.walk
    obtain ⟨Fs, hw, hFs⟩ := ih
    refine ⟨_, .cons hw₁ hw₂ hw, fun M => ?_⟩
    rw [refersTo_append, refersTo_append, refersTo_label, List.forall_mem_cons, hFs M, hF₁ M, hF₂ M]

/-- **The results that are referred to are the reachable ones.** -/
theorem MarksSteps.refersTo_iff (h : MarksSteps g i [] steps ms S') (M : ℕ → Prop) :
    RefersTo ms M ↔ ∀ st ∈ steps, ∀ a ∈ st.head ++ st.args, ∀ b j, Reach g a b → g b = some (.result j) → M j := by
  obtain ⟨Fs, hw, hFs⟩ := h.walk
  rw [← hFs M, hw.all_iff]
  constructor
  · intro hall st hst a ha b j hr hb
    exact hall st hst a ha b (.inr j) (reach_resultsAsLeaves.2 hr) (resultsAsLeaves_result.2 hb)
  · intro hall st hst a ha b l hr hb
    cases l with
    | inl l => trivial
    | inr j => exact hall st hst a ha b j (reach_resultsAsLeaves.1 hr) (resultsAsLeaves_result.1 hb)

theorem Marks.refersTo {M : ℕ → Prop} (h : Marks g S as ms S')
    (hM : ∀ a ∈ as, ∀ b j, Reach g a b → g b = some (.result j) → M j) : RefersTo ms M := by
  obtain ⟨F, hw, hF⟩ := h.walk
  refine (hF M).1 (hw.all fun a ha b l hr hb => ?_)
  cases l with
  | inl l => trivial
  | inr j => exact hM a ha b j (reach_resultsAsLeaves.1 hr) (resultsAsLeaves_result.1 hb)

/-! ## Resolution -/

/-- The slots of results are not changed by a walk. -/
theorem Walk.result_iff {M : Type*} {g : Graph M} {F : Forest M} (h : Walk g S as F S') :
    S'[k]? = some (.result j) ↔ S[k]? = some (.result j) := by
  obtain ⟨T, rfl, -⟩ := h.slots_mono
  rcases Nat.lt_or_ge k S.length with hk | hk
  · rw [List.getElem?_append_left hk]
  · rw [List.getElem?_append_right hk, List.getElem?_map, List.getElem?_eq_none hk]
    cases T[k - S.length]? <;> simp

theorem Marks.result_iff (h : Marks g S as ms S') : S'[k]? = some (.result j) ↔ S[k]? = some (.result j) := by
  obtain ⟨F, hw, -⟩ := h.walk
  exact hw.result_iff

/-- A walk resolves its references just if the results that it refers to are their own slots. -/
theorem Marks.resolves_iff (h : Marks g S as ms S') :
    Resolves S.zipIdx ms ↔ RefersTo ms fun j => S[j]? = some (.result j) := by
  induction h with
  | nil => simp [Resolves, RefersTo]
  | leaf _ _ ih => exact ih
  | @result S a i as ms S' ha _ ih =>
    rw [Resolves, ih, mem_slots]
    simp only [RefersTo, List.mem_cons, Mark.ref.injEq, Referent.result.injEq, and_self, forall_eq_or_imp]
  | @seen S a es k as ms S' ha hk _ ih =>
    rw [Resolves, ih, mem_slots]
    simp [RefersTo, hk]
  | @node S a es ms₁ S₁ as ms₂ S' ha hn h₁ h₂ ih₁ ih₂ =>
    have hself : ∀ j : ℕ, (S ++ [.node a])[j]? = some (.result j) ↔ S[j]? = some (.result j) := by
      intro j
      constructor
      · intro hj
        rcases getElem?_concat hj with hj | ⟨-, hj⟩
        · exact hj
        · cases hj
      · exact getElem?_grows (List.prefix_append _ _)
    rw [Resolves, ← zipIdx_concat, resolves_append, h₁.slots, ih₁, ih₂, refersTo_label, refersTo_append]
    simp only [h₁.result_iff, hself]

/-- **The references of a run resolve just if the results that it refers to are their own slots** in the end. -/
theorem MarksSteps.resolves_iff (h : MarksSteps g i S steps ms S') (hr : ResultsBelow i S) (hS : S.Nodup)
    (hs : ∀ j st, steps[j]? = some st → ∀ a ∈ st.head ++ st.args, Sound g (i + j) a) :
    Resolves S.zipIdx ms ↔ RefersTo ms fun j => S'[j]? = some (.result j) := by
  induction h with
  | nil => simp [Resolves, RefersTo]
  | @cons i S op as bs ms₁ S₁ ms₂ S₂ steps ms S' h₁ h₂ h₃ ih =>
    obtain ⟨F₁, hw₁, -⟩ := h₁.walk
    obtain ⟨F₂, hw₂, -⟩ := h₂.walk
    obtain ⟨Fs, hw₃, -⟩ := h₃.walk
    have hr₂ := (hr.walk hw₁).walk hw₂
    have hnodup := hw₃.nodup hr₂.succ (hr₂.nodup_append (hw₂.nodup (hw₁.nodup hS)))
    -- a result that has a slot keeps it
    have hkeep : ∀ j, j < i → (S[j]? = some (.result j) ↔ S'[j]? = some (.result j)) := by
      intro j hj
      have hgrows : S <+: S' :=
        (hw₁.prefix_slots.trans hw₂.prefix_slots).trans ((List.prefix_append _ _).trans hw₃.prefix_slots)
      refine ⟨getElem?_grows hgrows, fun hj' => ?_⟩
      obtain ⟨k, hk⟩ := List.getElem?_of_mem ((hr j).2 hj)
      have hk' := getElem?_grows hgrows hk
      have hlt := (List.getElem?_eq_some_iff.1 hj').1
      have heq : j = k := (List.getElem?_inj hlt hnodup).1 (hj'.trans hk'.symm)
      rwa [← heq] at hk
    have hbelow : ∀ a ∈ as ++ bs, ∀ b j, Reach g a b → g b = some (.result j) → j < i := by
      intro a ha b j hreach hb
      obtain ⟨c, hc, hlt⟩ := hs 0 _ rfl a ha b hreach
      rw [hb] at hc
      cases hc
      exact hlt j rfl
    have hms₁ := h₁.refersTo fun a ha => hbelow a (List.mem_append_left _ ha)
    have hms₂ := h₂.refersTo fun a ha => hbelow a (List.mem_append_right _ ha)
    have hrest := ih hr₂.succ (hr₂.nodup_append (hw₂.nodup (hw₁.nodup hS))) fun j st hj a ha => by
      have hsound := hs (j + 1) st hj a ha
      rwa [show i + (j + 1) = i + 1 + j by omega] at hsound
    rw [resolves_append, resolves_append, labels_append, ← List.append_assoc, h₁.slots, h₂.slots, Resolves,
      ← zipIdx_concat, hrest, h₁.resolves_iff, h₂.resolves_iff, refersTo_append, refersTo_append, refersTo_label]
    simp only [h₁.result_iff]
    refine and_congr (and_congr ?_ ?_) Iff.rfl
    · exact forall_congr' fun j => imp_congr_right fun hj => hkeep j (hms₁ j hj)
    · exact forall_congr' fun j => imp_congr_right fun hj => hkeep j (hms₂ j hj)

/-! ## Results that are their own slots -/

/-- A list of addresses reaches no node. -/
def ReachesNoNode (g : Graph L) (as : List ℕ) : Prop := ∀ a ∈ as, ∀ b es, Reach g a b → g b ≠ some (.node es)

/-- A walk that reaches no node takes no slots. -/
theorem Walk.same_iff {F : Forest L} (h : Walk g S as F S') (hS : ∀ a, .node a ∉ S) : S' = S ↔ ReachesNoNode g as := by
  constructor
  · rintro rfl a ha b es hr hb
    have hnone : ∀ c ∈ as, ∀ fs, g c ≠ some (.node fs) := by
      intro c hc fs hfs
      have hall : F.All fun _ => True := h.all fun _ _ _ _ _ _ => trivial
      exact hS c (((h.met hall).1 c hc).2 fs hfs)
    rcases Relation.ReflTransGen.cases_head hr with rfl | ⟨c, ⟨fs, hfs, -⟩, -⟩
    · exact hnone _ ha es hb
    · exact hnone a ha fs hfs
  · intro hno
    obtain ⟨T, hT, -⟩ := h.slots_mono
    rcases T with - | ⟨t, T⟩
    · rw [hT, List.map_nil, List.append_nil]
    · have hmem : .node t ∈ S' := by rw [hT]; simp
      rcases h.reach_of_mem hmem with hold | ⟨⟨a, ha, hr⟩, es, hes⟩
      · exact absurd hold (hS t)
      · exact absurd hes (hno a ha t es hr)

/-- The results of the first `n` steps, in their own slots. -/
def ownSlots (n : ℕ) : List Referent := (List.range n).map .result

theorem ownSlots_succ (n : ℕ) : ownSlots (n + 1) = ownSlots n ++ [.result n] := by
  simp [ownSlots, List.range_succ]

theorem ownSlots_length (n : ℕ) : (ownSlots n).length = n := by simp [ownSlots]

theorem ownSlots_resultsBelow (n : ℕ) : ResultsBelow n (ownSlots n) := by
  intro j
  simp [ownSlots]

theorem ownSlots_no_node (n a : ℕ) : .node a ∉ ownSlots n := by simp [ownSlots]

/-- Results that are late stay late. -/
theorem WalkSteps.late (h : WalkSteps g i S steps Fs S') (hnodup : S'.Nodup) (hr : ResultsBelow i S)
    (hlate : i < S.length) (hij : i ≤ j) (hk : S'[k]? = some (.result j)) : j < k := by
  induction h with
  | nil =>
    have hlt := (hr j).1 (List.mem_of_getElem? hk)
    omega
  | @cons i S op as bs F₁ S₁ F₂ S₂ steps Fs S' h₁ h₂ h₃ ih =>
    have hr₂ := (hr.walk h₁).walk h₂
    have hlen₁ := h₁.length_slots
    have hlen₂ := h₂.length_slots
    rcases Nat.eq_or_lt_of_le hij with rfl | hlt
    · have hself : S'[S₂.length]? = some (.result i) := getElem?_grows h₃.prefix_slots (by simp)
      have hlt := (List.getElem?_eq_some_iff.1 hk).1
      have heq : k = S₂.length := (List.getElem?_inj hlt hnodup).1 (hk.trans hself.symm)
      omega
    · refine ih hnodup hr₂.succ ?_ hlt hk
      rw [List.length_append, List.length_singleton]
      omega

/-- The steps up to `j` reach no node. -/
def NoNodesUpTo (g : Graph L) (steps : List (Step O (List ℕ))) (j : ℕ) : Prop :=
  ∀ n ≤ j, ∀ st, steps[n]? = some st → ReachesNoNode g (st.head ++ st.args)

theorem noNodesUpTo_succ {st : Step O (List ℕ)} :
    NoNodesUpTo g (st :: steps) (j + 1) ↔ ReachesNoNode g (st.head ++ st.args) ∧ NoNodesUpTo g steps j := by
  constructor
  · intro h
    exact ⟨h 0 (Nat.zero_le _) st rfl, fun n hn st' hst => h (n + 1) (Nat.succ_le_succ hn) st' hst⟩
  · rintro ⟨h₀, h⟩ n hn st' hst
    cases n with
    | zero =>
      cases hst
      exact h₀
    | succ n => exact h n (Nat.le_of_succ_le_succ hn) st' hst

theorem reachesNoNode_append {bs : List ℕ} :
    ReachesNoNode g (as ++ bs) ↔ ReachesNoNode g as ∧ ReachesNoNode g bs := by
  unfold ReachesNoNode
  simp only [List.forall_mem_append]

/-- **A result is its own slot just if no step up to it reaches a node.** -/
theorem WalkSteps.slot_iff (h : WalkSteps g i S steps Fs S') (hS : S = ownSlots i) (hnodup : S'.Nodup)
    (hj : j < steps.length) : S'[i + j]? = some (.result (i + j)) ↔ NoNodesUpTo g steps j := by
  induction h generalizing j with
  | nil => cases hj
  | @cons i S op as bs F₁ S₁ F₂ S₂ steps Fs S' h₁ h₂ h₃ ih =>
    subst hS
    have hno : S₂ = ownSlots i ↔ ReachesNoNode g (as ++ bs) := by
      rw [reachesNoNode_append]
      constructor
      · rintro rfl
        have hlen₁ := h₁.length_slots
        have hlen₂ := h₂.length_slots
        have hsame₁ : S₁ = ownSlots i := h₁.prefix_slots.eq_of_length (by omega) |>.symm
        exact ⟨(h₁.same_iff (ownSlots_no_node i)).1 hsame₁,
          (h₂.same_iff (hsame₁ ▸ ownSlots_no_node i)).1 hsame₁.symm⟩
      · rintro ⟨hno₁, hno₂⟩
        have hsame₁ := (h₁.same_iff (ownSlots_no_node i)).2 hno₁
        subst hsame₁
        exact (h₂.same_iff (ownSlots_no_node i)).2 hno₂
    have hgrows := h₃.prefix_slots
    -- without arrays in this call its return value has slot `i`; with one, all later slots are shifted
    by_cases hsame : S₂ = ownSlots i
    · subst hsame
      rw [← ownSlots_succ] at h₃ hgrows
      cases j with
      | zero =>
        refine iff_of_true (getElem?_grows hgrows ?_) fun n hn st hst => ?_
        · simp [ownSlots]
        · obtain rfl := Nat.le_zero.1 hn
          cases hst
          exact hno.1 rfl
      | succ j =>
        rw [noNodesUpTo_succ, ← ih (ownSlots_succ i).symm hnodup (Nat.lt_of_succ_lt_succ hj), Nat.add_right_comm i 1 j]
        exact ⟨fun hs => ⟨hno.1 rfl, hs⟩, fun hs => hs.2⟩
    · have hr₂ := ((ownSlots_resultsBelow i).walk h₁).walk h₂
      have hlen : i < S₂.length := by
        have hpre := h₁.prefix_slots.trans h₂.prefix_slots
        refine Nat.lt_of_le_of_ne (ownSlots_length i ▸ hpre.length_le) fun heq => hsame ?_
        exact (hpre.eq_of_length (by rw [ownSlots_length, heq])).symm
      refine iff_of_false (fun hs => ?_) fun hall => hsame (hno.2 (hall 0 (Nat.zero_le _) _ rfl))
      have hlt : i + j < i + j := by
        rcases Nat.eq_zero_or_pos j with rfl | hpos
        · have hself : S'[S₂.length]? = some (.result i) := getElem?_grows hgrows (by simp)
          have hin := (List.getElem?_eq_some_iff.1 hs).1
          have heq : i + 0 = S₂.length := (List.getElem?_inj hin hnodup).1 (hs.trans hself.symm)
          omega
        · refine h₃.late hnodup hr₂.succ ?_ (by omega) hs
          rw [List.length_append, List.length_singleton]
          omega
      exact Nat.lt_irrefl _ hlt

end ObjectGraph
