import Caf.Graph.Iso
import Caf.Graph.Eval

/-!
# Sequences of steps

A step applies an operation to a list of addresses for its head and one for its
arguments; its result takes the next slot. The walks and evaluations of single lists
extend to sequences of steps, and so do their theorems.

* `WalkSteps.exists`: sequences that refer to earlier results only have a walk.
* `WalkSteps.iso`: two sequences with the same forests correspond.
* `WalkSteps.eval_eq`: the reference evaluation is the run of the forests.
-/

namespace ObjectGraph

universe u

variable {L M : Type*} {O σ V : Type u}

/-- An operation with its operands. -/
structure Step (O α : Type*) where
  op : O
  head : α
  args : α

def Step.map {α β : Type*} (f : α → β) (st : Step O α) : Step O β := ⟨st.op, f st.head, f st.args⟩

/-- `WalkSteps g i S steps Fs S'`: walking `steps`, the first of which has number `i`. -/
inductive WalkSteps (g : Graph L) :
    ℕ → List Referent → List (Step O (List ℕ)) → List (Step O (Forest L)) → List Referent → Prop
  | nil {i S} : WalkSteps g i S [] [] S
  | cons {i S op as bs F₁ S₁ F₂ S₂ steps Fs S'} : Walk g S as F₁ S₁ → Walk g S₁ bs F₂ S₂ →
      WalkSteps g (i + 1) (S₂ ++ [.result i]) steps Fs S' →
      WalkSteps g i S (⟨op, as, bs⟩ :: steps) (⟨op, F₁, F₂⟩ :: Fs) S'

variable {g : Graph L} {g' : Graph M} {f : L → M} {i : ℕ} {S S' T T' : List Referent}
  {steps : List (Step O (List ℕ))} {Fs : List (Step O (Forest L))}

/-- More cells do not change a walk. -/
theorem Walk.transfer {g' : Graph L} (hg : ∀ a c, g a = some c → g' a = some c) {as : List ℕ}
    {F : Forest L} (h : Walk g S as F S') : Walk g' S as F S' := by
  induction h with
  | nil => exact .nil
  | leaf h₁ _ ih => exact .leaf (hg _ _ h₁) ih
  | result h₁ h₂ _ ih => exact .result (hg _ _ h₁) h₂ ih
  | seen h₁ h₂ _ ih => exact .seen (hg _ _ h₁) h₂ ih
  | node h₁ h₂ _ _ ih₁ ih₂ => exact .node (hg _ _ h₁) h₂ ih₁ ih₂

theorem Reach.transfer {g' : Graph L} (hg : ∀ a c, g a = some c → g' a = some c) {a b : ℕ}
    (h : Reach g a b) : Reach g' a b := by
  induction h with
  | refl => exact .refl
  | tail _ hs ih =>
    obtain ⟨es, hes, hm⟩ := hs
    exact ih.tail ⟨es, hg _ _ hes, hm⟩

/-- The results among the slots are those of the steps before `i`. -/
def ResultsBelow (i : ℕ) (S : List Referent) : Prop := ∀ j, .result j ∈ S ↔ j < i

theorem ResultsBelow.walk {as : List ℕ} {F : Forest L} (h : ResultsBelow i S) (hw : Walk g S as F S') :
    ResultsBelow i S' := by
  obtain ⟨T, rfl, -⟩ := hw.slots_mono
  intro j
  simpa using h j

theorem ResultsBelow.succ (h : ResultsBelow i S) : ResultsBelow (i + 1) (S ++ [.result i]) := by
  intro j
  have := h j
  simp only [List.mem_append, List.mem_singleton, Referent.result.injEq, this]
  omega

theorem ResultsBelow.nil : ResultsBelow 0 [] := by
  intro j; simp

/-- The next result is new. -/
theorem ResultsBelow.nodup_append (h : ResultsBelow i S) (hS : S.Nodup) : (S ++ [Referent.result i]).Nodup := by
  refine List.nodup_append.2 ⟨hS, by simp, ?_⟩
  intro r hrm s hs
  rw [List.mem_singleton] at hs
  subst hs
  rintro rfl
  exact Nat.lt_irrefl i ((h i).1 hrm)

/-- **Steps that refer to earlier results only have a walk.** -/
theorem WalkSteps.exists {N : ℕ} (hN : ∀ a c, g a = some c → a < N) (hS : ResultsBelow i S)
    (hs : ∀ j st, steps[j]? = some st → ∀ a ∈ st.head ++ st.args, Sound g (i + j) a) :
    ∃ Fs S', WalkSteps g i S steps Fs S' := by
  induction steps generalizing i S with
  | nil => exact ⟨_, _, .nil⟩
  | cons st steps ih =>
    have h₀ : ∀ a ∈ st.head ++ st.args, Sound g i a := hs 0 st rfl
    obtain ⟨F₁, S₁, h₁⟩ := Walk.exists hN (fun j hj => (hS j).2 hj)
      fun a ha => h₀ a (List.mem_append_left _ ha)
    have hS₁ := hS.walk h₁
    obtain ⟨F₂, S₂, h₂⟩ := Walk.exists hN (fun j hj => (hS₁ j).2 hj)
      fun a ha => h₀ a (List.mem_append_right _ ha)
    obtain ⟨Fs, S', h₃⟩ := ih (hS₁.walk h₂).succ fun j st' hj a ha => by
      have := hs (j + 1) st' hj a ha
      rwa [show i + 1 + j = i + (j + 1) by omega]
    exact ⟨_, _, .cons h₁ h₂ h₃⟩

namespace WalkSteps

theorem transfer {g' : Graph L} (hg : ∀ a c, g a = some c → g' a = some c)
    (h : WalkSteps g i S steps Fs S') : WalkSteps g' i S steps Fs S' := by
  induction h with
  | nil => exact .nil
  | cons h₁ h₂ _ ih => exact .cons (h₁.transfer hg) (h₂.transfer hg) ih

theorem prefix_slots (h : WalkSteps g i S steps Fs S') : S <+: S' := by
  induction h with
  | nil => exact List.prefix_refl _
  | cons h₁ h₂ _ ih =>
    exact (h₁.prefix_slots.trans h₂.prefix_slots).trans ((List.prefix_append _ _).trans ih)

theorem nodup (h : WalkSteps g i S steps Fs S') (hr : ResultsBelow i S) (hS : S.Nodup) : S'.Nodup := by
  induction h with
  | nil => exact hS
  | @cons i S op as bs F₁ S₁ F₂ S₂ steps Fs S' h₁ h₂ _ ih =>
    have hr₂ := (hr.walk h₁).walk h₂
    exact ih hr₂.succ (hr₂.nodup_append (h₂.nodup (h₁.nodup hS)))

theorem resultsBelow (h : WalkSteps g i S steps Fs S') (hr : ResultsBelow i S) :
    ResultsBelow (i + steps.length) S' := by
  induction h with
  | nil => exact hr
  | cons h₁ h₂ _ ih =>
    have := ih ((hr.walk h₁).walk h₂).succ
    rwa [List.length_cons, Nat.add_comm _ 1, ← Nat.add_assoc]

/-- The forests of a step have its operation and one value for each operand. -/
theorem shape (h : WalkSteps g i S steps Fs S') {F : Step O (Forest L)} (hF : F ∈ Fs) :
    ∃ st ∈ steps, F.op = st.op ∧ F.head.length = st.head.length ∧ F.args.length = st.args.length := by
  induction h with
  | nil => cases hF
  | cons h₁ h₂ _ ih =>
    rcases List.mem_cons.1 hF with rfl | hF
    · exact ⟨_, List.mem_cons_self, rfl, h₁.length_eq, h₂.length_eq⟩
    · obtain ⟨st, hst, hshape⟩ := ih hF
      exact ⟨st, List.mem_cons_of_mem _ hst, hshape⟩

theorem length_eq (h : WalkSteps g i S steps Fs S') : Fs.length = steps.length := by
  induction h with
  | nil => rfl
  | cons _ _ _ ih => simp [ih]

/-- The leaves of the forests are leaves of the graph. -/
theorem all {P : L → Prop} (h : WalkSteps g i S steps Fs S')
    (hP : ∀ st ∈ steps, ∀ a ∈ st.head ++ st.args, ∀ b l, Reach g a b → g b = some (.leaf l) → P l) :
    ∀ st ∈ Fs, st.head.All P ∧ st.args.All P := by
  induction h with
  | nil => intro st hst; cases hst
  | cons h₁ h₂ _ ih =>
    have hP₀ := hP _ List.mem_cons_self
    intro st hst
    rcases List.mem_cons.1 hst with rfl | hst
    · exact ⟨h₁.all fun a ha => hP₀ a (List.mem_append_left _ ha),
        h₂.all fun a ha => hP₀ a (List.mem_append_right _ ha)⟩
    · exact ih (fun st hst => hP st (List.mem_cons_of_mem _ hst)) st hst

/-- Nothing reachable is left out. -/
theorem met {P : L → Prop} (h : WalkSteps g i S steps Fs S') (hF : ∀ st ∈ Fs, st.head.All P ∧ st.args.All P) :
    (∀ st ∈ steps, ∀ a ∈ st.head ++ st.args, Met g P S' a) ∧
      ∀ b, .node b ∈ S' → .node b ∈ S ∨ ∀ es, g b = some (.node es) → ∀ e ∈ es, Met g P S' e := by
  induction h with
  | nil => exact ⟨by simp, fun b hb => .inl hb⟩
  | @cons i S op as bs F₁ S₁ F₂ S₂ steps Fs S' hw₁ hw₂ hw₃ ih =>
    obtain ⟨hF₁, hF₂⟩ := hF _ List.mem_cons_self
    obtain ⟨h₁, h₁'⟩ := hw₁.met hF₁
    obtain ⟨h₂, h₂'⟩ := hw₂.met hF₂
    obtain ⟨h₃, h₃'⟩ := ih fun st hst => hF st (List.mem_cons_of_mem _ hst)
    have hsub₂ : S₂ ⊆ S' := fun r hr => hw₃.prefix_slots.subset (List.mem_append_left _ hr)
    have hsub₁ : S₁ ⊆ S' := fun r hr => hsub₂ (hw₂.prefix_slots.subset hr)
    refine ⟨fun st hst a ha => ?_, fun b hb => ?_⟩
    · rcases List.mem_cons.1 hst with rfl | hst
      · rcases List.mem_append.1 ha with ha | ha
        · exact (h₁ a ha).mono hsub₁
        · exact (h₂ a ha).mono hsub₂
      · exact h₃ st hst a ha
    · rcases h₃' b hb with hb | hb
      · rcases h₂' b (by simpa using hb) with hb | hb
        · rcases h₁' b hb with hb | hb
          · exact .inl hb
          · exact .inr fun es hes e he => (hb es hes e he).mono hsub₁
        · exact .inr fun es hes e he => (hb es hes e he).mono hsub₂
      · exact .inr hb

/-- **The leaves of the forests are the reachable leaves.** -/
theorem all_iff {P : L → Prop} (h : WalkSteps g i [] steps Fs S') :
    (∀ st ∈ Fs, st.head.All P ∧ st.args.All P) ↔
      ∀ st ∈ steps, ∀ a ∈ st.head ++ st.args, ∀ b l, Reach g a b → g b = some (.leaf l) → P l := by
  refine ⟨fun hF st hst a ha b l hr => ?_, h.all⟩
  obtain ⟨hroots, hnodes⟩ := h.met hF
  have hmet : Met g P S' b := by
    induction hr with
    | refl => exact hroots st hst a ha
    | tail _ hs ih =>
      obtain ⟨es, hes, he⟩ := hs
      rcases hnodes _ (ih.2 es hes) with hc | hc
      · cases hc
      · exact hc es hes _ he
  exact hmet.1 l

/-- The slots hold the results of the steps and nodes reachable from them. -/
theorem reach_of_mem (h : WalkSteps g i S steps Fs S') {b : ℕ} (hb : .node b ∈ S') :
    .node b ∈ S ∨ (∃ st ∈ steps, ∃ a ∈ st.head ++ st.args, Reach g a b) ∧ ∃ es, g b = some (.node es) := by
  induction h with
  | nil => exact .inl hb
  | @cons i S op as bs F₁ S₁ F₂ S₂ steps Fs S' h₁ h₂ _ ih =>
    rcases ih hb with hm | ⟨⟨st', hst, a, ha, hr⟩, hes⟩
    · have hm₂ : .node b ∈ S₂ := by simpa using hm
      rcases h₂.reach_of_mem hm₂ with hm₁ | ⟨⟨a, ha, hr⟩, hes⟩
      · rcases h₁.reach_of_mem hm₁ with hm₀ | ⟨⟨a, ha, hr⟩, hes⟩
        · exact .inl hm₀
        · exact .inr ⟨⟨_, List.mem_cons_self, a, List.mem_append_left _ ha, hr⟩, hes⟩
      · exact .inr ⟨⟨_, List.mem_cons_self, a, List.mem_append_right _ ha, hr⟩, hes⟩
    · exact .inr ⟨⟨st', List.mem_cons_of_mem _ hst, a, ha, hr⟩, hes⟩

end WalkSteps

/-- Two steps with the same operation and corresponding operands. -/
structure StepMatch (g : Graph L) (g' : Graph M) (f : L → M) (R : ℕ → ℕ → Prop)
    (st st' : Step O (List ℕ)) : Prop where
  op : st.op = st'.op
  head : List.Forall₂ (Match g g' f R) st.head st'.head
  args : List.Forall₂ (Match g g' f R) st.args st'.args

theorem StepMatch.mono {R R' : ℕ → ℕ → Prop} {st st' : Step O (List ℕ)}
    (h : StepMatch g g' f R st st') (hR : ∀ a b, R a b → R' a b) : StepMatch g g' f R' st st' :=
  ⟨h.op, h.head.imp fun _ _ hm => hm.mono hR, h.args.imp fun _ _ hm => hm.mono hR⟩

/-- The operands of the steps on the left have partners on the right. -/
theorem StepMatch.total {R : ℕ → ℕ → Prop} {steps' : List (Step O (List ℕ))}
    (h : List.Forall₂ (StepMatch g g' f R) steps steps') {st : Step O (List ℕ)} (hst : st ∈ steps)
    {a : ℕ} (ha : a ∈ st.head ++ st.args) :
    ∃ st' ∈ steps', ∃ b ∈ st'.head ++ st'.args, Match g g' f R a b := by
  obtain ⟨k, hk, rfl⟩ := List.mem_iff_getElem.1 hst
  have hk' : k < steps'.length := h.length_eq ▸ hk
  have hm : StepMatch g g' f R steps[k] steps'[k] := (List.forall₂_iff_get.1 h).2 k hk hk'
  have hops := List.rel_append hm.head hm.args
  obtain ⟨j, hj, rfl⟩ := List.mem_iff_getElem.1 ha
  have hj' := hops.length_eq ▸ hj
  exact ⟨_, List.getElem_mem hk', _, List.getElem_mem hj', (List.forall₂_iff_get.1 hops).2 j hj hj'⟩

/-- And the other way round. -/
theorem StepMatch.total_right {R : ℕ → ℕ → Prop} {steps' : List (Step O (List ℕ))}
    (h : List.Forall₂ (StepMatch g g' f R) steps steps') {st' : Step O (List ℕ)} (hst : st' ∈ steps')
    {b : ℕ} (hb : b ∈ st'.head ++ st'.args) :
    ∃ st ∈ steps, ∃ a ∈ st.head ++ st.args, Match g g' f R a b := by
  obtain ⟨k, hk, rfl⟩ := List.mem_iff_getElem.1 hst
  have hk' : k < steps.length := h.length_eq ▸ hk
  have hm : StepMatch g g' f R steps[k] steps'[k] := (List.forall₂_iff_get.1 h).2 k hk' hk
  have hops := List.rel_append hm.head hm.args
  obtain ⟨j, hj, rfl⟩ := List.mem_iff_getElem.1 hb
  have hj' := hops.length_eq ▸ hj
  exact ⟨_, List.getElem_mem hk', _, List.getElem_mem hj', (List.forall₂_iff_get.1 hops).2 j hj' hj⟩

theorem Link.of_append_result {a b : ℕ}
    (hl : Link (S ++ [.result i]) (T ++ [.result i]) a b) : Link S T a b := by
  obtain ⟨k, h₁, h₂⟩ := hl
  rcases getElem?_concat h₁ with h₁ | ⟨-, e⟩
  · rcases getElem?_concat h₂ with h₂ | ⟨-, e⟩
    · exact ⟨k, h₁, h₂⟩
    · cases e
  · cases e

/-- **Steps with equal forests correspond**, and so do the nodes their walks gave slots to. -/
theorem WalkSteps.iso {steps' : List (Step O (List ℕ))} (h : WalkSteps g i S steps Fs S')
    (h' : WalkSteps g' i T steps' (Fs.map (Step.map (Forest.map f))) T') (hA : Aligned S T) :
    Aligned S' T' ∧ List.Forall₂ (StepMatch g g' f (Link S' T')) steps steps' ∧
      ∀ a b, Link S' T' a b → Link S T a b ∨ NodeMatch g g' f (Link S' T') a b := by
  induction h generalizing T T' steps' with
  | nil =>
    cases h'
    exact ⟨hA, .nil, fun _ _ hl => .inl hl⟩
  | @cons i S op as bs F₁ S₁ F₂ S₂ steps Fs S' h₁ h₂ h₃ ih =>
    cases h' with
    | @cons _ _ _ as' bs' _ T₁ _ T₂ steps' _ _ h₁' h₂' h₃' =>
      obtain ⟨hA₁, hm₁, hl₁⟩ := h₁.iso h₁' hA
      obtain ⟨hA₂, hm₂, hl₂⟩ := h₂.iso h₂' hA₁
      obtain ⟨hA₃, hm₃, hl₃⟩ := ih h₃' (hA₂.append_result i)
      have mono₂ : ∀ a b, Link S₂ T₂ a b → Link S' T' a b := fun a b hl =>
        (hl.mono (List.prefix_append _ _) (List.prefix_append _ _)).mono h₃.prefix_slots h₃'.prefix_slots
      have mono₁ : ∀ a b, Link S₁ T₁ a b → Link S' T' a b := fun a b hl =>
        mono₂ a b (hl.mono h₂.prefix_slots h₂'.prefix_slots)
      have hst : StepMatch g g' f (Link S' T') ⟨op, as, bs⟩ ⟨op, as', bs'⟩ :=
        ⟨rfl, hm₁.imp fun _ _ hm => hm.mono mono₁, hm₂.imp fun _ _ hm => hm.mono mono₂⟩
      refine ⟨hA₃, .cons hst hm₃, fun a b hl => ?_⟩
      rcases hl₃ a b hl with hl | hn
      · rcases hl₂ a b (hl.of_append_result) with hl | hn
        · rcases hl₁ a b hl with hl | hn
          · exact .inl hl
          · exact .inr (hn.mono mono₁)
        · exact .inr (hn.mono mono₂)
      · exact .inr hn

/-! ## Counting slots -/

/-- The nodes among the slots. -/
def nodesOf (S : List Referent) : List ℕ := S.filterMap fun
  | .node a => some a
  | .result _ => none

/-- The results among the slots. -/
def resultsOf (S : List Referent) : List ℕ := S.filterMap fun
  | .node _ => none
  | .result i => some i

theorem length_nodesOf_add (S : List Referent) : (nodesOf S).length + (resultsOf S).length = S.length := by
  induction S with
  | nil => rfl
  | cons r S ih =>
    cases r with
    | node a => simp only [nodesOf, resultsOf, List.filterMap_cons, List.length_cons] at ih ⊢; omega
    | result i => simp only [nodesOf, resultsOf, List.filterMap_cons, List.length_cons] at ih ⊢; omega

theorem mem_nodesOf {a : ℕ} : a ∈ nodesOf S ↔ .node a ∈ S := by
  simp only [nodesOf, List.mem_filterMap]
  refine ⟨?_, fun h => ⟨_, h, rfl⟩⟩
  rintro ⟨r, hr, he⟩
  cases r with
  | node b => cases he; exact hr
  | result j => cases he

theorem mem_resultsOf {j : ℕ} : j ∈ resultsOf S ↔ .result j ∈ S := by
  simp only [resultsOf, List.mem_filterMap]
  refine ⟨?_, fun h => ⟨_, h, rfl⟩⟩
  rintro ⟨r, hr, he⟩
  cases r with
  | node b => cases he
  | result k => cases he; exact hr

theorem nodup_nodesOf (h : S.Nodup) : (nodesOf S).Nodup := by
  refine h.filterMap fun r r' a ha ha' => ?_
  cases r <;> cases r' <;> simp_all

theorem nodup_resultsOf (h : S.Nodup) : (resultsOf S).Nodup := by
  refine h.filterMap fun r r' a ha ha' => ?_
  cases r <;> cases r' <;> simp_all

/-- **No more slots than nodes and steps.** -/
theorem length_le_nodesOf (h : S.Nodup) (hr : ResultsBelow i S) : S.length ≤ (nodesOf S).length + i := by
  have hsub : resultsOf S ⊆ List.range i := fun j hj => List.mem_range.2 ((hr j).1 (mem_resultsOf.1 hj))
  have hle := ((nodup_resultsOf h).subperm hsub).length_le
  rw [List.length_range] at hle
  have := length_nodesOf_add S
  omega

/-! ## Evaluation -/

/-- What a step did: its operands, the host before it was performed, and its result. -/
structure Event (O σ V : Type u) where
  op : O
  head : List V
  args : List V
  before : σ
  result : V

/-- **The reference evaluation of a sequence of steps.** `perform` is the effect of a step on
the host, with the value it results in. -/
def evalSteps (I : Interp L σ V) (perform : O → List V → List V → σ → V × σ) (g : Graph L)
    (fuel : ℕ) : List (Step O (List ℕ)) → EvalState σ V → Option (List (Event O σ V) × EvalState σ V)
  | [], s => some ([], s)
  | st :: steps, s => do
    let (hs, s) ← evalEach I (eval I g fuel) none st.head s
    let (vs, s) ← evalEach I (eval I g fuel) none st.args s
    let (v, h) := perform st.op hs vs s.host
    let (es, s') ← evalSteps I perform g fuel steps { s with host := h, results := s.results ++ [v] }
    return (⟨st.op, hs, vs, s.host, v⟩ :: es, s')

/-- Run the forests of a sequence of steps. -/
def runSteps (I : Interp L σ V) (perform : O → List V → List V → σ → V × σ) :
    List (Step O (Forest L)) → List V → σ → Option (List (Event O σ V) × List V × σ)
  | [], pool, s => some ([], pool, s)
  | st :: steps, pool, s => do
    let (hs, pool, s) ← st.head.run I none pool s
    let (vs, pool, s) ← st.args.run I none pool s
    let (v, t) := perform st.op hs vs s
    let (es, pool, s') ← runSteps I perform steps (pool ++ [v]) t
    return (⟨st.op, hs, vs, s, v⟩ :: es, pool, s')

/-- No forest of the steps is deeper than `n`. -/
def DepthLE (n : ℕ) (Fs : List (Step O (Forest L))) : Prop :=
  ∀ st ∈ Fs, st.head.depth ≤ n ∧ st.args.depth ≤ n

/-- **Walks of a finite graph are not deep.** -/
theorem WalkSteps.depth_le {N : ℕ} (hN : ∀ a c, g a = some c → a < N) (h : WalkSteps g i S steps Fs S')
    (hr : ResultsBelow i S) (hS : S.Nodup) : DepthLE (N + 1) Fs := by
  induction h with
  | nil => intro st hst; cases hst
  | @cons i S op as bs F₁ S₁ F₂ S₂ steps Fs S' h₁ h₂ h₃ ih =>
    have hS₁ := h₁.nodup hS
    have hr₂ := (hr.walk h₁).walk h₂
    have d₁ := h₁.depth_le
    have d₂ := h₂.depth_le
    have l₁ := h₁.slots_le hN hS
    have l₂ := h₂.slots_le hN hS₁
    intro st hst
    rcases List.mem_cons.1 hst with rfl | hst
    · exact ⟨by simp only; omega, by simp only; omega⟩
    · exact ih hr₂.succ (hr₂.nodup_append (h₂.nodup hS₁)) st hst

section Evaluation

variable {I : Interp L σ V} {perform : O → List V → List V → σ → V × σ} {pool pool' : List V}
  {s s' : σ} {es : List (Event O σ V)} {st st₁ st₂ st' : EvalState σ V} {fuel : ℕ}

theorem evalSteps_cons {step : Step O (List ℕ)} {hs vs : List V} {v : V} {t : σ}
    (h₁ : evalEach I (eval I g fuel) none step.head st = some (hs, st₁))
    (h₂ : evalEach I (eval I g fuel) none step.args st₁ = some (vs, st₂))
    (hp : perform step.op hs vs st₂.host = (v, t))
    (h₃ : evalSteps I perform g fuel steps
      { st₂ with host := t, results := st₂.results ++ [v] } = some (es, st')) :
    evalSteps I perform g fuel (step :: steps) st = some (⟨step.op, hs, vs, st₂.host, v⟩ :: es, st') := by
  simp only [evalSteps, h₁, h₂, hp, h₃, Option.bind_eq_bind, Option.bind_some, Option.pure_def]

theorem runSteps_cons {step : Step O (Forest L)} {p₁ p₂ hs vs : List V} {v : V} {s₁ s₂ t : σ}
    (h₁ : step.head.run I none pool s = some (hs, p₁, s₁))
    (h₂ : step.args.run I none p₁ s₁ = some (vs, p₂, s₂))
    (hp : perform step.op hs vs s₂ = (v, t))
    (h₃ : runSteps I perform Fs (p₂ ++ [v]) t = some (es, pool', s')) :
    runSteps I perform (step :: Fs) pool s = some (⟨step.op, hs, vs, s₂, v⟩ :: es, pool', s') := by
  simp only [runSteps, h₁, h₂, hp, h₃, Option.bind_eq_bind, Option.bind_some, Option.pure_def]

/-- Exchange leaves the host does not tell apart. -/
theorem runSteps_map (J : Interp M σ V) (hl : ∀ l s, J.leaf (f l) s = I.leaf l s)
    (hn : J.node = I.node) (hp : J.push = I.push) (pool : List V) (s : σ) :
    runSteps J perform (Fs.map (Step.map (Forest.map f))) pool s = runSteps I perform Fs pool s := by
  induction Fs generalizing pool s with
  | nil => rfl
  | cons st Fs ih => simp [runSteps, Step.map, Forest.run_map J f hl hn hp, ih]

theorem runSteps_nil_eq (h : runSteps I perform [] pool s = some (es, pool', s')) :
    es = [] ∧ pool' = pool ∧ s' = s := by
  simp only [runSteps, Option.some.injEq, Prod.mk.injEq] at h
  exact ⟨h.1.symm, h.2.1.symm, h.2.2.symm⟩

/-- What a first step does. -/
theorem runSteps_cons_eq {st : Step O (Forest L)} (h : runSteps I perform (st :: Fs) pool s = some (es, pool', s')) :
    ∃ hs p₁ s₁ vs p₂ s₂ es', st.head.run I none pool s = some (hs, p₁, s₁) ∧
      st.args.run I none p₁ s₁ = some (vs, p₂, s₂) ∧
      es = ⟨st.op, hs, vs, s₂, (perform st.op hs vs s₂).1⟩ :: es' ∧
      runSteps I perform Fs (p₂ ++ [(perform st.op hs vs s₂).1]) (perform st.op hs vs s₂).2 =
        some (es', pool', s') := by
  simp only [runSteps, Option.bind_eq_bind, Option.bind_eq_some_iff] at h
  obtain ⟨⟨hs, p₁, s₁⟩, h₁, ⟨vs, p₂, s₂⟩, h₂, ⟨es', p₃, s₃⟩, h₃, h⟩ := h
  simp only [Option.pure_def, Option.some.injEq, Prod.mk.injEq] at h
  obtain ⟨rfl, rfl, rfl⟩ := h
  exact ⟨hs, p₁, s₁, vs, p₂, s₂, es', h₁, h₂, rfl, h₃⟩

/-- A host that takes note of leaves and operations only. -/
theorem runSteps_leaves {f : σ → L → σ} {k : σ → O → σ} (hleaf : ∀ l s, (I.leaf l s).2 = f s l)
    (hnode : ∀ n s, (I.node n s).2 = s) (hpush : ∀ a v s, I.push a v s = s)
    (hperform : ∀ op hs vs s, (perform op hs vs s).2 = k s op)
    (h : runSteps I perform Fs pool s = some (es, pool', s')) :
    s' = Fs.foldl (fun s st => k (st.args.leaves.foldl f (st.head.leaves.foldl f s)) st.op) s := by
  induction Fs generalizing pool s es with
  | nil => exact (runSteps_nil_eq h).2.2
  | cons st Fs ih =>
    obtain ⟨hs, p₁, s₁, vs, p₂, s₂, es', h₁, h₂, -, h₃⟩ := runSteps_cons_eq h
    rw [ih h₃, hperform, Forest.run_leaves hleaf hnode hpush h₂, Forest.run_leaves hleaf hnode hpush h₁]
    rfl

/-- The pool only grows. -/
theorem runSteps_pool (h : runSteps I perform Fs pool s = some (es, pool', s')) : pool <+: pool' := by
  induction Fs generalizing pool s es with
  | nil =>
    obtain ⟨-, rfl, -⟩ := runSteps_nil_eq h
    exact List.prefix_refl _
  | cons st Fs ih =>
    obtain ⟨hs, p₁, s₁, vs, p₂, s₂, es', h₁, h₂, -, h₃⟩ := runSteps_cons_eq h
    have hrest := ih h₃
    exact (Forest.run_pool h₁).1.trans ((Forest.run_pool h₂).1.trans ((List.prefix_append _ _).trans hrest))

/-- An event has one value for each operand. -/
theorem runSteps_shape (h : runSteps I perform Fs pool s = some (es, pool', s')) {e : Event O σ V} (he : e ∈ es) :
    ∃ st ∈ Fs, e.op = st.op ∧ e.head.length = st.head.length ∧ e.args.length = st.args.length := by
  induction Fs generalizing pool s es with
  | nil =>
    cases h
    cases he
  | cons st Fs ih =>
    obtain ⟨hs, p₁, s₁, vs, p₂, s₂, es', h₁, h₂, rfl, h₃⟩ := runSteps_cons_eq h
    rcases List.mem_cons.1 he with rfl | he
    · exact ⟨st, List.mem_cons_self, rfl, Forest.run_length h₁, Forest.run_length h₂⟩
    · obtain ⟨st', hst', hshape⟩ := ih h₃ he
      exact ⟨st', List.mem_cons_of_mem _ hst', hshape⟩

namespace WalkSteps

/-- **The forests of steps run**, appending one value for each new slot. -/
theorem run_total (h : WalkSteps g i S steps Fs S') (hp : pool.length = S.length) (s : σ) :
    ∃ es P s', runSteps I perform Fs pool s = some (es, pool ++ P, s') ∧
      (pool ++ P).length = S'.length := by
  induction h generalizing pool s with
  | nil => exact ⟨[], [], s, by simp [runSteps], by simpa using hp⟩
  | @cons i S op as bs F₁ S₁ F₂ S₂ steps Fs S' h₁ h₂ h₃ ih =>
    obtain ⟨hs, P₁, s₁, hr₁, hl₁⟩ := h₁.run_total (I := I) hp none s
    obtain ⟨vs, P₂, s₂, hr₂, hl₂⟩ := h₂.run_total (I := I) hl₁ none s₁
    obtain ⟨v, t, hv⟩ : ∃ v t, perform op hs vs s₂ = (v, t) := ⟨_, _, rfl⟩
    obtain ⟨es, P₃, s', hr₃, hl₃⟩ := @ih (pool ++ P₁ ++ P₂ ++ [v]) (by simp [← hl₂]; omega) t
    refine ⟨⟨op, hs, vs, s₂, v⟩ :: es, P₁ ++ P₂ ++ [v] ++ P₃, s', ?_, ?_⟩
    · rw [runSteps_cons hr₁ hr₂ hv hr₃]; simp
    · rw [← hl₃]; simp

theorem run_start (h : WalkSteps g i [] steps Fs S') (I : Interp L σ V)
    (perform : O → List V → List V → σ → V × σ) (s : σ) :
    ∃ es P s', runSteps I perform Fs [] s = some (es, P, s') ∧ P.length = S'.length := by
  obtain ⟨es, P, s', hrun, hlen⟩ := @run_total _ _ _ _ _ _ _ _ _ _ I perform [] h rfl s
  exact ⟨es, P, s', hrun, hlen⟩

/-- **The reference evaluation is the run of the forests.** -/
theorem eval_eq (h : WalkSteps g i S steps Fs S') (hS : ResultsBelow i S) (hv : Views S pool st)
    (hi : st.results.length = i) (hf : DepthLE fuel Fs)
    (hr : runSteps I perform Fs pool st.host = some (es, pool', s')) :
    ∃ st', evalSteps I perform g fuel steps st = some (es, st') ∧ st'.host = s' ∧
      Views S' pool' st' := by
  induction h generalizing pool st es with
  | nil =>
    obtain ⟨rfl, rfl, rfl⟩ := runSteps_nil_eq hr
    exact ⟨st, rfl, rfl, hv⟩
  | @cons i S op as bs F₁ S₁ F₂ S₂ steps Fs S' h₁ h₂ h₃ ih =>
    obtain ⟨hf₁, hf₂⟩ := hf _ List.mem_cons_self
    obtain ⟨hs, p₁, s₁, vs, p₂, s₂, es', hr₁, hr₂, rfl, hr₃⟩ := runSteps_cons_eq hr
    obtain ⟨st₁, he₁, rfl, hres₁, hv₁⟩ := h₁.eval_eq hv hf₁ hr₁
    obtain ⟨st₂, he₂, rfl, hres₂, hv₂⟩ := h₂.eval_eq hv₁ hf₂ hr₂
    have hi₂ : st₂.results.length = i := by rw [hres₂, hres₁, hi]
    have hS₂ := (hS.walk h₁).walk h₂
    obtain ⟨v, t, hp⟩ : ∃ v t, perform op hs vs st₂.host = (v, t) := ⟨_, _, rfl⟩
    simp only [hp] at hr₃
    have hv₃ := (hv₂.result_append (fun j hj => hi₂ ▸ (hS₂ j).1 hj) v).host t
    rw [hi₂] at hv₃
    obtain ⟨st', he₃, hh, hv'⟩ := ih hS₂.succ hv₃ (by simp [hi₂])
      (fun st hst => hf st (List.mem_cons_of_mem _ hst)) hr₃
    refine ⟨st', ?_, hh, hv'⟩
    simp only [hp]
    exact evalSteps_cons he₁ he₂ hp he₃

end WalkSteps

end Evaluation

end ObjectGraph
