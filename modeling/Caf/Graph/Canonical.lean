import Mathlib.Logic.Relator
import Caf.Graph.Steps

/-!
# Isomorphic graphs have the same forests

The converse of `Walk.iso`: if the walked addresses correspond under a one-to-one relation that is closed
under taking successors, the walks write the same forest, and slot by slot they hold what corresponds.

* `Walk.canonical`: single lists.
* `WalkSteps.canonical`: sequences of steps.
-/

namespace ObjectGraph

universe u

variable {L M : Type*} {O : Type u} {g : Graph L} {g' : Graph M} {f : L → M} {R : ℕ → ℕ → Prop}
  {S S' T T' : List Referent} {as bs : List ℕ} {F : Forest L} {F' : Forest M} {a b k k' : ℕ}

/-- Referents that correspond: nodes by `R`, results by number. -/
inductive Paired (R : ℕ → ℕ → Prop) : Referent → Referent → Prop
  | node {a b : ℕ} : R a b → Paired R (.node a) (.node b)
  | result (i : ℕ) : Paired R (.result i) (.result i)

/-- What corresponds to the same referent is the same. -/
theorem paired_unique (hR : Relator.BiUnique R) {r s t : Referent} (h : Paired R r s) (h' : Paired R r t) : s = t := by
  cases h with
  | node h =>
    cases h' with
    | node h' => rw [hR.2 h h']
  | result i =>
    cases h'
    rfl

theorem paired_injective (hR : Relator.BiUnique R) {r s t : Referent} (h : Paired R r t) (h' : Paired R s t) :
    r = s := by
  cases h with
  | node h =>
    cases h' with
    | node h' => rw [hR.1 h h']
  | result i =>
    cases h'
    rfl

/-- The partner of a slot holds the partner of its referent. -/
theorem get_paired (h : List.Forall₂ (Paired R) S T) {r : Referent} (hr : S[k]? = some r) :
    ∃ s, T[k]? = some s ∧ Paired R r s := by
  obtain ⟨hk, rfl⟩ := List.getElem?_eq_some_iff.1 hr
  have hk' : k < T.length := h.length_eq ▸ hk
  exact ⟨T[k], List.getElem?_eq_getElem hk', (List.forall₂_iff_get.1 h).2 k hk hk'⟩

theorem get_paired_right (h : List.Forall₂ (Paired R) S T) {s : Referent} (hs : T[k]? = some s) :
    ∃ r, S[k]? = some r ∧ Paired R r s := by
  obtain ⟨hk, rfl⟩ := List.getElem?_eq_some_iff.1 hs
  have hk' : k < S.length := h.length_eq ▸ hk
  exact ⟨S[k], List.getElem?_eq_getElem hk', (List.forall₂_iff_get.1 h).2 k hk' hk⟩

/-- Referents that correspond have the same slot. -/
theorem slot_unique (hR : Relator.BiUnique R) (hT : T.Nodup) (h : List.Forall₂ (Paired R) S T) {r s : Referent}
    (hr : S[k]? = some r) (hs : T[k']? = some s) (hrs : Paired R r s) : k = k' := by
  obtain ⟨t, ht, hrt⟩ := get_paired h hr
  have hst : t = s := paired_unique hR hrt hrs
  subst hst
  exact (List.getElem?_inj (List.getElem?_eq_some_iff.1 ht).1 hT).1 (ht.trans hs.symm)

theorem nodup_append_node (hS : S.Nodup) (ha : .node a ∉ S) : (S ++ [Referent.node a]).Nodup := by
  refine List.nodup_append.2 ⟨hS, by simp, fun r hr s hs => ?_⟩
  rw [List.mem_singleton] at hs
  subst hs
  exact fun h => ha (h ▸ hr)

/-! ## The first address of a walk -/

theorem Walk.of_leaf {l : L} (h : Walk g S (a :: as) F S') (ha : g a = some (.leaf l)) :
    ∃ Fr, F = .leaf l Fr ∧ Walk g S as Fr S' := by
  cases h with
  | leaf h₁ h => rw [ha] at h₁; cases h₁; exact ⟨_, rfl, h⟩
  | result h₁ _ _ => rw [ha] at h₁; cases h₁
  | seen h₁ _ _ => rw [ha] at h₁; cases h₁
  | node h₁ _ _ _ => rw [ha] at h₁; cases h₁

theorem Walk.of_result {i : ℕ} (h : Walk g S (a :: as) F S') (ha : g a = some (.result i)) :
    ∃ k Fr, S[k]? = some (.result i) ∧ F = .back k Fr ∧ Walk g S as Fr S' := by
  cases h with
  | leaf h₁ _ => rw [ha] at h₁; cases h₁
  | result h₁ hk h => rw [ha] at h₁; cases h₁; exact ⟨_, _, hk, rfl, h⟩
  | seen h₁ _ _ => rw [ha] at h₁; cases h₁
  | node h₁ _ _ _ => rw [ha] at h₁; cases h₁

theorem Walk.of_node {es : List ℕ} (h : Walk g S (a :: as) F S') (ha : g a = some (.node es)) :
    (∃ k Fr, S[k]? = some (.node a) ∧ F = .back k Fr ∧ Walk g S as Fr S') ∨
      ∃ F₁ S₁ F₂, .node a ∉ S ∧ F = .node F₁ F₂ ∧ Walk g (S ++ [.node a]) es F₁ S₁ ∧ Walk g S₁ as F₂ S' := by
  cases h with
  | leaf h₁ _ => rw [ha] at h₁; cases h₁
  | result h₁ _ _ => rw [ha] at h₁; cases h₁
  | seen h₁ hk h => exact .inl ⟨_, _, hk, rfl, h⟩
  | node h₁ hn h h' => rw [ha] at h₁; cases h₁; exact .inr ⟨_, _, _, hn, rfl, h, h'⟩

/-- What corresponds to a cell. -/
theorem Match.of_leaf {l : L} (h : Match g g' f R a b) (ha : g a = some (.leaf l)) : g' b = some (.leaf (f l)) := by
  cases h with
  | leaf h₁ h₂ => rw [ha] at h₁; cases h₁; exact h₂
  | result h₁ _ => rw [ha] at h₁; cases h₁
  | node h₁ _ _ => rw [ha] at h₁; cases h₁

theorem Match.of_result {i : ℕ} (h : Match g g' f R a b) (ha : g a = some (.result i)) : g' b = some (.result i) := by
  cases h with
  | leaf h₁ _ => rw [ha] at h₁; cases h₁
  | result h₁ h₂ => rw [ha] at h₁; cases h₁; exact h₂
  | node h₁ _ _ => rw [ha] at h₁; cases h₁

theorem Match.of_node {es : List ℕ} (h : Match g g' f R a b) (ha : g a = some (.node es)) :
    R a b ∧ ∃ es', g' b = some (.node es') := by
  cases h with
  | leaf h₁ _ => rw [ha] at h₁; cases h₁
  | result h₁ _ => rw [ha] at h₁; cases h₁
  | node _ h₂ h₃ => exact ⟨h₃, _, h₂⟩

/-- **Isomorphic graphs, equal forests.** -/
theorem Walk.canonical (hR : Relator.BiUnique R) (hlinked : Linked g g' f R) (h : Walk g S as F S')
    (h' : Walk g' T bs F' T') (hm : List.Forall₂ (Match g g' f R) as bs) (hS : S.Nodup) (hT : T.Nodup)
    (hST : List.Forall₂ (Paired R) S T) : F' = F.map f ∧ List.Forall₂ (Paired R) S' T' := by
  induction h generalizing T bs F' T' with
  | nil =>
    cases hm
    cases h'
    exact ⟨rfl, hST⟩
  | leaf ha _ ih =>
    obtain ⟨b, bs, hab, hrest, rfl⟩ := List.forall₂_cons_left_iff.1 hm
    obtain ⟨Fr, rfl, hw'⟩ := h'.of_leaf (hab.of_leaf ha)
    obtain ⟨rfl, hpaired⟩ := ih hw' hrest hS hT hST
    exact ⟨rfl, hpaired⟩
  | result ha hk _ ih =>
    obtain ⟨b, bs, hab, hrest, rfl⟩ := List.forall₂_cons_left_iff.1 hm
    obtain ⟨k', Fr, hk', rfl, hw'⟩ := h'.of_result (hab.of_result ha)
    have := slot_unique hR hT hST hk hk' (.result _)
    subst this
    obtain ⟨rfl, hpaired⟩ := ih hw' hrest hS hT hST
    exact ⟨rfl, hpaired⟩
  | seen ha hk _ ih =>
    obtain ⟨b, bs, hab, hrest, rfl⟩ := List.forall₂_cons_left_iff.1 hm
    obtain ⟨hr, es', hb⟩ := hab.of_node ha
    obtain ⟨k', Fr, hk', rfl, hw'⟩ | ⟨_, _, _, hnew, -⟩ := h'.of_node hb
    · have := slot_unique hR hT hST hk hk' (.node hr)
      subst this
      obtain ⟨rfl, hpaired⟩ := ih hw' hrest hS hT hST
      exact ⟨rfl, hpaired⟩
    · -- the partner of a node that has a slot has one, too
      obtain ⟨t, ht, hrt⟩ := get_paired hST hk
      rw [paired_unique hR hrt (.node hr)] at ht
      exact absurd (List.mem_of_getElem? ht) hnew
  | @node S a es F₁ S₁ as F₂ S' ha hnew hw₁ _ ih₁ ih₂ =>
    obtain ⟨b, bs, hab, hrest, rfl⟩ := List.forall₂_cons_left_iff.1 hm
    obtain ⟨hr, es', hb⟩ := hab.of_node ha
    obtain ⟨k', Fr, hk', -⟩ | ⟨F₁', T₁, F₂', hnew', rfl, hw₁', hw₂'⟩ := h'.of_node hb
    · obtain ⟨t, ht, hrt⟩ := get_paired_right hST hk'
      rw [paired_injective hR hrt (.node hr)] at ht
      exact absurd (List.mem_of_getElem? ht) hnew
    · obtain ⟨_, _, h₃, h₄, helems⟩ := hlinked a b hr
      rw [ha] at h₃
      rw [hb] at h₄
      cases h₃
      cases h₄
      have hS₁ := nodup_append_node hS hnew
      have hT₁ := nodup_append_node hT hnew'
      obtain ⟨rfl, hpaired₁⟩ := ih₁ hw₁' helems hS₁ hT₁ (List.rel_append hST (.cons (.node hr) .nil))
      obtain ⟨rfl, hpaired₂⟩ := ih₂ hw₂' hrest (hw₁.nodup hS₁) (hw₁'.nodup hT₁) hpaired₁
      exact ⟨rfl, hpaired₂⟩

/-- **Isomorphic steps, equal forests.** -/
theorem WalkSteps.canonical {i : ℕ} {steps steps' : List (Step O (List ℕ))} {Fs : List (Step O (Forest L))}
    {Fs' : List (Step O (Forest M))} (hR : Relator.BiUnique R) (hlinked : Linked g g' f R)
    (h : WalkSteps g i S steps Fs S') (h' : WalkSteps g' i T steps' Fs' T')
    (hm : List.Forall₂ (StepMatch g g' f R) steps steps') (hS : S.Nodup) (hT : T.Nodup)
    (hrS : ResultsBelow i S) (hrT : ResultsBelow i T) (hST : List.Forall₂ (Paired R) S T) :
    Fs' = Fs.map (Step.map (Forest.map f)) := by
  induction h generalizing T steps' Fs' T' with
  | nil =>
    cases hm
    cases h'
    rfl
  | @cons i S op as bs F₁ S₁ F₂ S₂ steps Fs S' hw₁ hw₂ _ ih =>
    obtain ⟨st', steps', hstep, hrest, rfl⟩ := List.forall₂_cons_left_iff.1 hm
    cases h' with
    | cons hw₁' hw₂' hw₃' =>
      obtain ⟨rfl, hp₁⟩ := hw₁.canonical hR hlinked hw₁' hstep.head hS hT hST
      obtain ⟨rfl, hp₂⟩ := hw₂.canonical hR hlinked hw₂' hstep.args (hw₁.nodup hS) (hw₁'.nodup hT) hp₁
      have hrS₂ := (hrS.walk hw₁).walk hw₂
      have hrT₂ := (hrT.walk hw₁').walk hw₂'
      have hnS := hrS₂.nodup_append (hw₂.nodup (hw₁.nodup hS))
      have hnT := hrT₂.nodup_append (hw₂'.nodup (hw₁'.nodup hT))
      have := ih hw₃' hrest hnS hnT hrS₂.succ hrT₂.succ (List.rel_append hp₂ (.cons (.result i) .nil))
      subst this
      have hop : op = _ := hstep.op
      subst hop
      rfl

end ObjectGraph
