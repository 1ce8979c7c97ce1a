import Caf.Graph.Walk

/-!
# Walks that write the same forest

Two graphs whose walks write the same forest are isomorphic on what was walked: the
nodes that got the same slot correspond one to one.

* `Walk.iso`: the correspondence, for a walk on either side.
* `Linked.total`: every reachable node corresponds to one on the other side.
-/

namespace ObjectGraph

variable {L M : Type*}

/-- Referents of the same kind; results must have the same number. -/
inductive SameKind : Referent → Referent → Prop
  | node (a b : ℕ) : SameKind (.node a) (.node b)
  | result (i : ℕ) : SameKind (.result i) (.result i)

/-- Slots with nodes and results in the same places. -/
abbrev Aligned (S T : List Referent) : Prop := List.Forall₂ SameKind S T

/-- `a` and `b` hold the same slot. -/
def Link (S T : List Referent) (a b : ℕ) : Prop :=
  ∃ k : ℕ, S[k]? = some (.node a) ∧ T[k]? = some (.node b)

/-- The cells at `a` and `b` correspond: leaves up to `f`, results by number, nodes by `R`. -/
inductive Match (g : Graph L) (g' : Graph M) (f : L → M) (R : ℕ → ℕ → Prop) (a b : ℕ) : Prop
  | leaf {l} : g a = some (.leaf l) → g' b = some (.leaf (f l)) → Match g g' f R a b
  | result {i} : g a = some (.result i) → g' b = some (.result i) → Match g g' f R a b
  | node {es es'} : g a = some (.node es) → g' b = some (.node es') → R a b → Match g g' f R a b

/-- The successors of `a` and `b` correspond one by one. -/
def NodeMatch (g : Graph L) (g' : Graph M) (f : L → M) (R : ℕ → ℕ → Prop) (a b : ℕ) : Prop :=
  ∃ es es', g a = some (.node es) ∧ g' b = some (.node es') ∧ List.Forall₂ (Match g g' f R) es es'

variable {g : Graph L} {g' : Graph M} {f : L → M} {R R' : ℕ → ℕ → Prop}
  {S S₁ T T₁ : List Referent} {as bs : List ℕ} {F : Forest L} {a b : ℕ}

theorem Match.mono (h : Match g g' f R a b) (hR : ∀ a b, R a b → R' a b) : Match g g' f R' a b := by
  cases h with
  | leaf h₁ h₂ => exact .leaf h₁ h₂
  | result h₁ h₂ => exact .result h₁ h₂
  | node h₁ h₂ h₃ => exact .node h₁ h₂ (hR _ _ h₃)

theorem NodeMatch.mono (h : NodeMatch g g' f R a b) (hR : ∀ a b, R a b → R' a b) :
    NodeMatch g g' f R' a b := by
  obtain ⟨es, es', h₁, h₂, h₃⟩ := h
  exact ⟨es, es', h₁, h₂, h₃.imp fun _ _ hm => hm.mono hR⟩

theorem Aligned.append_node (h : Aligned S T) (a b : ℕ) : Aligned (S ++ [.node a]) (T ++ [.node b]) :=
  List.rel_append h (.cons (.node a b) .nil)

theorem Aligned.append_result (h : Aligned S T) (i : ℕ) :
    Aligned (S ++ [.result i]) (T ++ [.result i]) :=
  List.rel_append h (.cons (.result i) .nil)

theorem Aligned.get (h : Aligned S T) {k : ℕ} {r s : Referent} (hr : S[k]? = some r)
    (hs : T[k]? = some s) : SameKind r s := by
  obtain ⟨hk, rfl⟩ := List.getElem?_eq_some_iff.1 hr
  obtain ⟨hk', rfl⟩ := List.getElem?_eq_some_iff.1 hs
  exact (List.forall₂_iff_get.1 h).2 k hk hk'

theorem Link.mono (h : Link S T a b) (hS : S <+: S₁) (hT : T <+: T₁) : Link S₁ T₁ a b := by
  obtain ⟨k, h₁, h₂⟩ := h
  exact ⟨k, getElem?_grows hS h₁, getElem?_grows hT h₂⟩

theorem Link.of_append (h : Aligned S T) {c d : ℕ} (hl : Link (S ++ [.node c]) (T ++ [.node d]) a b) :
    Link S T a b ∨ a = c ∧ b = d := by
  obtain ⟨k, h₁, h₂⟩ := hl
  have hlen := h.length_eq
  rcases getElem?_concat h₁ with h₁ | ⟨rfl, e₁⟩
  · rcases getElem?_concat h₂ with h₂ | ⟨rfl, e₂⟩
    · exact .inl ⟨k, h₁, h₂⟩
    · rw [← hlen, List.getElem?_eq_none (Nat.le_refl _)] at h₁; simp at h₁
  · rcases getElem?_concat h₂ with h₂ | ⟨-, e₂⟩
    · rw [hlen, List.getElem?_eq_none (Nat.le_refl _)] at h₂; simp at h₂
    · cases e₁; cases e₂; exact .inr ⟨rfl, rfl⟩

theorem Link.left_unique (hS : S.Nodup) {b' : ℕ} (h : Link S T a b) (h' : Link S T a b') : b = b' := by
  obtain ⟨k, h₁, h₂⟩ := h
  obtain ⟨k', h₁', h₂'⟩ := h'
  obtain ⟨hk, -⟩ := List.getElem?_eq_some_iff.1 h₁
  have : k = k' := (List.getElem?_inj hk hS).1 (h₁.trans h₁'.symm)
  subst this
  simpa using h₂.symm.trans h₂'

theorem Link.right_unique (hT : T.Nodup) {a' : ℕ} (h : Link S T a b) (h' : Link S T a' b) : a = a' := by
  obtain ⟨k, h₁, h₂⟩ := h
  obtain ⟨k', h₁', h₂'⟩ := h'
  obtain ⟨hk, -⟩ := List.getElem?_eq_some_iff.1 h₂
  have : k = k' := (List.getElem?_inj hk hT).1 (h₂.trans h₂'.symm)
  subst this
  simpa using h₁.symm.trans h₁'

/-- **Equal forests, isomorphic graphs.** The walked addresses correspond, and so do the
successors of all nodes that got a slot in these walks. -/
theorem Walk.iso (h : Walk g S as F S₁) (h' : Walk g' T bs (F.map f) T₁) (hA : Aligned S T) :
    Aligned S₁ T₁ ∧ List.Forall₂ (Match g g' f (Link S₁ T₁)) as bs ∧
      ∀ a b, Link S₁ T₁ a b → Link S T a b ∨ NodeMatch g g' f (Link S₁ T₁) a b := by
  induction h generalizing T bs T₁ with
  | nil =>
    cases h'
    exact ⟨hA, .nil, fun _ _ h => .inl h⟩
  | leaf hg _ ih =>
    cases h' with
    | leaf hg' h' =>
      obtain ⟨h₁, h₂, h₃⟩ := ih h' hA
      exact ⟨h₁, .cons (.leaf hg hg') h₂, h₃⟩
  | result hg hk _ ih =>
    cases h' with
    | result hg' hk' h' =>
      obtain ⟨h₁, h₂, h₃⟩ := ih h' hA
      cases hA.get hk hk'
      exact ⟨h₁, .cons (.result hg hg') h₂, h₃⟩
    | seen _ hk' _ => cases hA.get hk hk'
  | seen hg hk hw ih =>
    cases h' with
    | result _ hk' _ => cases hA.get hk hk'
    | seen hg' hk' h' =>
      obtain ⟨h₁, h₂, h₃⟩ := ih h' hA
      have hl : Link _ T _ _ := ⟨_, hk, hk'⟩
      exact ⟨h₁, .cons (.node hg hg' (hl.mono hw.prefix_slots h'.prefix_slots)) h₂, h₃⟩
  | @node S a es F₁ S₁ as F₂ S' hg hn hw₁ hw₂ ih₁ ih₂ =>
    cases h' with
    | @node _ b es' _ T₁' bs _ _ hg' _ hw₁' hw₂' =>
      obtain ⟨hA₁, hm₁, hl₁⟩ := ih₁ hw₁' (hA.append_node a b)
      obtain ⟨hA₂, hm₂, hl₂⟩ := ih₂ hw₂' hA₁
      have hmono : ∀ c d, Link S₁ T₁' c d → Link S' T₁ c d :=
        fun c d h => h.mono hw₂.prefix_slots hw₂'.prefix_slots
      -- both nodes take the next slot, before their successors
      have hab : Link S₁ T₁' a b := by
        refine Link.mono ⟨S.length, ?_, ?_⟩ hw₁.prefix_slots hw₁'.prefix_slots
        · simp
        · rw [hA.length_eq]; simp
      refine ⟨hA₂, .cons (.node hg hg' (hmono _ _ hab)) hm₂, fun c d hcd => ?_⟩
      rcases hl₂ c d hcd with h | h
      · rcases hl₁ c d h with h | h
        · rcases h.of_append hA with h | ⟨rfl, rfl⟩
          · exact .inl h
          · exact .inr ⟨es, es', hg, hg', hm₁.imp fun _ _ hm => hm.mono hmono⟩
        · exact .inr (h.mono hmono)
      · exact .inr h

/-- A relation between nodes that is closed under taking successors. -/
def Linked (g : Graph L) (g' : Graph M) (f : L → M) (R : ℕ → ℕ → Prop) : Prop :=
  ∀ a b, R a b → NodeMatch g g' f R a b

/-- **Everything reachable corresponds** to something reachable on the other side. -/
theorem Linked.total (hR : Linked g g' f R) (hm : Match g g' f R a b) {c : ℕ} (hc : Reach g a c) :
    ∃ d, Reach g' b d ∧ Match g g' f R c d := by
  induction hc with
  | refl => exact ⟨b, .refl, hm⟩
  | tail _ hs ih =>
    obtain ⟨d, hd, hmd⟩ := ih
    obtain ⟨es, hes, hin⟩ := hs
    cases hmd with
    | leaf h => rw [h] at hes; simp at hes
    | result h => rw [h] at hes; simp at hes
    | node h₁ h₂ h₃ =>
      obtain ⟨es₁, es₂, h₄, h₅, h₆⟩ := hR _ _ h₃
      rw [hes, Option.some.injEq, Cell.node.injEq] at h₄
      subst h₄
      obtain ⟨i, hi, rfl⟩ := List.mem_iff_getElem.1 hin
      have hi' : i < es₂.length := h₆.length_eq ▸ hi
      exact ⟨es₂[i], hd.tail ⟨es₂, h₅, List.getElem_mem _⟩,
        (List.forall₂_iff_get.1 h₆).2 i hi hi'⟩

/-- Seen from the other side. -/
theorem Match.total_right (hR : Linked g g' f R) (hm : Match g g' f R a b) {d : ℕ}
    (hd : Reach g' b d) : ∃ c, Reach g a c ∧ Match g g' f R c d := by
  induction hd with
  | refl => exact ⟨a, .refl, hm⟩
  | tail _ hs ih =>
    obtain ⟨c, hc, hmc⟩ := ih
    obtain ⟨es, hes, hin⟩ := hs
    cases hmc with
    | leaf _ h => rw [h] at hes; simp at hes
    | result _ h => rw [h] at hes; simp at hes
    | node h₁ h₂ h₃ =>
      obtain ⟨es₁, es₂, h₄, h₅, h₆⟩ := hR _ _ h₃
      rw [hes, Option.some.injEq, Cell.node.injEq] at h₅
      subst h₅
      obtain ⟨i, hi, rfl⟩ := List.mem_iff_getElem.1 hin
      have hi' : i < es₁.length := h₆.length_eq ▸ hi
      exact ⟨es₁[i], hc.tail ⟨es₁, h₄, List.getElem_mem _⟩,
        (List.forall₂_iff_get.1 h₆).2 i hi' hi⟩

end ObjectGraph
