import Mathlib.Algebra.Order.Ring.Nat
import Mathlib.Data.List.Forall2
import Mathlib.Data.List.Nodup
import Mathlib.Data.List.Perm.Subperm
import Mathlib.Logic.Relation
import Mathlib.Tactic.Common

/-!
# Walks of object graphs

An object graph has shared and cyclic nodes. A *walk* visits a list of addresses
from left to right, depth first, gives each node the next free slot when it is met
for the first time, and replaces every later meeting by a reference to that slot.
What it leaves is a finite forest. Slots are shared with the results of earlier
steps, which cells refer to by number.

* `Walk.slots_mono`: slots are only appended.
* `Walk.depth_le`: the forest is no deeper than the number of new slots.
* `Walk.exists`: every address of a finite, closed graph has a walk.
-/

namespace ObjectGraph

variable {L : Type*}

/-- A cell of an object graph: a leaf, a node with its successors in order, or a
reference to the result of an earlier step. -/
inductive Cell (L : Type*) where
  | leaf (l : L)
  | node (succ : List ℕ)
  | result (i : ℕ)

/-- An object graph: the cell at each address. -/
abbrev Graph (L : Type*) := ℕ → Option (Cell L)

/-- What a slot stands for. -/
inductive Referent where
  | node (a : ℕ)
  | result (i : ℕ)
  deriving DecidableEq

/-- A sequence of values in which every node is written once and referred to by its
slot afterwards, in first-child, next-sibling form. -/
inductive Forest (L : Type*) where
  | nil
  | leaf (l : L) (rest : Forest L)
  | back (k : ℕ) (rest : Forest L)
  | node (sub rest : Forest L)

namespace Forest

/-- The number of values in the sequence. -/
def length : Forest L → ℕ
  | nil => 0
  | leaf _ rest => rest.length + 1
  | back _ rest => rest.length + 1
  | node _ rest => rest.length + 1

/-- The nesting depth: `1` for a sequence of leaves. -/
def depth : Forest L → ℕ
  | nil => 0
  | leaf _ rest => max 1 rest.depth
  | back _ rest => max 1 rest.depth
  | node sub rest => max (sub.depth + 1) rest.depth

/-- The number of slots that writing the sequence takes. -/
def slots : Forest L → ℕ
  | nil => 0
  | leaf _ rest => rest.slots
  | back _ rest => rest.slots
  | node sub rest => sub.slots + 1 + rest.slots

/-- The slots that the sequence refers to. -/
def backs : Forest L → List ℕ
  | nil => []
  | leaf _ rest => rest.backs
  | back k rest => k :: rest.backs
  | node sub rest => sub.backs ++ rest.backs

/-- Every leaf satisfies `P`. -/
def All (P : L → Prop) : Forest L → Prop
  | nil => True
  | leaf l rest => P l ∧ rest.All P
  | back _ rest => rest.All P
  | node sub rest => sub.All P ∧ rest.All P

def map {M : Type*} (f : L → M) : Forest L → Forest M
  | nil => nil
  | leaf l rest => leaf (f l) (rest.map f)
  | back k rest => back k (rest.map f)
  | node sub rest => node (sub.map f) (rest.map f)

/-- A value needs fuel. -/
theorem exists_fuel {F : Forest L} {fuel : ℕ} (hF : F ≠ nil) (hf : F.depth ≤ fuel) : ∃ n, fuel = n + 1 := by
  have hpos : 0 < F.depth := by
    cases F with
    | nil => exact absurd rfl hF
    | _ => simp [depth]
  exact Nat.exists_eq_add_one.2 (by omega)

@[simp] theorem length_map {M : Type*} (f : L → M) (F : Forest L) : (F.map f).length = F.length := by
  induction F <;> simp_all [map, length]

theorem map_id (F : Forest L) : F.map id = F := by
  induction F <;> simp_all [map]

theorem map_map {M N : Type*} (g : M → N) (f : L → M) (F : Forest L) : (F.map f).map g = F.map (g ∘ f) := by
  induction F <;> simp_all [map]

theorem all_map {M : Type*} (f : L → M) (P : M → Prop) (F : Forest L) :
    (F.map f).All P ↔ F.All fun l => P (f l) := by
  induction F <;> simp_all [map, All]

end Forest

/-- `Walk g S as F S'`: walking the addresses `as` of `g` from the slots `S` writes `F`
and leaves the slots `S'`. -/
inductive Walk (g : Graph L) : List Referent → List ℕ → Forest L → List Referent → Prop
  | nil {S} : Walk g S [] .nil S
  | leaf {S a l as F S'} : g a = some (.leaf l) → Walk g S as F S' →
      Walk g S (a :: as) (.leaf l F) S'
  | result {S a i k as F S'} : g a = some (.result i) → S[k]? = some (.result i) →
      Walk g S as F S' → Walk g S (a :: as) (.back k F) S'
  | seen {S a es k as F S'} : g a = some (.node es) → S[k]? = some (.node a) →
      Walk g S as F S' → Walk g S (a :: as) (.back k F) S'
  | node {S a es F₁ S₁ as F₂ S'} : g a = some (.node es) → .node a ∉ S →
      Walk g (S ++ [.node a]) es F₁ S₁ → Walk g S₁ as F₂ S' →
      Walk g S (a :: as) (.node F₁ F₂) S'

/-- One successor step. -/
def Succ (g : Graph L) (a b : ℕ) : Prop := ∃ es, g a = some (.node es) ∧ b ∈ es

/-- `b` can be reached from `a` through nodes. -/
abbrev Reach (g : Graph L) : ℕ → ℕ → Prop := Relation.ReflTransGen (Succ g)

/-- Everything reachable from `a` exists and refers to results below `n` only. -/
def Sound (g : Graph L) (n a : ℕ) : Prop :=
  ∀ b, Reach g a b → ∃ c, g b = some c ∧ ∀ i, c = .result i → i < n

/-- The slots that are not results hold nodes. -/
def NodesIn (g : Graph L) (S : List Referent) : Prop := ∀ a, .node a ∈ S → ∃ es, g a = some (.node es)

/-- If the cell at `a` is a leaf, it satisfies `P`; if it is a node, it has a slot. -/
def Met (g : Graph L) (P : L → Prop) (S : List Referent) (a : ℕ) : Prop :=
  (∀ l, g a = some (.leaf l) → P l) ∧ ∀ es, g a = some (.node es) → .node a ∈ S

variable {g : Graph L} {S S' : List Referent} {as : List ℕ} {F : Forest L} {n a b : ℕ}

theorem getElem?_concat {α : Type*} {l : List α} {x y : α} {k : ℕ} (h : (l ++ [x])[k]? = some y) :
    l[k]? = some y ∨ k = l.length ∧ y = x := by
  rcases Nat.lt_or_ge k l.length with hk | hk
  · rw [List.getElem?_append_left hk] at h
    exact .inl h
  · rw [List.getElem?_append_right hk, List.getElem?_singleton] at h
    split at h
    · exact .inr ⟨by omega, by simpa using h.symm⟩
    · simp at h

theorem getElem?_grows {α : Type*} {l l' : List α} {x : α} {k : ℕ} (h : l <+: l')
    (hk : l[k]? = some x) : l'[k]? = some x := by
  obtain ⟨T, rfl⟩ := h
  rw [List.getElem?_append_left (List.getElem?_eq_some_iff.1 hk).1, hk]

theorem Met.mono {P : L → Prop} (h : Met g P S a) (hS : S ⊆ S') : Met g P S' a :=
  ⟨h.1, fun es hes => hS (h.2 es hes)⟩

theorem Sound.succ {es : List ℕ} (h : Sound g n a) (ha : g a = some (.node es)) (hb : b ∈ es) :
    Sound g n b :=
  fun _ hc => h _ (.head ⟨es, ha, hb⟩ hc)

theorem Sound.mono {m : ℕ} (h : Sound g n a) (hnm : n ≤ m) : Sound g m a := by
  intro b hb
  obtain ⟨c, hc, hi⟩ := h b hb
  exact ⟨c, hc, fun i hci => Nat.lt_of_lt_of_le (hi i hci) hnm⟩

namespace Walk

theorem length_eq (h : Walk g S as F S') : F.length = as.length := by
  induction h <;> simp_all [Forest.length]

/-- **Slots are only appended**, and only nodes are appended. -/
theorem slots_mono (h : Walk g S as F S') :
    ∃ T : List ℕ, S' = S ++ T.map .node ∧ T.length = F.slots := by
  induction h with
  | nil => exact ⟨[], by simp [Forest.slots]⟩
  | leaf _ _ ih => exact ih
  | result _ _ _ ih => exact ih
  | seen _ _ _ ih => exact ih
  | @node S a es F₁ S₁ as F₂ S' _ _ _ _ ih₁ ih₂ =>
    obtain ⟨T₁, rfl, h₁⟩ := ih₁
    obtain ⟨T₂, rfl, h₂⟩ := ih₂
    refine ⟨a :: T₁ ++ T₂, by simp, ?_⟩
    simp [Forest.slots, h₁, h₂]; omega

theorem prefix_slots (h : Walk g S as F S') : S <+: S' := by
  obtain ⟨T, rfl, -⟩ := h.slots_mono
  exact List.prefix_append _ _

theorem length_slots (h : Walk g S as F S') : S'.length = S.length + F.slots := by
  obtain ⟨T, rfl, hT⟩ := h.slots_mono
  simp [hT]

theorem nodup (h : Walk g S as F S') (hS : S.Nodup) : S'.Nodup := by
  induction h with
  | nil => exact hS
  | leaf _ _ ih => exact ih hS
  | result _ _ _ ih => exact ih hS
  | seen _ _ _ ih => exact ih hS
  | node _ hn _ _ ih₁ ih₂ =>
    exact ih₂ (ih₁ (List.nodup_append.2 ⟨hS, by simp, fun r hr s hs => by
      rw [List.mem_singleton] at hs; subst hs; exact fun h => hn (h ▸ hr)⟩))

/-- Every slot taken by a walk holds a node reachable from the walked addresses. -/
theorem reach_of_mem (h : Walk g S as F S') {b : ℕ} (hb : .node b ∈ S') :
    .node b ∈ S ∨ (∃ a ∈ as, Reach g a b) ∧ ∃ es, g b = some (.node es) := by
  induction h with
  | nil => exact .inl hb
  | leaf _ _ ih =>
    rcases ih hb with h | ⟨⟨a, ha, hr⟩, h⟩
    · exact .inl h
    · exact .inr ⟨⟨a, List.mem_cons_of_mem _ ha, hr⟩, h⟩
  | result _ _ _ ih =>
    rcases ih hb with h | ⟨⟨a, ha, hr⟩, h⟩
    · exact .inl h
    · exact .inr ⟨⟨a, List.mem_cons_of_mem _ ha, hr⟩, h⟩
  | seen _ _ _ ih =>
    rcases ih hb with h | ⟨⟨a, ha, hr⟩, h⟩
    · exact .inl h
    · exact .inr ⟨⟨a, List.mem_cons_of_mem _ ha, hr⟩, h⟩
  | @node S a es F₁ S₁ as F₂ S' hg hn _ _ ih₁ ih₂ =>
    rcases ih₂ hb with h | ⟨⟨c, hc, hr⟩, h⟩
    · rcases ih₁ h with h | ⟨⟨c, hc, hr⟩, h⟩
      · rcases List.mem_append.1 h with h | h
        · exact .inl h
        · simp only [List.mem_singleton, Referent.node.injEq] at h
          subst h
          exact .inr ⟨⟨b, List.mem_cons_self, .refl⟩, es, hg⟩
      · exact .inr ⟨⟨a, List.mem_cons_self, .head ⟨es, hg, hc⟩ hr⟩, h⟩
    · exact .inr ⟨⟨c, List.mem_cons_of_mem _ hc, hr⟩, h⟩

/-- If the slots hold nodes of the graph, they still do. -/
theorem nodesIn (h : Walk g S as F S') (hS : NodesIn g S) : NodesIn g S' := by
  intro b hb
  rcases h.reach_of_mem hb with hb | ⟨-, hes⟩
  · exact hS b hb
  · exact hes

/-- The leaves of the forest are leaves of the graph. -/
theorem all {P : L → Prop} (h : Walk g S as F S')
    (hP : ∀ a ∈ as, ∀ b l, Reach g a b → g b = some (.leaf l) → P l) : F.All P := by
  induction h with
  | nil => trivial
  | leaf ha _ ih =>
    exact ⟨hP _ List.mem_cons_self _ _ .refl ha, ih fun b hb => hP b (List.mem_cons_of_mem _ hb)⟩
  | result _ _ _ ih => exact ih fun b hb => hP b (List.mem_cons_of_mem _ hb)
  | seen _ _ _ ih => exact ih fun b hb => hP b (List.mem_cons_of_mem _ hb)
  | @node S a es F₁ S₁ as F₂ S' ha _ _ _ ih₁ ih₂ =>
    exact ⟨ih₁ fun b hb c l hr => hP a List.mem_cons_self c l (.head ⟨es, ha, hb⟩ hr),
      ih₂ fun b hb => hP b (List.mem_cons_of_mem _ hb)⟩

/-- **Nothing reachable is left out**: what a walk meets is a leaf of the forest or has a slot, and so is
what the nodes with new slots refer to. -/
theorem met {P : L → Prop} (h : Walk g S as F S') (hF : F.All P) : (∀ a ∈ as, Met g P S' a) ∧
    ∀ b, .node b ∈ S' → .node b ∈ S ∨ ∀ es, g b = some (.node es) → ∀ e ∈ es, Met g P S' e := by
  induction h with
  | nil => exact ⟨by simp, fun b hb => .inl hb⟩
  | leaf ha _ ih =>
    obtain ⟨h₁, h₂⟩ := ih hF.2
    refine ⟨fun b hb => ?_, h₂⟩
    rcases List.mem_cons.1 hb with rfl | hb
    · refine ⟨fun l hl => ?_, fun es hes => ?_⟩
      · rw [ha] at hl
        cases hl
        exact hF.1
      · rw [ha] at hes
        cases hes
    · exact h₁ b hb
  | result ha _ _ ih =>
    obtain ⟨h₁, h₂⟩ := ih hF
    refine ⟨fun b hb => ?_, h₂⟩
    rcases List.mem_cons.1 hb with rfl | hb
    · exact ⟨fun l hl => by simp [ha] at hl, fun es hes => by simp [ha] at hes⟩
    · exact h₁ b hb
  | seen ha hk hw ih =>
    obtain ⟨h₁, h₂⟩ := ih hF
    refine ⟨fun b hb => ?_, h₂⟩
    rcases List.mem_cons.1 hb with rfl | hb
    · exact ⟨fun l hl => by simp [ha] at hl, fun es hes => hw.prefix_slots.subset (List.mem_of_getElem? hk)⟩
    · exact h₁ b hb
  | @node S a es F₁ S₁ as F₂ S' ha hn hw₁ hw₂ ih₁ ih₂ =>
    obtain ⟨h₁, h₁'⟩ := ih₁ hF.1
    obtain ⟨h₂, h₂'⟩ := ih₂ hF.2
    have hsub := hw₂.prefix_slots.subset
    have hself : .node a ∈ S' := hsub (hw₁.prefix_slots.subset (by simp))
    refine ⟨fun b hb => ?_, fun b hb => ?_⟩
    · rcases List.mem_cons.1 hb with rfl | hb
      · exact ⟨fun l hl => by simp [ha] at hl, fun es hes => hself⟩
      · exact h₂ b hb
    · rcases h₂' b hb with hb | hb
      · rcases h₁' b hb with hb | hb
        · rcases List.mem_append.1 hb with hb | hb
          · exact .inl hb
          · cases List.mem_singleton.1 hb
            refine .inr fun es' hes' e he => ?_
            rw [ha] at hes'
            cases hes'
            exact (h₁ e he).mono hsub
        · exact .inr fun es hes e he => (hb es hes e he).mono hsub
      · exact .inr hb

/-- **The forest is no deeper than the slots it takes**, plus one. -/
theorem depth_le (h : Walk g S as F S') : F.depth ≤ F.slots + 1 := by
  induction h with
  | nil => simp [Forest.depth]
  | leaf _ _ ih => simp only [Forest.depth, Forest.slots]; omega
  | result _ _ _ ih => simp only [Forest.depth, Forest.slots]; omega
  | seen _ _ _ ih => simp only [Forest.depth, Forest.slots]; omega
  | node _ _ _ _ ih₁ ih₂ => simp only [Forest.depth, Forest.slots]; omega

end Walk

/-- The addresses below `N` that have no slot yet. -/
def fresh (N : ℕ) (S : List Referent) : List ℕ :=
  (List.range N).filter fun a => .node a ∉ S

theorem fresh_length_mono (N : ℕ) (h : ∀ r ∈ S, r ∈ S') :
    (fresh N S').length ≤ (fresh N S).length := by
  apply List.Sublist.length_le
  apply List.monotone_filter_right
  intro a ha
  simp only [decide_eq_true_eq] at ha ⊢
  exact fun hm => ha (h _ hm)

theorem fresh_length_lt {N : ℕ} (ha : a < N) (hn : .node a ∉ S) (h : ∀ r ∈ S, r ∈ S')
    (ha' : .node a ∈ S') : (fresh N S').length < (fresh N S).length := by
  have hsub : (fresh N S').Sublist (fresh N S) := by
    apply List.monotone_filter_right
    intro b hb
    simp only [decide_eq_true_eq] at hb ⊢
    exact fun hm => hb (h _ hm)
  refine Nat.lt_of_le_of_ne hsub.length_le fun heq => ?_
  have hEq := hsub.eq_of_length heq
  have hin : a ∈ fresh N S := by simp [fresh, ha, hn]
  rw [← hEq] at hin
  simp [fresh, ha'] at hin

/-- **Every address of a finite graph has a walk**, if what it reaches exists and every
result it refers to has a slot. -/
theorem Walk.exists {N : ℕ} (hN : ∀ a c, g a = some c → a < N) (hS : ∀ i < n, .result i ∈ S)
    (has : ∀ a ∈ as, Sound g n a) : ∃ F S', Walk g S as F S' := by
  -- the outer induction is on the addresses without a slot, the inner one on the siblings
  induction hm : (fresh N S).length using Nat.strongRecOn generalizing S as with
  | _ m ihm =>
  induction as with
  | nil => exact ⟨_, _, .nil⟩
  | cons a as ih =>
    have has' : ∀ b ∈ as, Sound g n b := fun b hb => has b (List.mem_cons_of_mem _ hb)
    obtain ⟨c, hc, hi⟩ := has a List.mem_cons_self a .refl
    cases c with
    | leaf l =>
      obtain ⟨F, S', hF⟩ := ih has'
      exact ⟨_, _, .leaf hc hF⟩
    | result i =>
      obtain ⟨F, S', hF⟩ := ih has'
      obtain ⟨k, hk⟩ := List.getElem?_of_mem (hS i (hi i rfl))
      exact ⟨_, _, .result hc hk hF⟩
    | node es =>
      by_cases hin : .node a ∈ S
      · obtain ⟨F, S', hF⟩ := ih has'
        obtain ⟨k, hk⟩ := List.getElem?_of_mem hin
        exact ⟨_, _, .seen hc hk hF⟩
      · have hlt : (fresh N (S ++ [.node a])).length < m := by
          rw [← hm]
          exact fresh_length_lt (hN a _ hc) hin (fun r hr => List.mem_append_left _ hr) (by simp)
        obtain ⟨F₁, S₁, h₁⟩ := ihm _ hlt (fun i hi => List.mem_append_left _ (hS i hi))
          (fun b hb => (has a List.mem_cons_self).succ hc hb) rfl
        have hsub : ∀ r ∈ S ++ [.node a], r ∈ S₁ := fun r hr => h₁.prefix_slots.subset hr
        have hle := fresh_length_mono N hsub
        obtain ⟨F₂, S₂, h₂⟩ := ihm _ (by omega : (fresh N S₁).length < m)
          (fun i hi => hsub _ (List.mem_append_left _ (hS i hi))) has' rfl
        exact ⟨_, _, .node hc hin h₁ h₂⟩

/-- A walk of a graph with addresses below `N` takes at most `N` slots. -/
theorem Walk.slots_le {N : ℕ} (hN : ∀ a c, g a = some c → a < N) (h : Walk g S as F S')
    (hS : S.Nodup) : F.slots ≤ N := by
  obtain ⟨T, hT, hlen⟩ := h.slots_mono
  have hnd : T.Nodup := by
    have := h.nodup hS
    rw [hT] at this
    exact List.Nodup.of_map _ (List.nodup_append.1 this).2.1
  have hlt : ∀ a ∈ T, a ∈ List.range N := by
    intro a ha
    have hin : .node a ∈ S' := by rw [hT]; simp [ha]
    rcases h.reach_of_mem hin with hs | ⟨-, es, hes⟩
    · have := h.nodup hS
      rw [hT] at this
      exact absurd rfl ((List.nodup_append.1 this).2.2 _ hs _ (List.mem_map_of_mem ha))
    · exact List.mem_range.2 (hN a _ hes)
  rw [← hlen]
  simpa using (List.Nodup.subperm hnd hlt).length_le

end ObjectGraph
