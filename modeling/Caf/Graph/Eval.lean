import Caf.Graph.Walk
import Mathlib.Logic.Function.Basic
import Mathlib.Order.Lattice

/-!
# Evaluating object graphs

A host builds values: leaves, new empty nodes, and pushes onto nodes. The *reference
evaluation* `eval` of a graph builds each node once, where it is met first, and uses it
again at later meetings. `Forest.run` evaluates the forest of a walk instead, with a
pool that holds the value of each slot.

* `Walk.run_total`: the forest of a walk always evaluates.
* `Walk.eval_eq`: the reference evaluation of the addresses is the run of the forest.
* `Forest.run_map`: leaves the host does not tell apart can be exchanged.
-/

namespace ObjectGraph

universe u

variable {L M : Type*} {σ V : Type u}

/-- How a host builds values. `node` is told the number of successors to come. -/
structure Interp (L : Type*) (σ V : Type u) where
  leaf : L → σ → V × σ
  node : ℕ → σ → V × σ
  push : V → V → σ → σ

/-- Push onto the node under construction, if there is one. -/
def Interp.pushInto (I : Interp L σ V) : Option V → V → σ → σ
  | none, _, s => s
  | some d, v, s => I.push d v s

/-- The state of the reference evaluation. -/
structure EvalState (σ V : Type u) where
  host : σ
  built : ℕ → Option V
  results : List V

/-- Nothing built yet. -/
def EvalState.start (s : σ) : EvalState σ V := ⟨s, fun _ => none, []⟩

/-- Evaluate a list of addresses with `ev`, pushing each value onto `dest`. -/
def evalEach (I : Interp L σ V) (ev : ℕ → EvalState σ V → Option (V × EvalState σ V))
    (dest : Option V) : List ℕ → EvalState σ V → Option (List V × EvalState σ V)
  | [], s => some ([], s)
  | a :: as, s => do
    let (v, s) ← ev a s
    let (vs, s) ← evalEach I ev dest as { s with host := I.pushInto dest v s.host }
    return (v :: vs, s)

/-- **The reference evaluation** of the value at an address. -/
def eval (I : Interp L σ V) (g : Graph L) : ℕ → ℕ → EvalState σ V → Option (V × EvalState σ V)
  | 0, _, _ => none
  | fuel + 1, a, s =>
    match g a with
    | none => none
    | some (.leaf l) =>
      let (v, h) := I.leaf l s.host
      some (v, { s with host := h })
    | some (.result i) => s.results[i]?.map (·, s)
    | some (.node es) =>
      match s.built a with
      | some v => some (v, s)
      | none => do
        let (v, h) := I.node es.length s.host
        let (_, s) ← evalEach I (eval I g fuel) (some v) es
          { s with host := h, built := Function.update s.built a (some v) }
        return (v, s)

/-- Evaluate a forest. The pool holds the values of the slots. -/
def Forest.run (I : Interp L σ V) : Forest L → Option V → List V → σ → Option (List V × List V × σ)
  | .nil, _, pool, s => some ([], pool, s)
  | .leaf l rest, dest, pool, s => do
    let (v, s) := I.leaf l s
    let (vs, pool, s) ← rest.run I dest pool (I.pushInto dest v s)
    return (v :: vs, pool, s)
  | .back k rest, dest, pool, s => do
    let v ← pool[k]?
    let (vs, pool, s) ← rest.run I dest pool (I.pushInto dest v s)
    return (v :: vs, pool, s)
  | .node sub rest, dest, pool, s => do
    let (v, s) := I.node sub.length s
    let (_, pool, s) ← sub.run I (some v) (pool ++ [v]) s
    let (vs, pool, s) ← rest.run I dest pool (I.pushInto dest v s)
    return (v :: vs, pool, s)

/-- The leaves, in the order in which they are evaluated. -/
def Forest.leaves : Forest L → List L
  | .nil => []
  | .leaf l rest => l :: rest.leaves
  | .back _ rest => rest.leaves
  | .node sub rest => sub.leaves ++ rest.leaves

variable {I : Interp L σ V} {g : Graph L} {S S' : List Referent} {as : List ℕ} {F : Forest L}
  {dest : Option V} {pool pool' vs : List V} {s s' : σ}

namespace Forest

variable {l : L} {k : ℕ} {sub rest : Forest L} {v : V} {t : σ}

theorem run_nil_eq (h : nil.run I dest pool s = some (vs, pool', s')) : vs = [] ∧ pool' = pool ∧ s' = s := by
  simp only [run, Option.some.injEq, Prod.mk.injEq] at h
  exact ⟨h.1.symm, h.2.1.symm, h.2.2.symm⟩

theorem run_leaf_eq (hl : I.leaf l s = (v, t)) (h : (leaf l rest).run I dest pool s = some (vs, pool', s')) :
    ∃ vs', vs = v :: vs' ∧ rest.run I dest pool (I.pushInto dest v t) = some (vs', pool', s') := by
  simp only [run, hl, Option.bind_eq_bind, Option.bind_eq_some_iff] at h
  obtain ⟨⟨vs', p', u⟩, hrest, h⟩ := h
  simp only [Option.pure_def, Option.some.injEq, Prod.mk.injEq] at h
  obtain ⟨rfl, rfl, rfl⟩ := h
  exact ⟨vs', rfl, hrest⟩

theorem run_back_eq (h : (back k rest).run I dest pool s = some (vs, pool', s')) :
    ∃ v vs', pool[k]? = some v ∧ vs = v :: vs' ∧
      rest.run I dest pool (I.pushInto dest v s) = some (vs', pool', s') := by
  simp only [run, Option.bind_eq_bind, Option.bind_eq_some_iff] at h
  obtain ⟨v, hv, ⟨vs', p', u⟩, hrest, h⟩ := h
  simp only [Option.pure_def, Option.some.injEq, Prod.mk.injEq] at h
  obtain ⟨rfl, rfl, rfl⟩ := h
  exact ⟨v, vs', hv, rfl, hrest⟩

theorem run_node_eq (hn : I.node sub.length s = (v, t))
    (h : (node sub rest).run I dest pool s = some (vs, pool', s')) :
    ∃ us p u vs', sub.run I (some v) (pool ++ [v]) t = some (us, p, u) ∧ vs = v :: vs' ∧
      rest.run I dest p (I.pushInto dest v u) = some (vs', pool', s') := by
  simp only [run, hn, Option.bind_eq_bind, Option.bind_eq_some_iff] at h
  obtain ⟨⟨us, p, u⟩, hsub, ⟨vs', p', w⟩, hrest, h⟩ := h
  simp only [Option.pure_def, Option.some.injEq, Prod.mk.injEq] at h
  obtain ⟨rfl, rfl, rfl⟩ := h
  exact ⟨us, p, u, vs', hsub, rfl, hrest⟩

end Forest

/-- Exchange leaves the host does not tell apart. -/
theorem Forest.run_map (J : Interp M σ V) (f : L → M) (hl : ∀ l s, J.leaf (f l) s = I.leaf l s)
    (hn : J.node = I.node) (hp : J.push = I.push) :
    ∀ (F : Forest L) (dest : Option V) (pool : List V) (s : σ),
      (F.map f).run J dest pool s = F.run I dest pool s := by
  have hpi : ∀ d v s, J.pushInto d v s = I.pushInto d v s := by
    intro d v s; cases d <;> simp [Interp.pushInto, hp]
  intro F
  induction F with
  | nil => intro dest pool s; rfl
  | leaf l rest ih => intro dest pool s; simp [map, run, hl, hpi, ih]
  | back k rest ih => intro dest pool s; simp [map, run, hpi, ih]
  | node sub rest ih₁ ih₂ => intro dest pool s; simp [map, run, hn, hpi, ih₁, ih₂]

theorem Forest.run_length (h : F.run I dest pool s = some (vs, pool', s')) : vs.length = F.length := by
  induction F generalizing dest pool vs pool' s s' with
  | nil =>
    obtain ⟨rfl, -, -⟩ := run_nil_eq h
    rfl
  | leaf l rest ih =>
    obtain ⟨vs₁, rfl, h₁⟩ := run_leaf_eq rfl h
    rw [List.length_cons, ih h₁, length]
  | back k rest ih =>
    obtain ⟨v, vs₁, -, rfl, h₁⟩ := run_back_eq h
    rw [List.length_cons, ih h₁, length]
  | node sub rest _ ih =>
    obtain ⟨us, p, u, vs₁, -, rfl, h₁⟩ := run_node_eq rfl h
    rw [List.length_cons, ih h₁, length]

/-- **A host that takes note of leaves only** has met those of the forest in the end. -/
theorem Forest.run_leaves {f : σ → L → σ} (hleaf : ∀ l s, (I.leaf l s).2 = f s l) (hnode : ∀ n s, (I.node n s).2 = s)
    (hpush : ∀ a v s, I.push a v s = s) (h : F.run I dest pool s = some (vs, pool', s')) : s' = F.leaves.foldl f s := by
  have hinto : ∀ d v s, I.pushInto d v s = s := by
    intro d v s
    cases d with
    | none => rfl
    | some a => exact hpush a v s
  induction F generalizing dest pool vs pool' s s' with
  | nil => exact (run_nil_eq h).2.2
  | leaf l rest ih =>
    obtain ⟨vs₁, -, h₁⟩ := run_leaf_eq rfl h
    rw [ih h₁, hinto, hleaf]
    rfl
  | back k rest ih =>
    obtain ⟨v, vs₁, -, -, h₁⟩ := run_back_eq h
    rw [ih h₁, hinto]
    rfl
  | node sub rest ih₁ ih₂ =>
    obtain ⟨us, p, u, vs₁, h₁, -, h₂⟩ := run_node_eq rfl h
    rw [ih₂ h₂, hinto, ih₁ h₁, hnode, leaves, List.foldl_append]

/-- The pool only grows, by one value for each slot. -/
theorem Forest.run_pool (h : F.run I dest pool s = some (vs, pool', s')) :
    pool <+: pool' ∧ pool'.length = pool.length + F.slots := by
  induction F generalizing dest pool vs pool' s s' with
  | nil =>
    obtain ⟨-, rfl, -⟩ := run_nil_eq h
    exact ⟨List.prefix_refl _, rfl⟩
  | leaf l rest ih =>
    obtain ⟨vs₁, -, h₁⟩ := run_leaf_eq rfl h
    exact ih h₁
  | back k rest ih =>
    obtain ⟨v, vs₁, -, -, h₁⟩ := run_back_eq h
    exact ih h₁
  | node sub rest ih₁ ih₂ =>
    obtain ⟨us, p, u, vs₁, h₁, -, h₂⟩ := run_node_eq rfl h
    obtain ⟨hp₁, hl₁⟩ := ih₁ h₁
    obtain ⟨hp₂, hl₂⟩ := ih₂ h₂
    refine ⟨(List.prefix_append _ _).trans (hp₁.trans hp₂), ?_⟩
    rw [hl₂, hl₁, List.length_append, List.length_singleton, slots]
    omega

/-- **The forest of a walk evaluates**, appending one value for each new slot. -/
theorem Walk.run_total (h : Walk g S as F S') (hp : pool.length = S.length) (dest : Option V) (s : σ) :
    ∃ vs P s', F.run I dest pool s = some (vs, pool ++ P, s') ∧ (pool ++ P).length = S'.length := by
  induction h generalizing dest pool s with
  | nil => exact ⟨[], [], s, by simp [Forest.run], by simpa using hp⟩
  | @leaf S a l as F S' _ _ ih =>
    obtain ⟨vs, P, s', h, hl⟩ := ih hp dest (I.pushInto dest (I.leaf l s).1 (I.leaf l s).2)
    exact ⟨_, P, s', by simp only [Forest.run, h]; rfl, hl⟩
  | @result S a i k as F S' _ hk _ ih =>
    have hlt : k < pool.length := hp ▸ (List.getElem?_eq_some_iff.1 hk).1
    obtain ⟨vs, P, s', h, hl⟩ := ih hp dest (I.pushInto dest pool[k] s)
    exact ⟨pool[k] :: vs, P, s', by simp [Forest.run, List.getElem?_eq_getElem hlt, h], hl⟩
  | @seen S a es k as F S' _ hk _ ih =>
    have hlt : k < pool.length := hp ▸ (List.getElem?_eq_some_iff.1 hk).1
    obtain ⟨vs, P, s', h, hl⟩ := ih hp dest (I.pushInto dest pool[k] s)
    exact ⟨pool[k] :: vs, P, s', by simp [Forest.run, List.getElem?_eq_getElem hlt, h], hl⟩
  | @node S a es F₁ S₁ as F₂ S' _ _ hw₁ _ ih₁ ih₂ =>
    obtain ⟨v, t, hv⟩ : ∃ v t, I.node F₁.length s = (v, t) := ⟨_, _, rfl⟩
    obtain ⟨vs₁, P₁, s₁, h₁, hl₁⟩ := ih₁ (show (pool ++ [v]).length = _ by simp [hp]) (some v) t
    obtain ⟨vs₂, P₂, s₂, h₂, hl₂⟩ := ih₂ hl₁ dest (I.pushInto dest v s₁)
    rw [List.append_assoc, List.append_assoc] at h₂
    refine ⟨v :: vs₂, [v] ++ P₁ ++ P₂, s₂, ?_, by simpa using hl₂⟩
    simp only [Forest.run, hv, h₁, h₂, Option.bind_eq_bind, Option.bind_some, Option.pure_def,
      List.append_assoc]

/-- The pool as the reference evaluation sees it. -/
structure Views (S : List Referent) (pool : List V) (st : EvalState σ V) : Prop where
  length : pool.length = S.length
  node : ∀ {k : ℕ} {a : ℕ}, S[k]? = some (.node a) → st.built a = pool[k]?
  result : ∀ {k i : ℕ}, S[k]? = some (.result i) → st.results[i]? = pool[k]?
  only : ∀ {a : ℕ} {v : V}, st.built a = some v → .node a ∈ S

variable {st st' : EvalState σ V}

theorem EvalState.start_views (s : σ) : Views [] [] (EvalState.start (V := V) s) :=
  ⟨rfl, by simp, by simp, fun hb => by cases hb⟩

/-- Views do not depend on the host. -/
theorem Views.host (h : Views S pool st) (t : σ) : Views S pool { st with host := t } :=
  ⟨h.length, h.node, h.result, h.only⟩

/-- A new node takes the next slot. -/
theorem Views.build (h : Views S pool st) {a : ℕ} (ha : .node a ∉ S) (v : V) (t : σ) :
    Views (S ++ [.node a]) (pool ++ [v])
      { st with host := t, built := Function.update st.built a (some v) } := by
  have hlt : ∀ {k : ℕ} {r : Referent}, S[k]? = some r → (pool ++ [v])[k]? = pool[k]? := fun hk =>
    List.getElem?_append_left (h.length ▸ (List.getElem?_eq_some_iff.1 hk).1)
  refine ⟨by simp [h.length], fun {k b} hk => ?_, fun {k i} hk => ?_, fun {b w} hb => ?_⟩
  · rcases getElem?_concat hk with hk | ⟨rfl, hr⟩
    · have hne : b ≠ a := fun hba => ha (hba ▸ List.mem_of_getElem? hk)
      rw [hlt hk, ← h.node hk]
      exact Function.update_of_ne hne _ _
    · cases hr
      simp [← h.length]
  · rcases getElem?_concat hk with hk | ⟨-, hr⟩
    · rw [hlt hk]; exact h.result hk
    · cases hr
  · by_cases hba : b = a
    · subst hba; simp
    · simp only [Function.update_of_ne hba] at hb
      exact List.mem_append_left _ (h.only hb)

/-- The result of a step takes the next slot. -/
theorem Views.result_append (h : Views S pool st) (hS : ∀ j, .result j ∈ S → j < st.results.length)
    (v : V) :
    Views (S ++ [.result st.results.length]) (pool ++ [v])
      { st with results := st.results ++ [v] } := by
  have hlt : ∀ {k : ℕ} {r : Referent}, S[k]? = some r → (pool ++ [v])[k]? = pool[k]? := fun hk =>
    List.getElem?_append_left (h.length ▸ (List.getElem?_eq_some_iff.1 hk).1)
  refine ⟨by simp [h.length], fun {k b} hk => ?_, fun {k j} hk => ?_, fun {b w} hb => ?_⟩
  · rcases getElem?_concat hk with hk | ⟨-, hr⟩
    · rw [hlt hk]; exact h.node hk
    · cases hr
  · rcases getElem?_concat hk with hk | ⟨rfl, hr⟩
    · rw [hlt hk, ← h.result hk]
      exact List.getElem?_append_left (hS j (List.mem_of_getElem? hk))
    · cases hr
      simp [← h.length]
  · exact List.mem_append_left _ (h.only hb)

/-! ## Steps of the reference evaluation -/

section Steps

variable {ev : ℕ → EvalState σ V → Option (V × EvalState σ V)} {fuel a : ℕ} {v : V}

theorem evalEach_cons {st₁ st₂ : EvalState σ V} (h₁ : ev a st = some (v, st₁))
    (h₂ : evalEach I ev dest as { st₁ with host := I.pushInto dest v st₁.host } = some (vs, st₂)) :
    evalEach I ev dest (a :: as) st = some (v :: vs, st₂) := by
  simp only [evalEach, h₁, h₂, Option.bind_eq_bind, Option.bind_some, Option.pure_def]

theorem eval_leaf {l : L} (hg : g a = some (.leaf l)) :
    eval I g (fuel + 1) a st = some ((I.leaf l st.host).1, { st with host := (I.leaf l st.host).2 }) := by
  simp only [eval, hg]

theorem eval_result {i : ℕ} (hg : g a = some (.result i)) (hi : st.results[i]? = some v) :
    eval I g (fuel + 1) a st = some (v, st) := by
  simp only [eval, hg, hi, Option.map_some]

theorem eval_built {es : List ℕ} (hg : g a = some (.node es)) (hb : st.built a = some v) :
    eval I g (fuel + 1) a st = some (v, st) := by
  simp only [eval, hg, hb]

theorem eval_node {es : List ℕ} {t : σ} {st₁ : EvalState σ V} (hg : g a = some (.node es))
    (hb : st.built a = none) (hn : I.node es.length st.host = (v, t))
    (he : evalEach I (eval I g fuel) (some v) es
      { st with host := t, built := Function.update st.built a (some v) } = some (vs, st₁)) :
    eval I g (fuel + 1) a st = some (v, st₁) := by
  simp only [eval, hg, hb, hn, he, Option.bind_eq_bind, Option.bind_some, Option.pure_def]

end Steps

/-- **The reference evaluation is the run of the walk's forest.** -/
theorem Walk.eval_eq (h : Walk g S as F S') (hv : Views S pool st) {fuel : ℕ} (hf : F.depth ≤ fuel)
    (hr : F.run I dest pool st.host = some (vs, pool', s')) :
    ∃ st', evalEach I (eval I g fuel) dest as st = some (vs, st') ∧ st'.host = s' ∧
      st'.results = st.results ∧ Views S' pool' st' := by
  induction h generalizing dest pool st vs pool' s' fuel with
  | nil =>
    obtain ⟨rfl, rfl, rfl⟩ := Forest.run_nil_eq hr
    exact ⟨st, rfl, rfl, rfl, hv⟩
  | @leaf S a l as F S' hg _ ih =>
    obtain ⟨fuel, rfl⟩ := Forest.exists_fuel (by simp) hf
    obtain ⟨vs₁, rfl, h₁⟩ := Forest.run_leaf_eq rfl hr
    obtain ⟨st', h₂, h₃⟩ := ih (hv.host _) (le_trans (le_max_right _ _) hf) h₁
    exact ⟨st', evalEach_cons (eval_leaf hg) h₂, h₃⟩
  | @result S a i k as F S' hg hk _ ih =>
    obtain ⟨fuel, rfl⟩ := Forest.exists_fuel (by simp) hf
    obtain ⟨v, vs₁, hvk, rfl, h₁⟩ := Forest.run_back_eq hr
    obtain ⟨st', h₂, h₃⟩ := ih (hv.host _) (le_trans (le_max_right _ _) hf) h₁
    exact ⟨st', evalEach_cons (eval_result hg ((hv.result hk).trans hvk)) h₂, h₃⟩
  | @seen S a es k as F S' hg hk _ ih =>
    obtain ⟨fuel, rfl⟩ := Forest.exists_fuel (by simp) hf
    obtain ⟨v, vs₁, hvk, rfl, h₁⟩ := Forest.run_back_eq hr
    obtain ⟨st', h₂, h₃⟩ := ih (hv.host _) (le_trans (le_max_right _ _) hf) h₁
    exact ⟨st', evalEach_cons (eval_built hg ((hv.node hk).trans hvk)) h₂, h₃⟩
  | @node S a es F₁ S₁ as F₂ S' hg hn hw₁ hw₂ ih₁ ih₂ =>
    obtain ⟨fuel, rfl⟩ := Forest.exists_fuel (by simp) hf
    have hf₁ : F₁.depth ≤ fuel := Nat.le_of_succ_le_succ (le_trans (le_max_left _ _) hf)
    obtain ⟨v, t, hvt⟩ : ∃ v t, I.node es.length st.host = (v, t) := ⟨_, _, rfl⟩
    obtain ⟨us, p, u, vs₁, h₁, rfl, h₂⟩ := Forest.run_node_eq (hw₁.length_eq ▸ hvt) hr
    obtain ⟨st₁, h₃, rfl, hr₁, hv₁⟩ := ih₁ (hv.build hn v t) hf₁ h₁
    obtain ⟨st₂, h₄, hh, hr₂, hv₂⟩ := ih₂ (hv₁.host _) (le_trans (le_max_right _ _) hf) h₂
    have hb : st.built a = none := by
      cases hb : st.built a with
      | none => rfl
      | some w => exact absurd (hv.only hb) hn
    exact ⟨st₂, evalEach_cons (eval_node hg hb hvt h₃) h₄, hh, hr₂.trans hr₁, hv₂⟩

end ObjectGraph
