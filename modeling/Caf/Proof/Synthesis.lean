import Caf.Proof.RoundTrip
import Caf.Spec.Synthesis

/-!
# Synthesis rebuilds the values

A builder caches the variable of every value that it has written. The cache of the arrays is the
slot numbering of the walk, so that a script does to the objects of a host what running the
forest of the walk does.

* `synthesise_walk`: a list of values.
* `synthesise_steps`: the calls.
* `synthesis_script`: a test case has one script, for all builders.
* `rebuildsValues`: on every machine, the script's calls find what the calls of the test case find.
-/

namespace Caf

open ObjectGraph

/-! ## Names -/

/-- Read a number back. -/
def undecimal (digits : StdString) : ℕ := digits.foldl (fun n d => 10 * n + (d.toNat - 48)) 0

theorem undecimal_decimal (n : ℕ) : undecimal (decimal n) = n := by
  have hdigit : ∀ d < 10, (UInt8.ofNat (Nat.digitChar d).toNat).toNat - 48 = d := by decide
  unfold undecimal decimal
  induction n using Nat.strongRecOn with
  | ind n ih =>
    by_cases hn : n < 10
    · rw [Nat.toDigits_of_lt_base hn]
      simpa using hdigit n hn
    · rw [Nat.toDigits_of_base_le (by decide) (by omega), List.map_append, List.foldl_append, ih (n / 10) (by omega)]
      simp only [List.map_cons, List.map_nil, List.foldl_cons, List.foldl_nil, hdigit (n % 10) (by omega)]
      omega

theorem varName_injective {m n : ℕ} (h : varName m = varName n) : m = n := by
  unfold varName at h
  rw [← undecimal_decimal m, ← undecimal_decimal n, (List.cons.inj h).2]

/-! ## Writing -/

section Writing

variable {W : Type} (w : Writer W) {a b script : List Statement} {out : W}

theorem writeAll_append : w.writeAll (a ++ b) out = (w.writeAll a out).bind (w.writeAll b) := by
  induction a generalizing out with
  | nil => rfl
  | cons st a ih =>
    simp only [List.cons_append, Writer.writeAll, bind, Except.bind]
    cases w.write st out with
    | error e => rfl
    | ok out => exact ih

/-- A builder with another output. -/
def SynthesisBuilder.withOutput (c : SynthesisBuilder Unit) (out : W) : SynthesisBuilder W :=
  ⟨c.vars, out, c.synthesisedVariables, c.funcRetVariables, c.varId⟩

/-- The builder after the value at `a` got the next variable. -/
def SynthesisBuilder.bindNext (b : SynthesisBuilder W) (a : Addr) : SynthesisBuilder W :=
  (b.nextVariableName.2.createVariable (varName b.varId)).setLastSynthesisedValue a

theorem SynthesisBuilder.bindNext_withOutput (c : SynthesisBuilder Unit) (a : Addr) :
    (c.withOutput out).bindNext a = (c.bindNext a).withOutput out := rfl

@[simp] theorem SynthesisBuilder.varId_withOutput (c : SynthesisBuilder Unit) : (c.withOutput out).varId = c.varId :=
  rfl

theorem SynthesisBuilder.emit_withOutput (c : SynthesisBuilder Unit) (st : Statement) :
    (c.withOutput out).emit w st = (w.write st out).map c.withOutput := by
  simp only [emit, withOutput, bind, Except.bind]
  cases w.write st out <;> rfl

variable {h : Heap} {fuel : ℕ} {value : Addr} {builder : SynthesisBuilder W}

theorem SynthesisBuilder.synthesisConstant_literal {l : Literal} (hc : builder.synthesisedVariables value = none)
    (ha : h[value]? = some (.literal l)) : synthesisConstant w h (fuel + 1) value builder =
      ((builder.bindNext value).emit w (.variableDef (varName builder.varId) l)).map (varName builder.varId, ·) := by
  simp only [synthesisConstant, hc, ha]
  rfl

theorem SynthesisBuilder.synthesisConstant_array {es : List Addr} (hc : builder.synthesisedVariables value = none)
    (ha : h[value]? = some (.array es)) : synthesisConstant w h (fuel + 1) value builder =
      ((builder.bindNext value).emit w (.emptyArrayVariableDef (varName builder.varId))).bind fun b =>
        (eachVariable (synthesisConstant w h fuel)
        (fun y b => b.emit w (.arrayPush (varName builder.varId) y)) es b).map
          fun r => (varName builder.varId, r.2) := by
  simp only [synthesisConstant, hc, ha]
  rfl

end Writing

/-- Whatever the writer, the action writes `added`, takes the builder to `c'` and results in `x`. -/
def Emits {α : Type} (act : ∀ W : Type, Writer W → SynthesisBuilder W → Except Error (α × SynthesisBuilder W))
    (c : SynthesisBuilder Unit) (added : List Statement) (x : α) (c' : SynthesisBuilder Unit) : Prop :=
  ∀ (W : Type) (w : Writer W) (out : W), act W w (c.withOutput out) = (w.writeAll added out).map fun out =>
    (x, c'.withOutput out)

/-! ## Scripts -/

section Scripts

variable {σ V : Type} {H : Host σ V} {a b script : List Statement} {e e' e'' : Execution σ V}
  {env env' : StdString → Option V}

theorem Host.run_append (h₁ : H.run a e = some e') (h₂ : H.run b e' = some e'') : H.run (a ++ b) e = some e'' := by
  induction a generalizing e with
  | nil =>
    cases h₁
    exact h₂
  | cons st a ih =>
    simp only [Host.run, Option.bind_eq_bind, Option.bind_eq_some_iff] at h₁
    obtain ⟨e₁, hst, hrun⟩ := h₁
    simp only [List.cons_append, Host.run, hst, Option.bind_eq_bind, Option.bind_some]
    exact ih hrun

/-- Variables keep their values. -/
def KeepsVars (env env' : StdString → Option V) : Prop := ∀ x v, env x = some v → env' x = some v

theorem KeepsVars.update {x : StdString} {v : V} (hx : env x = none) :
    KeepsVars env (Function.update env x (some v)) := by
  intro y u hy
  have hne : y ≠ x := by
    rintro rfl
    rw [hx] at hy
    cases hy
  rwa [Function.update_of_ne hne]

theorem Host.valuesOf_keeps (hg : KeepsVars env env') {xs : List StdString} {vs : List V}
    (h : Host.valuesOf env xs = some vs) : Host.valuesOf env' xs = some vs := by
  induction xs generalizing vs with
  | nil => exact h
  | cons x xs ih =>
    simp only [Host.valuesOf, Option.bind_eq_bind, Option.bind_eq_some_iff] at h ⊢
    obtain ⟨v, hv, us, hus, he⟩ := h
    exact ⟨v, hg x v hv, us, ih hus, he⟩

theorem Host.mem_of_valuesOf {xs : List StdString} {vs : List V} (h : Host.valuesOf env xs = some vs) :
    ∀ x ∈ xs, (env x).isSome = true := by
  induction xs generalizing vs with
  | nil =>
    intro x hx
    cases hx
  | cons x xs ih =>
    simp only [Host.valuesOf, Option.bind_eq_bind, Option.bind_eq_some_iff] at h
    obtain ⟨v, hv, us, hus, -⟩ := h
    intro y hy
    rcases List.mem_cons.1 hy with rfl | hy
    · rw [hv]; rfl
    · exact ih hus y hy

theorem Host.declare_new {x : StdString} {v : V} (hx : e.env x = none) :
    Host.declare x v e = some { e with env := Function.update e.env x (some v) } := by
  unfold Host.declare
  rw [hx]
  rfl

theorem Host.declare_eq {x : StdString} {v : V} (h : Host.declare x v e = some e') :
    e.env x = none ∧ e' = { e with env := Function.update e.env x (some v) } := by
  unfold Host.declare at h
  split at h
  · cases h
  · rename_i hx
    exact ⟨by simpa using hx, (Option.some.inj h).symm⟩

/-- The variables `xs` are the ones that have a value. -/
def Declared (xs : List StdString) (env : StdString → Option V) : Prop := ∀ x, x ∈ xs ↔ (env x).isSome = true

theorem Declared.declare {xs : List StdString} {x : StdString} {v : V} {s : σ}
    (es : List (Event (StdString × Bool) σ V)) (hd : Declared xs e.env)
    (h : Host.declare x v { e with host := s, events := es } = some e') :
    x ∉ xs ∧ Declared (xs ++ [x]) e'.env := by
  obtain ⟨hx, rfl⟩ := Host.declare_eq h
  have hx : e.env x = none := hx
  refine ⟨fun hm => by simp [(hd x).1 hm |> Option.isSome_iff_ne_none.1] at hx, fun y => ?_⟩
  by_cases hy : y = x
  · subst hy; simp
  · simp [hy, hd y]

/-- A statement that runs uses declared variables and declares a new one. -/
theorem Host.step_scoped {xs : List StdString} {st : Statement} (hd : Declared xs e.env) (h : H.step st e = some e') :
    (∀ x ∈ st.uses, x ∈ xs) ∧ (∀ x, st.declared = some x → x ∉ xs) ∧
      Declared (xs ++ st.declared.toList) e'.env := by
  cases st with
  | variableDef x l =>
    obtain ⟨hx, hd'⟩ := hd.declare e.events h
    refine ⟨fun y hy => (by cases hy), ?_, hd'⟩
    rintro y ⟨⟩
    exact hx
  | emptyArrayVariableDef x =>
    obtain ⟨hx, hd'⟩ := hd.declare e.events h
    refine ⟨fun y hy => (by cases hy), ?_, hd'⟩
    rintro y ⟨⟩
    exact hx
  | arrayPush x y =>
    simp only [Host.step, Option.bind_eq_bind, Option.bind_eq_some_iff, Option.pure_def, Option.some.injEq] at h
    obtain ⟨u, hu, v, hv, rfl⟩ := h
    refine ⟨fun z hz => ?_, fun z hz => (by cases hz), by simpa [Statement.declared] using hd⟩
    rcases List.mem_cons.1 hz with rfl | hz
    · exact (hd _).2 (by rw [hu]; rfl)
    · rw [List.mem_singleton.1 hz]
      exact (hd _).2 (by rw [hv]; rfl)
  | functionCall ret f ctor recv args =>
    simp only [Host.step, Option.bind_eq_bind, Option.bind_eq_some_iff] at h
    obtain ⟨hs, hrecv, vs, hvs, h⟩ := h
    obtain ⟨hx, hd'⟩ := hd.declare _ h
    refine ⟨fun z hz => ?_, ?_, hd'⟩
    · rcases List.mem_append.1 hz with hz | hz
      · obtain ⟨hz, hne⟩ := List.mem_filter.1 hz
        rw [List.mem_singleton.1 hz] at hne ⊢
        rw [Host.receiver, if_neg (by simpa using hne)] at hrecv
        obtain ⟨v, hv, -⟩ := Option.map_eq_some_iff.1 hrecv
        exact (hd recv).2 (by rw [hv]; rfl)
      · exact (hd z).2 (Host.mem_of_valuesOf hvs z hz)
    · rintro y ⟨⟩
      exact hx

/-- **A script that runs is well scoped.** -/
theorem Host.run_scoped {xs : List StdString} (hd : Declared xs e.env) (h : H.run script e = some e') :
    Scoped xs script := by
  induction script generalizing xs e with
  | nil => trivial
  | cons st script ih =>
    simp only [Host.run, Option.bind_eq_bind, Option.bind_eq_some_iff] at h
    obtain ⟨e₁, hst, hrun⟩ := h
    obtain ⟨huses, hdecl, hd'⟩ := Host.step_scoped hd hst
    exact ⟨huses, hdecl, ih hd' hrun⟩

/-- The literals that a script defines variables with. -/
def literalsOf (script : List Statement) : List Literal := script.filterMap fun
  | .variableDef _ l => some l
  | _ => none

theorem forall_literalsOf_append {P : Literal → Prop} :
    (∀ l ∈ literalsOf (a ++ b), P l) ↔ (∀ l ∈ literalsOf a, P l) ∧ ∀ l ∈ literalsOf b, P l := by
  simp only [literalsOf, List.filterMap_append, List.mem_append, or_imp, forall_and]

end Scripts

/-! ## The simulation -/

/-- A point of the synthesis: the statements so far, the builder, and what the statements have done. -/
structure Point (σ V : Type) where
  script : List Statement
  builder : SynthesisBuilder Unit
  exec : Execution σ V

/-- Variable `i` of the builder holds `v`. -/
def Point.Reads {σ V : Type} (p : Point σ V) (i : ℕ) (x : StdString) (v : V) : Prop :=
  p.builder.vars[i]? = some x ∧ x.isEmpty = false ∧ p.exec.env x = some v

/-- **The invariant.** The arrays with slots are cached, and their variables hold the values of the
slots, as do those of the return values. What else is cached is a known literal. -/
structure Holds {σ V : Type} (H : Host σ V) (h : Heap) (S : List Referent) (pool : List V) (p : Point σ V) :
    Prop where
  length : pool.length = S.length
  nodes : NodesIn h.graph S
  fresh : ∀ n, p.builder.varId ≤ n → p.exec.env (varName n) = none
  literal : ∀ {a i : ℕ}, p.builder.synthesisedVariables a = some i → .node a ∉ S →
    ∃ l x v, h[a]? = some (.literal l) ∧ p.Reads i x v ∧ H.Known l v p.exec.host ∧ l ∈ literalsOf p.script
  node : ∀ {k a : ℕ}, S[k]? = some (.node a) →
    ∃ i x v, p.builder.synthesisedVariables a = some i ∧ pool[k]? = some v ∧ p.Reads i x v
  result : ∀ {k j : ℕ}, S[k]? = some (.result j) →
    ∃ i x v, p.builder.funcRetVariables[j]? = some i ∧ pool[k]? = some v ∧ p.Reads i x v

/-- Whatever the writer, the action takes `p` to `p'` and results in `x`. -/
structure Advances {σ V α : Type} (H : Host σ V)
    (act : ∀ W : Type, Writer W → SynthesisBuilder W → Except Error (α × SynthesisBuilder W))
    (p : Point σ V) (x : α) (p' : Point σ V) : Prop where
  steps : ∃ added, p'.script = p.script ++ added ∧ Emits act p.builder added x p'.builder ∧
    H.run added p.exec = some p'.exec
  grows : KeepsVars p.exec.env p'.exec.env

section Simulation

variable {σ V : Type} {H : Host σ V} {h : Heap} {S S' : List Referent} {pool pool' : List V}
  {p p' : Point σ V} {a i fuel : ℕ} {x : StdString} {v : V} {s' : σ}

/-- The value at `a` is in variable `x` already. -/
theorem Advances.cached (hi : p.builder.synthesisedVariables a = some i) (hr : p.Reads i x v) :
    Advances H (fun _ w => SynthesisBuilder.synthesisConstant w h (fuel + 1) a) p x p := by
  refine ⟨⟨[], by simp, fun W w out => ?_, rfl⟩, fun _ _ hy => hy⟩
  have hvar : (p.builder.withOutput out).variableAt i = .ok x := by
    simp [SynthesisBuilder.variableAt, SynthesisBuilder.withOutput, hr.1]
  have hcached : (p.builder.withOutput out).synthesisedVariables a = some i := hi
  simp only [SynthesisBuilder.synthesisConstant, hcached, hvar]
  rfl

/-- The point where the value at `a` gets the next variable, ... -/
def Point.bind (p : Point σ V) (a : Addr) (st : Statement) (v : V) (s : σ) : Point σ V where
  script := p.script ++ [st]
  builder := p.builder.bindNext a
  exec := { p.exec with env := Function.update p.exec.env (varName p.builder.varId) (some v), host := s }

/-- The point where an array was pushed onto. -/
def Point.pushed (p : Point σ V) (st : Statement) (s : σ) : Point σ V where
  script := p.script ++ [st]
  builder := p.builder
  exec := { p.exec with host := s }

theorem Holds.next (hp : Holds H h S pool p) : p.exec.env (varName p.builder.varId) = none :=
  hp.fresh _ (Nat.le_refl _)

/-- Other variables are as before, ... -/
theorem Point.Reads.bind (hp : Holds H h S pool p) (hr : p.Reads i x v) (b : Addr) (st : Statement) (u : V) (s : σ) :
    (p.bind b st u s).Reads i x v := by
  obtain ⟨hi, hne, hx⟩ := hr
  exact ⟨getElem?_grows (List.prefix_append _ _) hi, hne, KeepsVars.update hp.next _ _ hx⟩

/-- ... and the new one holds the new value. -/
theorem Point.reads_bind (p : Point σ V) (b : Addr) (st : Statement) (u : V) (s : σ) :
    (p.bind b st u s).Reads p.builder.vars.length (varName p.builder.varId) u := by
  refine ⟨?_, rfl, Function.update_self _ _ _⟩
  simp [bind, SynthesisBuilder.bindNext, SynthesisBuilder.nextVariableName, SynthesisBuilder.createVariable,
    SynthesisBuilder.setLastSynthesisedValue]

theorem Point.bind_synthesised (p : Point σ V) (b : Addr) (st : Statement) (u : V) (s : σ) :
    (p.bind b st u s).builder.synthesisedVariables =
      Function.update p.builder.synthesisedVariables b (some p.builder.vars.length) := by
  simp [bind, SynthesisBuilder.bindNext, SynthesisBuilder.nextVariableName, SynthesisBuilder.createVariable,
    SynthesisBuilder.setLastSynthesisedValue]

theorem Point.bind_fresh (hp : Holds H h S pool p) (b : Addr) (st : Statement) (u : V) (s : σ) (n : ℕ)
    (hn : (p.bind b st u s).builder.varId ≤ n) : (p.bind b st u s).exec.env (varName n) = none := by
  have hn : p.builder.varId + 1 ≤ n := hn
  have hne : varName n ≠ varName p.builder.varId := fun he => by
    have := varName_injective he
    omega
  exact (Function.update_of_ne hne _ _).trans (hp.fresh n (by omega))

theorem mem_literalsOf_append {l : Literal} {script added : List Statement} (hl : l ∈ literalsOf script) :
    l ∈ literalsOf (script ++ added) := by
  unfold literalsOf
  rw [List.filterMap_append]
  exact List.mem_append_left _ hl

/-- A literal that was not cached gets a variable. -/
theorem Holds.bind_literal (hp : Holds H h S pool p) {l : Literal} (ha : h[a]? = some (.literal l))
    {s : σ} (hl : H.literal l p.exec.host = (v, s)) :
    Holds H h S pool (p.bind a (.variableDef (varName p.builder.varId) l) v s) := by
  have hknown := H.known_literal l p.exec.host
  rw [hl] at hknown
  have haS : .node a ∉ S := fun hm => by
    obtain ⟨es, hes⟩ := hp.nodes a hm
    rw [Heap.graph_array, ha] at hes
    cases hes
  refine ⟨hp.length, hp.nodes, Point.bind_fresh hp _ _ _ _, fun {b i} hb hbS => ?_, fun {k b} hk => ?_,
    fun {k j} hk => ?_⟩
  · rw [Point.bind_synthesised] at hb
    by_cases hba : b = a
    · subst hba
      rw [Function.update_self, Option.some.injEq] at hb
      subst hb
      exact ⟨l, _, v, ha, p.reads_bind _ _ _ _, hknown, by simp [Point.bind, literalsOf]⟩
    · rw [Function.update_of_ne hba] at hb
      obtain ⟨l', x, u, hlit, hr, hk, hm⟩ := hp.literal hb hbS
      have hkeep := H.keep_literal l hk
      rw [hl] at hkeep
      exact ⟨l', x, u, hlit, hr.bind hp _ _ _ _, hkeep, mem_literalsOf_append hm⟩
  · obtain ⟨i, x, u, hi, hu, hr⟩ := hp.node hk
    have hba : b ≠ a := fun hba => haS (hba ▸ List.mem_of_getElem? hk)
    exact ⟨i, x, u, by rw [Point.bind_synthesised, Function.update_of_ne hba, hi], hu, hr.bind hp _ _ _ _⟩
  · obtain ⟨i, x, u, hi, hu, hr⟩ := hp.result hk
    exact ⟨i, x, u, hi, hu, hr.bind hp _ _ _ _⟩

/-- An array that is met for the first time gets a variable and a slot. -/
theorem Holds.bind_array (hp : Holds H h S pool p) {es : List Addr} (ha : h[a]? = some (.array es))
    (haS : .node a ∉ S) {s : σ} (hn : H.newArray p.exec.host = (v, s)) :
    Holds H h (S ++ [.node a]) (pool ++ [v]) (p.bind a (.emptyArrayVariableDef (varName p.builder.varId)) v s) := by
  have hlt : ∀ {k : ℕ} {r : Referent}, S[k]? = some r → (pool ++ [v])[k]? = pool[k]? := fun hk =>
    List.getElem?_append_left (hp.length ▸ (List.getElem?_eq_some_iff.1 hk).1)
  refine ⟨by simp [hp.length], fun b hb => ?_, Point.bind_fresh hp _ _ _ _, fun {b i} hb hbS => ?_,
    fun {k b} hk => ?_, fun {k j} hk => ?_⟩
  · rcases List.mem_append.1 hb with hb | hb
    · exact hp.nodes b hb
    · cases List.mem_singleton.1 hb
      exact ⟨es, Heap.graph_array.2 ha⟩
  · have hba : b ≠ a := fun hba => hbS (by simp [hba])
    rw [Point.bind_synthesised, Function.update_of_ne hba] at hb
    obtain ⟨l, x, u, hlit, hr, hk, hm⟩ := hp.literal hb fun hbS' => hbS (List.mem_append_left _ hbS')
    have hkeep := H.keep_newArray hk
    rw [hn] at hkeep
    exact ⟨l, x, u, hlit, hr.bind hp _ _ _ _, hkeep, mem_literalsOf_append hm⟩
  · rcases getElem?_concat hk with hk | ⟨rfl, hr⟩
    · obtain ⟨i, x, u, hi, hu, hr⟩ := hp.node hk
      have hba : b ≠ a := fun hba => haS (hba ▸ List.mem_of_getElem? hk)
      exact ⟨i, x, u, by rw [Point.bind_synthesised, Function.update_of_ne hba, hi], (hlt hk).trans hu,
        hr.bind hp _ _ _ _⟩
    · cases hr
      exact ⟨_, _, v, by rw [Point.bind_synthesised, Function.update_self], by simp [← hp.length],
        p.reads_bind _ _ _ _⟩
  · rcases getElem?_concat hk with hk | ⟨-, hr⟩
    · obtain ⟨i, x, u, hi, hu, hr⟩ := hp.result hk
      exact ⟨i, x, u, hi, (hlt hk).trans hu, hr.bind hp _ _ _ _⟩
    · cases hr

/-- Pushing keeps the variables. -/
theorem Holds.pushed (hp : Holds H h S pool p) (st : Statement) (d u : V) :
    Holds H h S pool (p.pushed st (H.push d u p.exec.host)) := by
  refine ⟨hp.length, hp.nodes, hp.fresh, fun hb hbS => ?_, hp.node, hp.result⟩
  obtain ⟨l, x, w, hlit, hr, hk, hm⟩ := hp.literal hb hbS
  exact ⟨l, x, w, hlit, hr, H.keep_push d u hk, mem_literalsOf_append hm⟩

/-- Push onto the array that is being written, if there is one. -/
def pushTo {W : Type} (w : Writer W) :
    Option StdString → StdString → SynthesisBuilder W → Except Error (SynthesisBuilder W)
  | none, _, b => .ok b
  | some x, y, b => b.emit w (.arrayPush x y)

/-- The point after that. -/
def Point.push (p : Point σ V) (H : Host σ V) : Option (StdString × V) → StdString → V → Point σ V
  | none, _, _ => p
  | some (x, d), y, v => p.pushed (.arrayPush x y) (H.push d v p.exec.host)

variable {dest : Option (StdString × V)} {y : StdString} {ys : List StdString} {as : List Addr} {vs : List V}

theorem Holds.push (hp : Holds H h S pool p) : Holds H h S pool (p.push H dest y v) := by
  rcases dest with - | ⟨x, d⟩
  · exact hp
  · exact hp.pushed _ d v

theorem Point.push_host : (p.push H dest y v).exec.host = H.interp.pushInto (dest.map (·.2)) v p.exec.host := by
  rcases dest with - | ⟨x, d⟩ <;> rfl

theorem Point.push_events : (p.push H dest y v).exec.events = p.exec.events := by
  rcases dest with - | ⟨x, d⟩ <;> rfl

theorem Point.push_env : (p.push H dest y v).exec.env = p.exec.env := by
  rcases dest with - | ⟨x, d⟩ <;> rfl

theorem Point.push_rets : (p.push H dest y v).builder.funcRetVariables = p.builder.funcRetVariables := by
  rcases dest with - | ⟨x, d⟩ <;> rfl

theorem Point.push_literals : literalsOf (p.push H dest y v).script = literalsOf p.script := by
  rcases dest with - | ⟨x, d⟩
  · rfl
  · simp [push, pushed, literalsOf]

/-- The variables of the destination are there. -/
def HasDest (dest : Option (StdString × V)) (env : StdString → Option V) : Prop :=
  ∀ x d, dest = some (x, d) → env x = some d

/-- The loop over values: one value, the push, and the rest. -/
theorem Advances.cons {p₁ p₂ : Point σ V}
    (h₁ : Advances H (fun _ w => SynthesisBuilder.synthesisConstant w h fuel a) p y p₁)
    (hy : p₁.exec.env y = some v) (hd : HasDest dest p₁.exec.env)
    (h₂ : Advances H (fun _ w => SynthesisBuilder.eachVariable (SynthesisBuilder.synthesisConstant w h fuel)
      (pushTo w (dest.map (·.1))) as) (p₁.push H dest y v) ys p₂) :
    Advances H (fun _ w => SynthesisBuilder.eachVariable (SynthesisBuilder.synthesisConstant w h fuel)
      (pushTo w (dest.map (·.1))) (a :: as)) p (y :: ys) p₂ := by
  obtain ⟨⟨a₁, hs₁, he₁, hr₁⟩, hg₁⟩ := h₁
  obtain ⟨⟨a₂, hs₂, he₂, hr₂⟩, hg₂⟩ := h₂
  rw [Point.push_env] at hg₂
  refine ⟨?_, fun z u hz => hg₂ z u (hg₁ z u hz)⟩
  rcases dest with - | ⟨x, d⟩
  · refine ⟨a₁ ++ a₂, by rw [hs₂]; simp [Point.push, hs₁], fun W w out => ?_, H.run_append hr₁ hr₂⟩
    simp only [SynthesisBuilder.eachVariable, he₁ W w out, writeAll_append, bind, Except.bind]
    cases w.writeAll a₁ out with
    | error e => rfl
    | ok out =>
      have he := he₂ W w out
      simp only [Point.push, Option.map_none] at he
      simp only [Except.map, pushTo, Option.map_none, he]
      cases w.writeAll a₂ out <;> rfl
  · have hpush : H.run [.arrayPush x y] p₁.exec = some (p₁.push H (some (x, d)) y v).exec := by
      simp only [Host.run, Host.step, hd x d rfl, hy]
      rfl
    refine ⟨a₁ ++ ([.arrayPush x y] ++ a₂), by rw [hs₂]; simp [Point.push, Point.pushed, hs₁], fun W w out => ?_,
      H.run_append hr₁ (H.run_append hpush hr₂)⟩
    simp only [SynthesisBuilder.eachVariable, he₁ W w out, writeAll_append, bind, Except.bind]
    cases w.writeAll a₁ out with
    | error e => rfl
    | ok out =>
      simp only [Except.map, pushTo, Option.map_some, SynthesisBuilder.emit_withOutput, Writer.writeAll, bind,
        Except.bind]
      cases w.write (.arrayPush x y) out with
      | error e => rfl
      | ok out =>
        have he := he₂ W w out
        simp only [Point.push, Point.pushed, Option.map_some] at he
        simp only [he]
        cases w.writeAll a₂ out <;> rfl

/-- The script has grown by the literals that satisfy what `Q` asks for. -/
def Defines (p p' : Point σ V) (Q : (Literal → Prop) → Prop) : Prop :=
  ∀ P : Literal → Prop, (∀ l ∈ literalsOf p'.script, P l) ↔ (∀ l ∈ literalsOf p.script, P l) ∧ Q P

/-- The value at `a` is now in variable `y`. -/
structure SynthesisedValue (H : Host σ V) (h : Heap) (fuel : ℕ) (a : Addr) (S : List Referent) (pool : List V)
    (Q : (Literal → Prop) → Prop) (p : Point σ V) (y : StdString) (v : V) (p' : Point σ V) : Prop where
  advances : Advances H (fun _ w => SynthesisBuilder.synthesisConstant w h fuel a) p y p'
  holds : Holds H h S pool p'
  value : p'.exec.env y = some v
  named : y.isEmpty = false
  events : p'.exec.events = p.exec.events
  rets : p'.builder.funcRetVariables = p.builder.funcRetVariables
  literals : Defines p p' Q

/-- The values at `as` are now in the variables `ys`, and have been pushed onto `dest`. -/
structure Synthesised (H : Host σ V) (h : Heap) (fuel : ℕ) (dest : Option (StdString × V)) (as : List Addr)
    (S : List Referent) (pool : List V) (Q : (Literal → Prop) → Prop) (p : Point σ V) (ys : List StdString)
    (vs : List V) (p' : Point σ V) : Prop where
  advances : Advances H (fun _ w => SynthesisBuilder.eachVariable (SynthesisBuilder.synthesisConstant w h fuel)
    (pushTo w (dest.map (·.1))) as) p ys p'
  holds : Holds H h S pool p'
  values : Host.valuesOf p'.exec.env ys = some vs
  named : ∀ y ∈ ys, y.isEmpty = false
  events : p'.exec.events = p.exec.events
  rets : p'.builder.funcRetVariables = p.builder.funcRetVariables
  literals : Defines p p' Q

theorem Synthesised.cons {p₁ p₂ : Point σ V} {S₁ S₂ : List Referent} {pool₁ pool₂ : List V}
    {Q₁ Q₂ : (Literal → Prop) → Prop} (h₁ : SynthesisedValue H h fuel a S₁ pool₁ Q₁ p y v p₁)
    (hd : HasDest dest p.exec.env)
    (h₂ : Synthesised H h fuel dest as S₂ pool₂ Q₂ (p₁.push H dest y v) ys vs p₂) :
    Synthesised H h fuel dest (a :: as) S₂ pool₂ (fun P => Q₁ P ∧ Q₂ P) p (y :: ys) (v :: vs) p₂ := by
  have hg := h₂.advances.grows
  rw [Point.push_env] at hg
  refine ⟨h₁.advances.cons h₁.value (fun x d he => h₁.advances.grows x d (hd x d he)) h₂.advances, h₂.holds, ?_, ?_,
    ?_, ?_, fun P => ?_⟩
  · simp only [Host.valuesOf, hg y v h₁.value, h₂.values]
    rfl
  · intro z hz
    rcases List.mem_cons.1 hz with rfl | hz
    · exact h₁.named
    · exact h₂.named z hz
  · rw [h₂.events, Point.push_events, h₁.events]
  · rw [h₂.rets, Point.push_rets, h₁.rets]
  · rw [h₂.literals P, Point.push_literals, h₁.literals P, and_assoc]

/-- A variable that is there already. -/
theorem SynthesisedValue.here (hp : Holds H h S pool p)
    (hadv : Advances H (fun _ w => SynthesisBuilder.synthesisConstant w h fuel a) p x p) (hr : p.Reads i x v)
    {Q : (Literal → Prop) → Prop} (hQ : ∀ P : Literal → Prop, (∀ l ∈ literalsOf p.script, P l) → Q P) :
    SynthesisedValue H h fuel a S pool Q p x v p :=
  ⟨hadv, hp, hr.2.2, hr.2.1, rfl, rfl, fun P => ⟨fun hP => ⟨hP, hQ P hP⟩, And.left⟩⟩

/-- A literal. -/
theorem synthesise_literal (fuel : ℕ) (hp : Holds H h S pool p) {l : Literal} (ha : h[a]? = some (.literal l)) {s : σ}
    (hl : H.literal l p.exec.host = (v, s)) :
    ∃ y p', SynthesisedValue H h (fuel + 1) a S pool (fun P => P l) p y v p' ∧ p'.exec.host = s := by
  cases hc : p.builder.synthesisedVariables a with
  | some i =>
    have haS : .node a ∉ S := fun hm => by
      obtain ⟨es, hes⟩ := hp.nodes a hm
      rw [Heap.graph_array, ha] at hes
      cases hes
    obtain ⟨l', x, u, hlit, hr, hk, hm⟩ := hp.literal hc haS
    rw [ha] at hlit
    cases hlit
    -- evaluating it again has the value of the variable, and no effect
    obtain ⟨rfl, rfl⟩ := Prod.mk.inj (hl.symm.trans (H.literal_known hk))
    exact ⟨x, p, .here hp (.cached hc hr) hr fun P hP => hP _ hm, rfl⟩
  | none =>
    refine ⟨_, _, ⟨⟨⟨[_], rfl, fun W w out => ?_, ?_⟩, KeepsVars.update hp.next⟩, hp.bind_literal ha hl,
      (p.reads_bind _ _ _ _).2.2, rfl, rfl, rfl, fun P => ?_⟩, rfl⟩
    · have hc' : (p.builder.withOutput out).synthesisedVariables a = none := hc
      refine (SynthesisBuilder.synthesisConstant_literal w hc' ha).trans ?_
      rw [SynthesisBuilder.bindNext_withOutput, SynthesisBuilder.emit_withOutput]
      simp only [Writer.writeAll, SynthesisBuilder.withOutput, bind, Except.bind]
      cases w.write (.variableDef (varName p.builder.varId) l) out <;> rfl
    · simp only [Host.run, Host.step, hl]
      rw [Host.declare_new (e := { p.exec with host := s }) hp.next]
      rfl
    · rw [Point.bind, forall_literalsOf_append]
      simp [literalsOf]

/-- A reference to the result of an earlier call. -/
theorem synthesise_result (fuel : ℕ) (hp : Holds H h S pool p) {j k : ℕ} (ha : h[a]? = some (.placeholder j))
    (hk : S[k]? = some (.result j)) (hv : pool[k]? = some v) :
    ∃ y, SynthesisedValue H h (fuel + 1) a S pool (fun _ => True) p y v p := by
  have hc : p.builder.synthesisedVariables a = none := by
    cases hc : p.builder.synthesisedVariables a with
    | none => rfl
    | some i =>
      by_cases haS : .node a ∈ S
      · obtain ⟨es, hes⟩ := hp.nodes a haS
        rw [Heap.graph_array, ha] at hes
        cases hes
      · obtain ⟨l, x, u, hlit, -⟩ := hp.literal hc haS
        rw [ha] at hlit
        cases hlit
  obtain ⟨i, x, u, hi, hu, hr⟩ := hp.result hk
  cases hv.symm.trans hu
  refine ⟨x, .here hp ⟨⟨[], by simp, fun W w out => ?_, rfl⟩, fun _ _ hy => hy⟩ hr fun _ _ => trivial⟩
  have hcached : (p.builder.withOutput out).synthesisedVariables a = none := hc
  have hret : (p.builder.withOutput out).getRetValueVariable j = .ok x := by
    simp [SynthesisBuilder.getRetValueVariable, SynthesisBuilder.variableAt, SynthesisBuilder.withOutput, hi, hr.1]
  simp only [SynthesisBuilder.synthesisConstant, hcached, ha, hret]
  rfl

/-- An array that is met again. -/
theorem synthesise_seen (fuel : ℕ) (hp : Holds H h S pool p) {k : ℕ} (hk : S[k]? = some (.node a))
    (hv : pool[k]? = some v) :
    ∃ y, SynthesisedValue H h (fuel + 1) a S pool (fun _ => True) p y v p := by
  obtain ⟨i, x, u, hi, hu, hr⟩ := hp.node hk
  cases hv.symm.trans hu
  exact ⟨x, .here hp (.cached hi hr) hr fun _ _ => trivial⟩

/-- An array that is met for the first time: its variable, and then its elements. -/
theorem synthesise_array (hp : Holds H h S pool p) {es : List Addr} (ha : h[a]? = some (.array es))
    (haS : .node a ∉ S) {s : σ} (hn : H.newArray p.exec.host = (v, s)) {S₁ : List Referent} {pool₁ : List V}
    {Q : (Literal → Prop) → Prop} {p₁ : Point σ V}
    (hes : Synthesised H h fuel (some (varName p.builder.varId, v)) es S₁ pool₁ Q
      (p.bind a (.emptyArrayVariableDef (varName p.builder.varId)) v s) ys vs p₁) :
    SynthesisedValue H h (fuel + 1) a S₁ pool₁ Q p (varName p.builder.varId) v p₁ := by
  have hc : p.builder.synthesisedVariables a = none := by
    cases hc : p.builder.synthesisedVariables a with
    | none => rfl
    | some i =>
      obtain ⟨l, x, u, hlit, -⟩ := hp.literal hc haS
      rw [ha] at hlit
      cases hlit
  obtain ⟨⟨added, hs, he, hr⟩, hg⟩ := hes.advances
  have hdef : H.run [.emptyArrayVariableDef (varName p.builder.varId)] p.exec =
      some (p.bind a (.emptyArrayVariableDef (varName p.builder.varId)) v s).exec := by
    simp only [Host.run, Host.step, hn]
    rw [Host.declare_new (e := { p.exec with host := s }) hp.next]
    rfl
  refine ⟨⟨⟨[.emptyArrayVariableDef (varName p.builder.varId)] ++ added, ?_, fun W w out => ?_, H.run_append hdef hr⟩,
    fun z u hz => hg z u (KeepsVars.update hp.next z u hz)⟩, hes.holds, ?_, rfl, hes.events, hes.rets, fun P => ?_⟩
  · rw [hs, Point.bind, List.append_assoc]
  · have hc' : (p.builder.withOutput out).synthesisedVariables a = none := hc
    refine (SynthesisBuilder.synthesisConstant_array w hc' ha).trans ?_
    rw [SynthesisBuilder.bindNext_withOutput, SynthesisBuilder.emit_withOutput, writeAll_append]
    simp only [SynthesisBuilder.varId_withOutput, Writer.writeAll, bind, Except.bind]
    cases w.write (.emptyArrayVariableDef (varName p.builder.varId)) out with
    | error e => rfl
    | ok out' =>
      have he : SynthesisBuilder.eachVariable _ (fun y b => b.emit w (.arrayPush (varName p.builder.varId) y)) es
        ((p.builder.bindNext a).withOutput out') = _ := he W w out'
      simp only [Except.map] at he ⊢
      rw [he]
      cases w.writeAll added out' <;> rfl
  · exact hg _ _ (p.reads_bind _ _ _ _).2.2
  · rw [hes.literals P, Point.bind, forall_literalsOf_append]
    simp [literalsOf]

theorem Synthesised.congr {Q Q' : (Literal → Prop) → Prop} (hs : Synthesised H h fuel dest as S pool Q p ys vs p')
    (hQ : ∀ P, Q P ↔ Q' P) : Synthesised H h fuel dest as S pool Q' p ys vs p' :=
  ⟨hs.advances, hs.holds, hs.values, hs.named, hs.events, hs.rets, fun P => (hs.literals P).trans (by rw [hQ P])⟩

/-- One more value in front. -/
theorem SynthesisedValue.cons {S₁ : List Referent} {pool₁ : List V} {p₁ : Point σ V} {Q : (Literal → Prop) → Prop}
    {F : Forest Literal} (h₁ : SynthesisedValue H h fuel a S₁ pool₁ Q p y v p₁) (hd : HasDest dest p.exec.env)
    (hrest : Holds H h S₁ pool₁ (p₁.push H dest y v) → HasDest dest (p₁.push H dest y v).exec.env →
      F.run H.interp (dest.map (·.2)) pool₁ (p₁.push H dest y v).exec.host = some (vs, pool', s') →
      ∃ ys p₂, Synthesised H h fuel dest as S' pool' F.All (p₁.push H dest y v) ys vs p₂ ∧ p₂.exec.host = s')
    (hr : F.run H.interp (dest.map (·.2)) pool₁ (H.interp.pushInto (dest.map (·.2)) v p₁.exec.host) =
      some (vs, pool', s')) :
    ∃ ys p₂, Synthesised H h fuel dest (a :: as) S' pool' (fun P => Q P ∧ F.All P) p ys (v :: vs) p₂ ∧
      p₂.exec.host = s' := by
  have hd' : HasDest dest (p₁.push H dest y v).exec.env := by
    rw [Point.push_env]
    exact fun x d he => h₁.advances.grows x d (hd x d he)
  obtain ⟨ys, p₂, h₂, hh⟩ := hrest h₁.holds.push hd' (Point.push_host ▸ hr)
  exact ⟨y :: ys, p₂, .cons h₁ hd h₂, hh⟩

/-- **A list of values.** The statements do to the objects what running the forest does. -/
theorem synthesise_walk {F : Forest Literal} (hw : Walk h.graph S as F S') (hf : F.depth ≤ fuel)
    (hp : Holds H h S pool p) (dest : Option (StdString × V)) (hd : HasDest dest p.exec.env)
    (hr : F.run H.interp (dest.map (·.2)) pool p.exec.host = some (vs, pool', s')) :
    ∃ ys p', Synthesised H h fuel dest as S' pool' F.All p ys vs p' ∧ p'.exec.host = s' := by
  induction hw generalizing dest pool p vs pool' s' fuel with
  | nil =>
    obtain ⟨rfl, rfl, rfl⟩ := Forest.run_nil_eq hr
    exact ⟨[], p, ⟨⟨⟨[], by simp, fun W w out => rfl, rfl⟩, fun _ _ hy => hy⟩, hp, rfl, by simp, rfl, rfl,
      fun P => (and_iff_left trivial).symm⟩, rfl⟩
  | @leaf S a l as F S' hg _ ih =>
    obtain ⟨fuel, rfl⟩ := Forest.exists_fuel (by simp) hf
    obtain ⟨v, t, hl⟩ : ∃ v t, H.literal l p.exec.host = (v, t) := ⟨_, _, rfl⟩
    obtain ⟨vs₁, rfl, hrest⟩ := Forest.run_leaf_eq (I := H.interp) hl hr
    obtain ⟨y, p₁, h₁, rfl⟩ := synthesise_literal fuel hp (Heap.graph_literal.1 hg) hl
    exact h₁.cons hd (fun hp hd hr => ih (Nat.le_trans (Nat.le_max_right _ _) hf) hp _ hd hr) hrest
  | @result S a i k as F S' hg hk _ ih =>
    obtain ⟨fuel, rfl⟩ := Forest.exists_fuel (by simp) hf
    obtain ⟨v, vs₁, hv, rfl, hrest⟩ := Forest.run_back_eq hr
    obtain ⟨y, h₁⟩ := synthesise_result fuel hp (Heap.graph_placeholder.1 hg) hk hv
    obtain ⟨ys, p₂, h₂, hh⟩ :=
      h₁.cons hd (fun hp hd hr => ih (Nat.le_trans (Nat.le_max_right _ _) hf) hp _ hd hr) hrest
    exact ⟨ys, p₂, h₂.congr fun P => and_iff_right trivial, hh⟩
  | @seen S a es k as F S' hg hk _ ih =>
    obtain ⟨fuel, rfl⟩ := Forest.exists_fuel (by simp) hf
    obtain ⟨v, vs₁, hv, rfl, hrest⟩ := Forest.run_back_eq hr
    obtain ⟨y, h₁⟩ := synthesise_seen fuel hp hk hv
    obtain ⟨ys, p₂, h₂, hh⟩ :=
      h₁.cons hd (fun hp hd hr => ih (Nat.le_trans (Nat.le_max_right _ _) hf) hp _ hd hr) hrest
    exact ⟨ys, p₂, h₂.congr fun P => and_iff_right trivial, hh⟩
  | @node S a es F₁ S₁ as F₂ S' hg hn hw₁ _ ih₁ ih₂ =>
    obtain ⟨fuel, rfl⟩ := Forest.exists_fuel (by simp) hf
    have hf₁ : F₁.depth ≤ fuel := Nat.le_of_succ_le_succ (Nat.le_trans (Nat.le_max_left _ _) hf)
    have ha := Heap.graph_array.1 hg
    obtain ⟨v, t, hv⟩ : ∃ v t, H.newArray p.exec.host = (v, t) := ⟨_, _, rfl⟩
    obtain ⟨us, p₁, s₁, vs₂, hsub, rfl, hrest⟩ := Forest.run_node_eq (I := H.interp) hv hr
    -- the variable of the array is bound before its elements are synthesised
    have hself : HasDest (some (varName p.builder.varId, v))
        (p.bind a (.emptyArrayVariableDef (varName p.builder.varId)) v t).exec.env := by
      rintro x d ⟨⟩
      exact (p.reads_bind _ _ _ _).2.2
    obtain ⟨ys₁, p₁', hes, rfl⟩ := ih₁ hf₁ (hp.bind_array ha hn hv) _ hself hsub
    exact (synthesise_array hp ha hn hv hes).cons hd
      (fun hp hd hr => ih₂ (Nat.le_trans (Nat.le_max_right _ _) hf) hp _ hd hr) hrest

/-! ## Calls -/

/-- The builder after a call was given its variable. -/
def SynthesisBuilder.bindReturn {W : Type} (b : SynthesisBuilder W) : SynthesisBuilder W :=
  let b := b.nextVariableName.2.createVariable (varName b.varId)
  { b with funcRetVariables := b.funcRetVariables ++ [b.vars.length - 1] }

/-- The point after a call. -/
def Point.called (p : Point σ V) (st : Statement) (v : V) (s : σ) (events : List (Event (StdString × Bool) σ V)) :
    Point σ V where
  script := p.script ++ [st]
  builder := p.builder.bindReturn
  exec := ⟨Function.update p.exec.env (varName p.builder.varId) (some v), s, p.exec.events ++ events⟩

/-- The return value of call `i` takes the next slot. -/
theorem Holds.called (hp : Holds H h S pool p) (hi : p.builder.funcRetVariables.length = i) (st : Statement)
    {op : StdString × Bool} {hs vs : List V} {s : σ}
    (hc : H.call op hs vs p.exec.host = (v, s)) (events : List (Event (StdString × Bool) σ V)) :
    Holds H h (S ++ [.result i]) (pool ++ [v]) (p.called st v s events) := by
  have hlt : ∀ {k : ℕ} {r : Referent}, S[k]? = some r → (pool ++ [v])[k]? = pool[k]? := fun hk =>
    List.getElem?_append_left (hp.length ▸ (List.getElem?_eq_some_iff.1 hk).1)
  have hreads : ∀ {j : ℕ} {x : StdString} {u : V}, p.Reads j x u → (p.called st v s events).Reads j x u :=
    fun ⟨hj, hne, hx⟩ => ⟨getElem?_grows (List.prefix_append _ _) hj, hne, KeepsVars.update hp.next _ _ hx⟩
  refine ⟨by simp [hp.length], fun b hb => hp.nodes b (by simpa using hb), fun n hn => ?_, fun {b j} hb hbS => ?_,
    fun {k b} hk => ?_, fun {k j} hk => ?_⟩
  · have hn : p.builder.varId + 1 ≤ n := hn
    have hne : varName n ≠ varName p.builder.varId := fun he => by
      have := varName_injective he
      omega
    exact (Function.update_of_ne hne _ _).trans (hp.fresh n (by omega))
  · obtain ⟨l, x, u, hlit, hr, hk, hm⟩ := hp.literal hb fun hbS' => hbS (List.mem_append_left _ hbS')
    have hkeep := H.keep_call op hs vs hk
    rw [hc] at hkeep
    exact ⟨l, x, u, hlit, hreads hr, hkeep, mem_literalsOf_append hm⟩
  · rcases getElem?_concat hk with hk | ⟨-, hr⟩
    · obtain ⟨j, x, u, hj, hu, hr⟩ := hp.node hk
      exact ⟨j, x, u, hj, (hlt hk).trans hu, hreads hr⟩
    · cases hr
  · rcases getElem?_concat hk with hk | ⟨rfl, hr⟩
    · obtain ⟨j', x, u, hj, hu, hr⟩ := hp.result hk
      exact ⟨j', x, u, getElem?_grows (List.prefix_append _ _) hj, (hlt hk).trans hu, hreads hr⟩
    · cases hr
      refine ⟨p.builder.vars.length, varName p.builder.varId, v, ?_, by simp [← hp.length], ?_, rfl,
        Function.update_self _ _ _⟩
      · simp [Point.called, SynthesisBuilder.bindReturn, SynthesisBuilder.nextVariableName,
          SynthesisBuilder.createVariable, ← hi]
      · simp [Point.called, SynthesisBuilder.bindReturn, SynthesisBuilder.nextVariableName,
          SynthesisBuilder.createVariable]

/-- An action without a result. -/
def quiet (act : ∀ W : Type, Writer W → SynthesisBuilder W → Except Error (SynthesisBuilder W)) (W : Type)
    (w : Writer W) (b : SynthesisBuilder W) : Except Error (Unit × SynthesisBuilder W) :=
  (act W w b).map ((), ·)

theorem emits_quiet {act : ∀ W : Type, Writer W → SynthesisBuilder W → Except Error (SynthesisBuilder W)}
    {c c' : SynthesisBuilder Unit} {added : List Statement} : Emits (quiet act) c added () c' ↔
      ∀ (W : Type) (w : Writer W) (out : W), act W w (c.withOutput out) = (w.writeAll added out).map c'.withOutput := by
  unfold Emits quiet
  refine ⟨fun he W w out => ?_, fun he W w out => ?_⟩
  · have he := he W w out
    cases hact : act W w (c.withOutput out) <;> cases hwrite : w.writeAll added out <;> rw [hact, hwrite] at he <;>
      cases he <;> rfl
  · rw [he W w out]
    cases w.writeAll added out <;> rfl

/-- `this` is the first of at most one value. -/
theorem synthesisThis_eq {W : Type} (w : Writer W) (thisValue : Option Addr) (b : SynthesisBuilder W) :
    b.synthesisThis w h fuel thisValue =
      (SynthesisBuilder.eachVariable (SynthesisBuilder.synthesisConstant w h fuel) (pushTo w none)
        thisValue.toList b).map fun r => (r.1.headD [], r.2) := by
  cases thisValue with
  | none => rfl
  | some a =>
    simp only [SynthesisBuilder.synthesisThis, Option.toList_some, SynthesisBuilder.eachVariable, pushTo, bind,
      Except.bind]
    cases SynthesisBuilder.synthesisConstant w h fuel a b <;> rfl

theorem Host.receiver_headD {env : StdString → Option V} {ys : List StdString} {hs : List V} (hlen : ys.length ≤ 1)
    (hne : ∀ y ∈ ys, y.isEmpty = false) (hv : Host.valuesOf env ys = some hs) :
    Host.receiver env (ys.headD []) = some hs := by
  match ys, hlen with
  | [], _ => exact hv
  | [y], _ =>
    simp only [Host.valuesOf, Option.bind_eq_bind, Option.bind_eq_some_iff, Option.some.injEq, Option.pure_def] at hv
    obtain ⟨v, hv, us, rfl, rfl⟩ := hv
    simp [Host.receiver, hne y List.mem_cons_self, hv]

theorem Host.length_valuesOf {env : StdString → Option V} {xs : List StdString} {vs : List V}
    (hv : Host.valuesOf env xs = some vs) : xs.length = vs.length := by
  induction xs generalizing vs with
  | nil =>
    cases hv
    rfl
  | cons x xs ih =>
    simp only [Host.valuesOf, Option.bind_eq_bind, Option.bind_eq_some_iff, Option.some.injEq, Option.pure_def] at hv
    obtain ⟨v, -, us, hus, rfl⟩ := hv
    simp [ih hus]

variable {store : CAFStore} {call : FunctionCall} {f : Function}

/-- A call, when `this` and the arguments are in variables. -/
theorem Advances.calls {p₁ p₂ : Point σ V} {xs ys : List StdString} {hs vs : List V} {s : σ}
    (h₁ : Advances H (fun _ w => SynthesisBuilder.eachVariable (SynthesisBuilder.synthesisConstant w h fuel)
      (pushTo w none) call.thisValue.toList) p xs p₁)
    (h₂ : Advances H (fun _ w => SynthesisBuilder.eachVariable (SynthesisBuilder.synthesisConstant w h fuel)
      (pushTo w none) call.args) p₁ ys p₂)
    (hf : store.getFunction call.funcId = .ok f) (hnew : p₂.exec.env (varName p₂.builder.varId) = none)
    (hrecv : Host.receiver p₂.exec.env (xs.headD []) = some hs) (hargs : Host.valuesOf p₂.exec.env ys = some vs)
    (hc : H.call (f.name, call.ctor) hs vs p₂.exec.host = (v, s)) :
    Advances H (quiet fun _ w => TestCaseSynthesiser.synthesisCall w store h fuel call) p ()
      (p₂.called (.functionCall (varName p₂.builder.varId) f.name call.ctor (xs.headD []) ys) v s
        [⟨(f.name, call.ctor), hs, vs, p₂.exec.host, v⟩]) := by
  obtain ⟨⟨a₁, hs₁, he₁, hr₁⟩, hg₁⟩ := h₁
  obtain ⟨⟨a₂, hs₂, he₂, hr₂⟩, hg₂⟩ := h₂
  have hcall : H.run [.functionCall (varName p₂.builder.varId) f.name call.ctor (xs.headD []) ys] p₂.exec =
      some (p₂.called (.functionCall (varName p₂.builder.varId) f.name call.ctor (xs.headD []) ys) v s
        [⟨(f.name, call.ctor), hs, vs, p₂.exec.host, v⟩]).exec := by
    simp only [Host.run, Host.step, hrecv, hargs, hc, Option.bind_eq_bind, Option.bind_some]
    rw [Host.declare_new (e := { p₂.exec with host := s, events := _ }) hnew]
    rfl
  refine ⟨⟨a₁ ++ (a₂ ++ [_]), by rw [Point.called, hs₂, hs₁]; simp, fun W w out => ?_,
    H.run_append hr₁ (H.run_append hr₂ hcall)⟩,
    fun z u hz => KeepsVars.update hnew z u (hg₂ z u (hg₁ z u hz))⟩
  simp only [quiet, TestCaseSynthesiser.synthesisCall, synthesisThis_eq, he₁ W w out, writeAll_append, bind,
    Except.bind]
  cases w.writeAll a₁ out with
  | error e => rfl
  | ok out =>
    have he₂ : SynthesisBuilder.eachVariable _ (fun _ b => .ok b) call.args _ = _ := he₂ W w out
    simp only [Except.map, he₂, hf]
    cases w.writeAll a₂ out with
    | error e => rfl
    | ok out =>
      simp only [SynthesisBuilder.synthesisFunctionCall, SynthesisBuilder.nextVariableName, SynthesisBuilder.emit,
        SynthesisBuilder.withOutput, Writer.writeAll, bind, Except.bind]
      cases w.write (.functionCall (varName p₂.builder.varId) f.name call.ctor (xs.headD []) ys) out <;> rfl

/-- One call, and the rest. -/
theorem Advances.calls_cons {p₁ p₂ : Point σ V} {calls : List FunctionCall}
    (h₁ : Advances H (quiet fun _ w => TestCaseSynthesiser.synthesisCall w store h fuel call) p () p₁)
    (h₂ : Advances H (quiet fun _ w => TestCaseSynthesiser.synthesisCalls w store h fuel calls) p₁ () p₂) :
    Advances H (quiet fun _ w => TestCaseSynthesiser.synthesisCalls w store h fuel (call :: calls)) p () p₂ := by
  obtain ⟨⟨a₁, hs₁, he₁, hr₁⟩, hg₁⟩ := h₁
  obtain ⟨⟨a₂, hs₂, he₂, hr₂⟩, hg₂⟩ := h₂
  refine ⟨⟨a₁ ++ a₂, by rw [hs₂, hs₁, List.append_assoc], fun W w out => ?_, H.run_append hr₁ hr₂⟩,
    fun z u hz => hg₂ z u (hg₁ z u hz)⟩
  have hcall := emits_quiet.1 he₁ W w out
  have hcalls := emits_quiet.1 he₂ W w
  simp only [quiet, TestCaseSynthesiser.synthesisCalls, writeAll_append, bind, Except.bind, hcall]
  cases w.writeAll a₁ out with
  | error e => rfl
  | ok out =>
    simp only [Except.map, hcalls]
    cases w.writeAll a₂ out <;> rfl

/-- **The calls.** A script has the operands and the effects that running the forests has. -/
theorem synthesise_steps {calls : List FunctionCall} {Fs : List (Step CallOp (Forest Literal))}
    {events : List (Event CallOp σ V)} (hw : WalkSteps h.graph i S (calls.map FunctionCall.step) Fs S')
    (hf : DepthLE fuel Fs) (hp : Holds H h S pool p) (hi : p.builder.funcRetVariables.length = i)
    (hstore : ∀ call ∈ calls, ∃ f, store.getFunction call.funcId = .ok f)
    (hr : runSteps H.interp (H.perform store) Fs pool p.exec.host = some (events, pool', s')) :
    ∃ p', Advances H (quiet fun _ w => TestCaseSynthesiser.synthesisCalls w store h fuel calls) p () p' ∧
      Defines p p' (fun P => ∀ st ∈ Fs, st.head.All P ∧ st.args.All P) ∧ p'.exec.host = s' ∧
      p'.exec.events = p.exec.events ++ events.map (namedEvent store) := by
  induction calls generalizing i S Fs pool p events with
  | nil =>
    cases hw
    obtain ⟨rfl, rfl, rfl⟩ := runSteps_nil_eq hr
    refine ⟨p, ⟨⟨[], by simp, fun W w out => rfl, rfl⟩, fun _ _ hy => hy⟩, fun P => ?_, rfl, by simp⟩
    simp
  | cons call calls ih =>
    cases hw with
    | @cons _ _ op as bs F₁ S₁ F₂ S₂ _ Fs _ h₁ h₂ h₃ =>
      obtain ⟨hf₁, hf₂⟩ := hf _ List.mem_cons_self
      obtain ⟨hs, q₁, s₁, vs, q₂, s₂, es, hr₁, hr₂, rfl, hr₃⟩ := runSteps_cons_eq hr
      have hnone : ∀ env : StdString → Option V, HasDest none env := by
        rintro env x d ⟨⟩
      obtain ⟨xs, p₁, b₁, rfl⟩ := synthesise_walk h₁ hf₁ hp none (hnone _) hr₁
      obtain ⟨ys, p₂, b₂, rfl⟩ := synthesise_walk h₂ hf₂ b₁.holds none (hnone _) hr₂
      have hi₂ : p₂.builder.funcRetVariables.length = i := by rw [b₂.rets, b₁.rets, hi]
      obtain ⟨f, hget⟩ := hstore call List.mem_cons_self
      have hname : store.nameOf call.funcId = f.name := by simp only [CAFStore.nameOf, hget]
      obtain ⟨v, t, hc⟩ : ∃ v t, H.call (f.name, call.ctor) hs vs p₂.exec.host = (v, t) := ⟨_, _, rfl⟩
      simp only [Host.perform, hname, hc] at hr₃
      -- `this` is at most one value
      have hlen : xs.length ≤ 1 := by
        have hle : call.thisValue.toList.length ≤ 1 := by cases call.thisValue <;> simp
        rw [Host.length_valuesOf b₁.values, Forest.run_length hr₁, h₁.length_eq]
        exact hle
      have hvs₁ := Host.valuesOf_keeps b₂.advances.grows b₁.values
      have hadv := b₁.advances.calls b₂.advances hget b₂.holds.next
        (Host.receiver_headD hlen b₁.named hvs₁) b₂.values hc
      obtain ⟨p', ha, hd, hh, hev⟩ := ih h₃ (fun st hst => hf st (List.mem_cons_of_mem _ hst))
        (b₂.holds.called hi₂ (.functionCall (varName p₂.builder.varId) f.name call.ctor (xs.headD []) ys) hc
          [⟨(f.name, call.ctor), hs, vs, p₂.exec.host, v⟩])
        (by simp [Point.called, SynthesisBuilder.bindReturn, SynthesisBuilder.nextVariableName,
          SynthesisBuilder.createVariable, hi₂])
        (fun call hcall => hstore call (List.mem_cons_of_mem _ hcall)) hr₃
      refine ⟨p', hadv.calls_cons ha, fun P => ?_, hh, ?_⟩
      · rw [hd P, Point.called, forall_literalsOf_append, b₂.literals P, b₁.literals P]
        simp only [List.forall_mem_cons, literalsOf]
        tauto
      · rw [hev, Point.called, b₂.events, b₁.events, List.map_cons, List.append_assoc]
        simp [namedEvent, hname, Host.perform, hc]

end Simulation

/-! ## One script -/

section Fuel

variable {W : Type} {w : Writer W} {h : Heap} {store : CAFStore}

theorem eachVariable_mono
    {read read' : Addr → SynthesisBuilder W → Except Error (StdString × SynthesisBuilder W)}
    {use : StdString → SynthesisBuilder W → Except Error (SynthesisBuilder W)}
    (hread : ∀ a b r, read a b = .ok r → read' a b = .ok r) {as : List Addr} {b : SynthesisBuilder W}
    {r : List StdString × SynthesisBuilder W} (hr : SynthesisBuilder.eachVariable read use as b = .ok r) :
    SynthesisBuilder.eachVariable read' use as b = .ok r := by
  induction as generalizing b r with
  | nil => exact hr
  | cons a as ih =>
    simp only [SynthesisBuilder.eachVariable, bind_eq_ok] at hr ⊢
    obtain ⟨r₁, h₁, b₂, h₂, r₃, h₃, he⟩ := hr
    exact ⟨r₁, hread _ _ _ h₁, b₂, h₂, r₃, ih h₃, he⟩

/-- **More fuel does not change a result.** -/
theorem synthesisConstant_mono {fuel fuel' : ℕ} (hle : fuel ≤ fuel') {a : Addr} {b : SynthesisBuilder W}
    {r : StdString × SynthesisBuilder W} (hr : SynthesisBuilder.synthesisConstant w h fuel a b = .ok r) :
    SynthesisBuilder.synthesisConstant w h fuel' a b = .ok r := by
  induction fuel generalizing fuel' a b r with
  | zero => cases hr
  | succ fuel ih =>
    obtain ⟨fuel', rfl⟩ : ∃ n, fuel' = n + 1 := Nat.exists_eq_add_one.2 (by omega)
    unfold SynthesisBuilder.synthesisConstant at hr ⊢
    split at hr
    · exact hr
    · split at hr
      · exact hr
      · exact hr
      · simp only [bind_eq_ok] at hr ⊢
        obtain ⟨b₁, h₁, r₂, h₂, he⟩ := hr
        exact ⟨b₁, h₁, r₂, eachVariable_mono (fun a b r hr => ih (by omega) hr) h₂, he⟩
      · exact hr

theorem synthesisCalls_mono {fuel fuel' : ℕ} (hle : fuel ≤ fuel') {calls : List FunctionCall}
    {b b' : SynthesisBuilder W} (hr : TestCaseSynthesiser.synthesisCalls w store h fuel calls b = .ok b') :
    TestCaseSynthesiser.synthesisCalls w store h fuel' calls b = .ok b' := by
  induction calls generalizing b with
  | nil => exact hr
  | cons call calls ih =>
    simp only [TestCaseSynthesiser.synthesisCalls, TestCaseSynthesiser.synthesisCall, bind_eq_ok] at hr ⊢
    obtain ⟨b₁, ⟨r₁, h₁, r₂, h₂, hrest⟩, h₃⟩ := hr
    refine ⟨b₁, ⟨r₁, ?_, r₂, eachVariable_mono (fun a b r hr => synthesisConstant_mono hle hr) h₂, hrest⟩, ih h₃⟩
    unfold SynthesisBuilder.synthesisThis at h₁ ⊢
    split at h₁
    · exact synthesisConstant_mono hle h₁
    · exact h₁

end Fuel

/-- The writer that keeps the statements themselves. -/
def recording : Writer (List Statement) where
  enterMainFunction := .ok
  leaveFunction := .ok
  writeVariableDef x l out := .ok (out ++ [.variableDef x l])
  writeEmptyArrayVariableDef x out := .ok (out ++ [.emptyArrayVariableDef x])
  writeArrayPushStatement x y out := .ok (out ++ [.arrayPush x y])
  writeFunctionCallStatement ret f ctor recv args out := .ok (out ++ [.functionCall ret f ctor recv args])

theorem recording_writeAll (script out : List Statement) : recording.writeAll script out = .ok (out ++ script) := by
  induction script generalizing out with
  | nil => rw [List.append_nil]; rfl
  | cons st script ih =>
    have hwrite : recording.write st out = .ok (out ++ [st]) := by cases st <;> rfl
    simp only [Writer.writeAll, hwrite, bind, Except.bind, ih, List.append_assoc, List.singleton_append]

section Script

variable {h : Heap} {store : CAFStore} {tc : TestCase} {Fs : List (Step CallOp (Forest Literal))}
  {S : List Referent} {fuel : ℕ} {script : List Statement}

/-- The calls of the test case are written as `script`. -/
def WrittenAs (store : CAFStore) (h : Heap) (tc : TestCase) (fuel : ℕ) (script : List Statement) : Prop :=
  ∃ c, Emits (quiet fun _ w => TestCaseSynthesiser.synthesisCalls w store h fuel tc.calls)
    (SynthesisBuilder.new ()) script () c

/-- There is only one such script. -/
theorem WrittenAs.unique {fuel' : ℕ} {script' : List Statement} (hw : WrittenAs store h tc fuel script)
    (hw' : WrittenAs store h tc fuel' script') : script = script' := by
  have calls : ∀ {fuel : ℕ} {script : List Statement}, WrittenAs store h tc fuel script → ∃ b,
      TestCaseSynthesiser.synthesisCalls recording store h fuel tc.calls (.new []) = .ok b ∧ b.output = script := by
    rintro fuel script ⟨c, he⟩
    have he := emits_quiet.1 he _ recording []
    rw [recording_writeAll] at he
    exact ⟨_, he, rfl⟩
  obtain ⟨b, hb, rfl⟩ := calls hw
  obtain ⟨b', hb', rfl⟩ := calls hw'
  have hmax := synthesisCalls_mono (Nat.le_max_left fuel fuel') hb
  rw [synthesisCalls_mono (Nat.le_max_right fuel fuel') hb'] at hmax
  cases hmax
  rfl

/-- All builders write it. -/
theorem WrittenAs.synthesis (hw : WrittenAs store h tc fuel script) {W : Type} (w : Writer W) (out : W) :
    (TestCaseSynthesiser.synthesis w store h fuel tc (.new out)).map (·.output) = w.writeScript script out := by
  obtain ⟨c, he⟩ := hw
  have hout : (SynthesisBuilder.new out).output = out := rfl
  simp only [TestCaseSynthesiser.synthesis, Writer.writeScript, hout, bind, Except.bind]
  cases w.enterMainFunction out with
  | error e => rfl
  | ok out' =>
    have hcalls : TestCaseSynthesiser.synthesisCalls w store h fuel tc.calls
        { SynthesisBuilder.new out with output := out' } = _ := emits_quiet.1 he W w out'
    simp only [hcalls]
    cases w.writeAll script out' with
    | error e => rfl
    | ok out'' =>
      simp only [Except.map, SynthesisBuilder.withOutput]
      cases w.leaveFunction out'' <;> rfl

/-- The start. -/
def Point.start {σ V : Type} (s : σ) : Point σ V := ⟨[], .new (), .start s⟩

theorem Point.start_holds {σ V : Type} (H : Host σ V) (h : Heap) (s : σ) : Holds H h [] [] (Point.start s) :=
  ⟨rfl, by simp [NodesIn], fun _ _ => rfl, (by rintro a i ⟨⟩), by simp, by simp⟩

/-- A host without values. -/
def trivialHost : Host Unit Unit where
  literal _ _ := ((), ())
  newArray _ := ((), ())
  push _ _ _ := ()
  call _ _ _ _ := ((), ())
  Known _ _ _ := True
  known_literal _ _ := trivial
  literal_known _ := rfl
  keep_literal _ _ := trivial
  keep_newArray _ := trivial
  keep_push _ _ _ := trivial
  keep_call _ _ _ _ := trivial

/-- What the script of a test case does on a host. -/
structure Script (store : CAFStore) (h : Heap) (tc : TestCase) (Fs : List (Step CallOp (Forest Literal)))
    (script : List Statement) : Prop where
  wellScoped : Scoped [] script
  written : ∀ fuel, DepthLE fuel Fs → WrittenAs store h tc fuel script
  literals : ∀ P : Literal → Prop, (∀ l ∈ literalsOf script, P l) ↔ ∀ st ∈ Fs, st.head.All P ∧ st.args.All P
  runs : ∀ {σ V : Type} (H : Host σ V) (s : σ) {events : List (Event CallOp σ V)} {pool : List V} {s' : σ},
    runSteps H.interp (H.perform store) Fs [] s = some (events, pool, s') →
      ∃ e, H.run script (.start s) = some e ∧ e.host = s' ∧ e.events = events.map (namedEvent store)

/-- **A test case has one script**, for all builders and all hosts. -/
theorem synthesis_script (hw : WalkSteps h.graph 0 [] tc.steps Fs S) (hstore : store.HasCalled tc) :
    ∃ script, Script store h tc Fs script := by
  -- at every fuel, on every host
  have hrun : ∀ {σ V : Type} (H : Host σ V) (s : σ) {events : List (Event CallOp σ V)} {pool : List V} {s' : σ}
      (fuel : ℕ), DepthLE fuel Fs → runSteps H.interp (H.perform store) Fs [] s = some (events, pool, s') →
      ∃ script e, WrittenAs store h tc fuel script ∧
        (∀ P : Literal → Prop, (∀ l ∈ literalsOf script, P l) ↔ ∀ st ∈ Fs, st.head.All P ∧ st.args.All P) ∧
        H.run script (.start s) = some e ∧ e.host = s' ∧ e.events = events.map (namedEvent store) := by
    intro σ V H s events pool s' fuel hf hr
    obtain ⟨p', ⟨⟨added, hs, he, hrun⟩, -⟩, hd, hh, hev⟩ :=
      synthesise_steps hw hf (Point.start_holds H h s) rfl hstore hr
    have hs : p'.script = added := by simpa [Point.start] using hs
    refine ⟨added, p'.exec, ⟨p'.builder, he⟩, fun P => ?_, hrun, hh, ?_⟩
    · rw [← hs, hd P]
      simp [Point.start, literalsOf]
    · rw [hev]
      simp [Point.start, Execution.start]
  have hd : DepthLE (h.length + 1) Fs := depthLE_of_walk hw (Nat.le_refl _)
  obtain ⟨events₀, P₀, s₀, hr₀, -⟩ := hw.run_start trivialHost.interp (trivialHost.perform store) ()
  obtain ⟨script, e₀, hwritten₀, hlits, hrun₀, -, -⟩ := hrun trivialHost () _ hd hr₀
  refine ⟨script, ?_, fun fuel hf => ?_, hlits, fun H s events pool s' hr => ?_⟩
  · exact Host.run_scoped (fun x => by simp [Execution.start]) hrun₀
  · obtain ⟨script', e, hwritten, -⟩ := hrun trivialHost () fuel hf hr₀
    rwa [hwritten₀.unique hwritten]
  · obtain ⟨script', e, hwritten, -, hrest⟩ := hrun H s _ hd hr
    rw [hwritten₀.unique hwritten]
    exact ⟨e, hrest⟩

/-- Every builder is given the script, if the store has the functions that are called. -/
theorem writesScript_of_walk (hw : WalkSteps h.graph 0 [] tc.steps Fs S) (hstore : store.HasCalled tc) :
    WritesScript store h tc := by
  obtain ⟨script, hscript⟩ := synthesis_script hw hstore
  exact ⟨script, h.length + 1, fun fuel hfuel => (hscript.written fuel (depthLE_of_walk hw hfuel)).synthesis⟩

/-- **Synthesis rebuilds the value graph** of every well-formed test case, if the store has the functions
that are called. -/
theorem rebuildsValues (hw : WellFormed h tc) (hstore : store.HasCalled tc) : RebuildsValues store h tc := by
  obtain ⟨Fs, S, h₁⟩ := walkSteps_exists hw
  obtain ⟨script, hscript⟩ := synthesis_script h₁ hstore
  refine ⟨script, h.length + 1, hscript.wellScoped, fun fuel hfuel => ?_⟩
  have hdepth := depthLE_of_walk h₁ hfuel
  refine ⟨(hscript.written fuel hdepth).synthesis, fun M s => ?_⟩
  obtain ⟨events, P, s', hrun, -⟩ := h₁.run_start M.host.interp (M.host.perform store) s
  obtain ⟨st, heval, hst, -⟩ := h₁.eval_eq ResultsBelow.nil (EvalState.start_views s) rfl hdepth hrun
  obtain ⟨e, he, hh, hev⟩ := hscript.runs M.host s hrun
  exact ⟨e, events, st, he, heval, hev, hh.trans hst.symm⟩

end Script

/-- The functions of the sample: `f` and `g.h`. -/
def sampleStore : CAFStore := (CAFStore.new.addFunction ⟨7, [102]⟩).addFunction ⟨8, [103, 46, 104]⟩

theorem sample_hasCalled : sampleStore.HasCalled sampleCase := by
  intro call hcall
  rcases List.mem_cons.1 hcall with rfl | hcall
  · exact ⟨⟨7, [102]⟩, rfl⟩
  · rw [List.mem_singleton.1 hcall]
    exact ⟨⟨8, [103, 46, 104]⟩, rfl⟩

theorem sample_rebuildsValues : RebuildsValues sampleStore sampleHeap sampleCase :=
  rebuildsValues sample_wellFormed sample_hasCalled

end Caf
