import Caf.Ir.Program

/-!
# Runs with a large bound

A run has a bound on the number of jumps and calls. `Settles` says what comes out when the bound is large enough, and
its rules follow the way from block to block.

* `Settles.bind`: one run after another.
* `Returns`: what a function returns, when it leaves the memory of its caller as it is.
* `Returns.runBlock`, `Returns.bind`, `Returns.call`: its rules.
-/

namespace Ir

variable {N H X α β : Type}

theorem ok_bind (a : α) (f : α → Except Fault β) : (Except.ok a >>= f) = f a := rfl

theorem error_bind (e : Fault) (f : α → Except Fault β) : (Except.error e >>= f) = .error e := rfl

theorem ok_ne_error {a : α} {e : Fault} : Except.ok a ≠ .error e := nofun

/-- What returns has done both of its steps. -/
theorem of_bind_ok {x : Except Fault α} {f : α → Except Fault β} {b : β} (h : x >>= f = .ok b) :
    ∃ a, x = .ok a ∧ f a = .ok b := by
  cases x with
  | error e => cases h
  | ok a => exact ⟨a, rfl, h⟩

theorem bind_congr_ok {x : Except Fault α} {f g : α → Except Fault β} (h : ∀ a, x = .ok a → f a = g a) :
    x >>= f = x >>= g := by
  cases x with
  | error e => rfl
  | ok a => exact h a rfl

/-- A step, and a rest of which it does not matter where it starts. -/
theorem exists_bind_ok_iff {x : Except Fault α} {f : α → Except Fault β} {p : Prop} (h : ∀ a, (∃ b, f a = .ok b) ↔ p) :
    (∃ b, x >>= f = .ok b) ↔ (∃ a, x = .ok a) ∧ p := by
  constructor
  · rintro ⟨b, hb⟩
    obtain ⟨a, ha, hfa⟩ := of_bind_ok hb
    exact ⟨⟨a, ha⟩, (h a).mp ⟨b, hfa⟩⟩
  · rintro ⟨⟨a, ha⟩, hp⟩
    rw [ha]
    exact (h a).mpr hp

theorem hostResult_ne_outOfFuel (x : Option α) : hostResult x ≠ .error .outOfFuel := by
  cases x <;> rintro ⟨⟩

theorem exists_hostResult {x : Option α} (h : x.isSome) : ∃ a, hostResult x = .ok a := by
  obtain ⟨a, rfl⟩ := Option.isSome_iff_exists.mp h
  exact ⟨a, rfl⟩

/-- Steps that both return. -/
theorem exists_bind_ok {x : Except Fault α} {f : α → Except Fault β} (hx : ∃ a, x = .ok a)
    (hf : ∀ a, ∃ b, f a = .ok b) : ∃ b, x >>= f = .ok b := by
  obtain ⟨a, rfl⟩ := hx
  exact hf a

theorem exists_bind_return_iff {x : Except Fault α} {f : α → β} :
    (∃ b, x >>= (fun a => .ok (f a)) = .ok b) ↔ ∃ a, x = .ok a := by
  rw [exists_bind_ok_iff (p := True) fun a => iff_true_intro ⟨_, rfl⟩, and_true]

/-- An error comes from one of the steps. -/
theorem bind_ne_error {x : Except Fault α} {f : α → Except Fault β} {e : Fault} (hx : x ≠ .error e)
    (hf : ∀ a, x = .ok a → f a ≠ .error e) : x >>= f ≠ .error e := by
  cases x with
  | error e' =>
    intro h
    cases h
    exact hx rfl
  | ok a => exact hf a rfl

/-- A sequence of steps that all return. -/
theorem exists_mapM {f : α → Except Fault β} {l : List α} (h : ∀ a ∈ l, ∃ b, f a = .ok b) :
    ∃ bs, l.mapM f = .ok bs := by
  induction l with
  | nil => exact ⟨[], rfl⟩
  | cons a l ih =>
    obtain ⟨b, hb⟩ := h a (by simp)
    obtain ⟨bs, hbs⟩ := ih fun c hc => h c (by simp [hc])
    exact ⟨b :: bs, by simp [List.mapM_cons, hb, hbs, ok_bind, pure, Except.pure]⟩

/-- **With a bound that is large enough, the outcome is `r`**, unless `r` itself ran out of its bound. -/
def Settles (f : ℕ → Except Fault α) (r : Except Fault α) : Prop :=
  r ≠ .error .outOfFuel → ∃ n, ∀ fuel, n ≤ fuel → f fuel = r

namespace Settles

theorem const (r : Except Fault α) : Settles (fun _ => r) r := fun _ => ⟨0, fun _ _ => rfl⟩

theorem outOfFuel (f : ℕ → Except Fault α) : Settles f (.error .outOfFuel) := fun h => absurd rfl h

theorem of_eq {f g : ℕ → Except Fault α} {r : Except Fault α} (h : Settles g r) (heq : ∀ fuel, f fuel = g fuel) :
    Settles f r := by
  rwa [show f = g from funext heq]

/-- One run after another. -/
theorem bind {f : ℕ → Except Fault α} {g : ℕ → α → Except Fault β} {r : Except Fault α} {h : α → Except Fault β}
    (hf : Settles f r) (hg : ∀ a, r = .ok a → Settles (fun fuel => g fuel a) (h a)) :
    Settles (fun fuel => f fuel >>= g fuel) (r >>= h) := by
  intro hne
  cases r with
  | error e =>
    have he : Except.error e ≠ (.error .outOfFuel : Except Fault α) := by
      rintro ⟨⟩
      exact hne rfl
    obtain ⟨n, hn⟩ := hf he
    exact ⟨n, fun fuel hfuel => by simp only [hn fuel hfuel]; rfl⟩
  | ok a =>
    obtain ⟨n₁, h₁⟩ := hf (by simp)
    obtain ⟨n₂, h₂⟩ := hg a rfl hne
    refine ⟨max n₁ n₂, fun fuel hfuel => ?_⟩
    simp only [h₁ fuel (by omega)]
    exact h₂ fuel (by omega)

end Settles

/-! ## Returning -/

/-- **The run returns `r`**, with a bound that is large enough, and leaves the objects of `mem` as they are. What else
is in memory is given up. -/
def Returns (mem : Memory N H) (run : ℕ → Except Fault (Result N H X)) (r : Except Fault (Val N H × X)) : Prop :=
  Settles (fun fuel => run fuel >>= fun (v, m) => .ok (v, { m with memory := m.memory.take mem.length }))
    (r >>= fun (v, x) => .ok (v, ⟨mem, x⟩))

namespace Returns

variable {mem : Memory N H}

theorem of_eq {f g : ℕ → Except Fault (Result N H X)} {r : Except Fault (Val N H × X)} (h : Returns mem g r)
    (heq : ∀ fuel, f fuel = g fuel) : Returns mem f r := by
  rwa [show f = g from funext heq]

/-- A return. -/
theorem ok {m : Machine N H X} (v : Val N H) (hmem : m.memory.take mem.length = mem) :
    Returns mem (fun _ => .ok (v, m)) (.ok (v, m.host)) := by
  refine Settles.of_eq (Settles.const _) fun fuel => ?_
  show Except.ok (v, Machine.mk (m.memory.take mem.length) m.host) = .ok (v, ⟨mem, m.host⟩)
  rw [hmem]

theorem error (e : Fault) : Returns mem (fun _ => (.error e : Except Fault (Result N H X))) (.error e) :=
  Settles.const _

/-- Something before the rest of the run. -/
theorem bind {f : ℕ → Except Fault α} {g : ℕ → α → Except Fault (Result N H X)} {a : Except Fault β} {c : β → α}
    {h : β → Except Fault (Val N H × X)} (hf : Settles f (a >>= fun b => .ok (c b)))
    (hg : ∀ b, a = .ok b → Returns mem (fun fuel => g fuel (c b)) (h b)) :
    Returns mem (fun fuel => f fuel >>= g fuel) (a >>= h) := by
  refine Settles.of_eq ?_ fun fuel => bind_assoc (f fuel) (g fuel) _
  cases a with
  | error e => exact Settles.bind (h := fun _ => .error .outOfFuel) hf fun _ hb => nomatch hb
  | ok b =>
    have hrest : ∀ x, (Except.ok (c b) : Except Fault α) = .ok x → Settles (fun fuel => g fuel x >>= fun (v, m) =>
        .ok (v, { m with memory := m.memory.take mem.length })) (h b >>= fun (v, x) => .ok (v, Machine.mk mem x)) := by
      rintro x ⟨⟩
      exact hg b rfl
    exact hf.bind hrest

variable [DecidableEq N] {P : Program N H X} {fn : Function N}

/-- A block is entered. -/
theorem runBlock {b : ℕ} {block : Block N} {f : Frame N H} {m : Machine N H X} {r : Except Fault (Val N H × X)}
    (hb : fn.blocks[b]? = some block)
    (h : Returns mem (fun fuel => P.runInsts (P.runBlock fuel) fn block.insts f m) r) :
    Returns mem (fun fuel => P.runBlock fuel fn b f m) r := by
  intro hne
  obtain ⟨n, hn⟩ := h hne
  refine ⟨n + 1, fun fuel hfuel => ?_⟩
  obtain ⟨fuel, rfl⟩ : ∃ k, fuel = k + 1 := ⟨fuel - 1, by omega⟩
  simp only [Program.runBlock, hb]
  exact hn fuel (by omega)

/-- A block that comes to its end by itself. -/
theorem block {b : ℕ} {name : String} {insts : List (Inst N)} {f : Frame N H} {m : Machine N H X} {w : Memory N H}
    {r : Except Fault (Val N H × X)} (hb : fn.blocks[b]? = some ⟨name, insts⟩)
    (h : ∀ enter, P.runInsts enter fn insts f m = r >>= fun (v, x) => .ok (v, ⟨w, x⟩))
    (hmem : w.take mem.length = mem) : Returns mem (fun fuel => P.runBlock fuel fn b f m) r := by
  refine runBlock hb (of_eq ?_ fun fuel => h (P.runBlock fuel))
  rcases r with e | ⟨v, x⟩
  · exact error e
  · exact ok (m := ⟨w, x⟩) v hmem

/-- A function of the program is called, and leaves the memory as it is. -/
theorem call {name : N} {args : List (Val N H)} {m : Machine N H X} {r : Except Fault (Val N H × X)}
    (hfn : P.functions.lookup name = some fn)
    (h : Returns m.memory (fun fuel => P.runBlock fuel fn 0 (.new args) m) r) :
    Settles (fun fuel => P.call (P.runBlock fuel) name args m) (r >>= fun (v, x) => .ok (v, ⟨m.memory, x⟩)) := by
  refine Settles.of_eq h fun fuel => ?_
  simp only [Program.call, hfn]
  rfl

omit [DecidableEq N] in
/-- What is left in the host. -/
theorem host {run : ℕ → Except Fault (Result N H X)} {r : Except Fault (Val N H × X)} (h : Returns mem run r) :
    Settles (fun fuel => run fuel >>= fun (_, m) => .ok m.host) (r >>= fun (_, x) => .ok x) := by
  have hbind := Settles.bind (g := fun _ x => .ok x.2.host) (h := fun x => .ok x.2.host) h fun x _ => Settles.const _
  rw [bind_assoc] at hbind
  refine Settles.of_eq hbind fun fuel => ?_
  rw [bind_assoc]
  rfl

end Returns

end Ir
