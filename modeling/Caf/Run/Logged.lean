import Caf.Run.Ensures

/-!
# Logged runs

A program with a log is a copy of a program that notes what it does as it goes along. `Erases x y` says that `x` is `y`
once its log is left out. The copy makes the same run then, from any log on, and the log is the one of that run.

* `Erases.bind`, `Erases.foldlM`: a copy is compared with its original step by step.
* `Logged.ensures_bind`: a copy with a state is run step by step.
* `Erases.ok_iff`, `Erases.ensures`: what is known of the copy is known of the original.
-/

namespace Run

/-- The programs of `m` that keep a log. -/
abbrev Logged (κ : Type) (m : Type → Type) := StateT (List κ) m

variable {κ : Type} {m : Type → Type} [Monad m] {α β ι : Type}

/-- Put entries at the end of the log. -/
def note (ks : List κ) : Logged κ m Unit := fun log => pure ((), log ++ ks)

/-- An action that notes nothing. -/
def silent (y : m α) : Logged κ m α := StateT.lift y

theorem silent_bind [LawfulMonad m] (y : m α) (f : α → Logged κ m β) (log : List κ) :
    (silent y >>= f) log = y >>= fun a => f a log := by
  change (y >>= fun a => pure (a, log)) >>= (fun r => f r.1 r.2) = _
  rw [bind_assoc]
  simp only [pure_bind]

/-- Without its log, `x` is `y`. -/
def Erases (x : Logged κ m α) (y : m α) : Prop := ∀ log, Prod.fst <$> x log = y

namespace Erases

variable [LawfulMonad m]

theorem pure (a : α) : Erases (Pure.pure a : Logged κ m α) (Pure.pure a) := by
  intro log
  exact map_pure Prod.fst (a, log)

theorem silent (y : m α) : Erases (silent y : Logged κ m α) y := by
  intro log
  simp [Run.silent, StateT.lift]

/-- **Step by step.** -/
theorem bind {x : Logged κ m α} {y : m α} {f : α → Logged κ m β} {g : α → m β} (hx : Erases x y)
    (hf : ∀ a, Erases (f a) (g a)) : Erases (x >>= f) (y >>= g) := by
  intro log
  -- `f` goes on with the log of `x`, whatever it is
  have hrest : ∀ r : α × List κ, Prod.fst <$> f r.1 r.2 = g r.1 := fun r => hf r.1 r.2
  calc Prod.fst <$> (x >>= f) log = x log >>= fun r => Prod.fst <$> f r.1 r.2 := map_bind _ _ _
    _ = x log >>= fun r => g r.1 := bind_congr hrest
    _ = y >>= g := by rw [← hx log, bind_map_left]

/-- What is noted decides nothing. -/
theorem note_bind {f : Unit → Logged κ m α} {y : m α} (ks : List κ) (hf : Erases (f ()) y) :
    Erases (note ks >>= f) y := by
  intro log
  have hnote : (note ks >>= f) log = f () (log ++ ks) := pure_bind _ _
  rw [hnote]
  exact hf (log ++ ks)

theorem foldlM {f : β → ι → Logged κ m β} {g : β → ι → m β} (is : List ι) (hf : ∀ b i, Erases (f b i) (g b i)) (b : β) :
    Erases (is.foldlM f b) (is.foldlM g b) := by
  induction is generalizing b with
  | nil => exact .pure b
  | cons i is ih =>
    rw [List.foldlM_cons, List.foldlM_cons]
    exact (hf b i).bind ih

end Erases

section Errors

variable {σ ε : Type}

namespace Logged

variable {E : ε → Prop} {s : σ} {log : List κ}

theorem ensures_pure {Q : β × List κ → σ → Prop} {b : β} (h : Q (b, log) s) :
    Ensures E ((Pure.pure b : Logged κ (StateT σ (Except ε)) β) log) s Q := ⟨h⟩

theorem ensures_note {Q : β × List κ → σ → Prop} {f : Unit → Logged κ (StateT σ (Except ε)) β} {ks : List κ}
    (hf : Ensures E (f () (log ++ ks)) s Q) : Ensures E ((note ks >>= f) log) s Q := ⟨hf.outcome⟩

theorem ensures_silent {y : StateT σ (Except ε) α} {P : α → σ → Prop} {Q : β × List κ → σ → Prop}
    {f : α → Logged κ (StateT σ (Except ε)) β} (hy : Ensures E y s P)
    (hf : ∀ a s', P a s' → Ensures E (f a log) s' Q) : Ensures E ((silent y >>= f) log) s Q := by
  rw [silent_bind]
  exact hy.bind hf

/-- **Step by step**, with the log of what came before. -/
theorem ensures_bind {x : Logged κ (StateT σ (Except ε)) α} {P : α × List κ → σ → Prop} {Q : β × List κ → σ → Prop}
    {f : α → Logged κ (StateT σ (Except ε)) β} (hx : Ensures E (x log) s P)
    (hf : ∀ r s', P r s' → Ensures E (f r.1 r.2) s' Q) : Ensures E ((x >>= f) log) s Q := hx.bind hf

end Logged

variable {x : Logged κ (Except ε) α} {r : Except ε α}

/-- The copy returns what the original returns. -/
theorem Erases.ok_iff (h : Erases x r) (log : List κ) {a : α} : r = .ok a ↔ ∃ log', x log = .ok (a, log') := by
  rw [← h log]
  rcases x log with e | ⟨b, log'⟩
  · constructor
    · intro hr
      cases hr
    · rintro ⟨_, hx⟩
      cases hx
  · constructor
    · intro hr
      cases hr
      exact ⟨log', rfl⟩
    · rintro ⟨_, hx⟩
      cases hx
      rfl

/-- The copy fails as the original fails. -/
theorem Erases.error_iff (h : Erases x r) (log : List κ) {e : ε} : r = .error e ↔ x log = .error e := by
  rw [← h log]
  rcases x log with e' | ⟨b, log'⟩
  · constructor <;> intro hr <;> cases hr <;> rfl
  · constructor <;> intro hr <;> cases hr

/-- **What the copy ensures**, the original ensures. -/
theorem Erases.ensures {E : ε → Prop} {x : Logged κ (StateT σ (Except ε)) α} {y : StateT σ (Except ε) α} {s : σ}
    {P : α × List κ → σ → Prop} {log : List κ} (h : Erases x y) (hx : Ensures E (x log) s P) :
    Ensures E y s fun a s' => ∃ log', x log s = .ok ((a, log'), s') ∧ P (a, log') s' := by
  rw [← h log]
  refine (hx.with_run.mono ?_).map
  rintro r s' ⟨hrun, hP⟩
  exact ⟨r.2, hrun, hP⟩

end Errors

end Run
