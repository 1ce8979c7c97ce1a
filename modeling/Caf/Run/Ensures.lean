import Mathlib.Tactic.Common

/-!
# Runs of programs with a state and errors

`Outcome E P` is total correctness up to the errors `E`: the result is as `P` says, or the error is in
`E`. `Ensures E x s P` says it of the program `x` when it is run from the state `s`.

* `Outcome.bind`, `Ensures.bind`: one program after the other.
* `Ensures.mapM`, `Ensures.forM`: the invariant rule for loops.
-/

namespace Run

variable {σ ε α β : Type}

/-- A result as `P` says or an error in `E`. -/
def Outcome (E : ε → Prop) (P : α → Prop) : Except ε α → Prop
  | .ok a => P a
  | .error e => E e

/-- The result of a run on given inputs can be evaluated. -/
instance (E : ε → Prop) (P : α → Prop) [DecidablePred E] [DecidablePred P] : DecidablePred (Outcome E P)
  | .ok a => inferInstanceAs (Decidable (P a))
  | .error e => inferInstanceAs (Decidable (E e))

namespace Outcome

variable {E : ε → Prop} {P Q : α → Prop} {r : Except ε α}

/-- A result without an error. -/
theorem returns (h : Outcome (fun _ => False) P r) : ∃ a, r = .ok a ∧ P a := by
  rcases r with e | a
  · cases h
  · exact ⟨a, rfl, h⟩

theorem mono (h : Outcome E P r) (hPQ : ∀ a, P a → Q a) : Outcome E Q r := by
  rcases r with e | a
  · exact h
  · exact hPQ a h

/-- One computation after the other. -/
theorem bind {R : β → Prop} {f : α → Except ε β} (hr : Outcome E P r) (hf : ∀ a, P a → Outcome E R (f a)) :
    Outcome E R (r >>= f) := by
  rcases r with e | a
  · exact hr
  · exact hf a hr

end Outcome

/-- Run from `s`, the program returns as `P` says or stops with an error in `E`. -/
structure Ensures (E : ε → Prop) (x : StateT σ (Except ε) α) (s : σ) (P : α → σ → Prop) : Prop where
  outcome : Outcome E (fun r => P r.1 r.2) (x s)

variable {E : ε → Prop} {x : StateT σ (Except ε) α} {f : α → StateT σ (Except ε) β} {s : σ}

theorem ensures_iff {P : α → σ → Prop} : Ensures E x s P ↔
    (∀ a s', x s = .ok (a, s') → P a s') ∧ ∀ e, x s = .error e → E e := by
  constructor
  · rintro ⟨h⟩
    constructor
    · intro a s' hx
      rwa [hx] at h
    · intro e hx
      rwa [hx] at h
  · rintro ⟨hok, herror⟩
    refine ⟨?_⟩
    rcases hx : x s with e | ⟨a, s'⟩
    · exact herror e hx
    · exact hok a s' hx

namespace Ensures

/-- What holds of a program that returned. -/
theorem of_ok {P : α → σ → Prop} (h : Ensures E x s P) {a : α} {s' : σ} (hx : x s = .ok (a, s')) : P a s' :=
  (ensures_iff.1 h).1 a s' hx

/-- A program returns if none of its errors is possible. -/
theorem returns {P : α → σ → Prop} (h : Ensures E x s P) (hE : ∀ e, ¬ E e) :
    ∃ a s', x s = .ok (a, s') ∧ P a s' := by
  rcases hx : x s with e | ⟨a, s'⟩
  · exact absurd ((ensures_iff.1 h).2 e hx) (hE e)
  · exact ⟨a, s', rfl, h.of_ok hx⟩

theorem mono {P Q : α → σ → Prop} (h : Ensures E x s P) (hPQ : ∀ a s', P a s' → Q a s') : Ensures E x s Q :=
  ensures_iff.2 ⟨fun a s' hx => hPQ a s' (h.of_ok hx), (ensures_iff.1 h).2⟩

theorem excuse {D : ε → Prop} {P : α → σ → Prop} (h : Ensures E x s P) (hE : ∀ e, E e → D e) :
    Ensures D x s P :=
  ensures_iff.2 ⟨(ensures_iff.1 h).1, fun e he => hE e ((ensures_iff.1 h).2 e he)⟩

/-- What is ensured is ensured of a run. -/
theorem with_run {P : α → σ → Prop} (h : Ensures E x s P) :
    Ensures E x s fun a s' => x s = .ok (a, s') ∧ P a s' :=
  ensures_iff.2 ⟨fun _ _ hx => ⟨hx, h.of_ok hx⟩, (ensures_iff.1 h).2⟩

/-- Two results about the same run. -/
theorem and {E' : ε → Prop} {P Q : α → σ → Prop} (h : Ensures E x s P) (h' : Ensures E' x s Q) :
    Ensures E x s fun a s' => P a s' ∧ Q a s' :=
  ensures_iff.2 ⟨fun _ _ hx => ⟨h.of_ok hx, h'.of_ok hx⟩, (ensures_iff.1 h).2⟩

/-- The one run there is. -/
theorem of_eq {P : α → σ → Prop} {a : α} {s' : σ} (hx : x s = .ok (a, s')) (h : P a s') : Ensures E x s P :=
  ⟨by rw [hx]; exact h⟩

theorem of_error {P : α → σ → Prop} {e : ε} (hx : x s = .error e) (h : E e) : Ensures E x s P :=
  ⟨by rw [hx]; exact h⟩

theorem pure {P : α → σ → Prop} {a : α} (h : P a s) : Ensures E (Pure.pure a) s P := ⟨h⟩

theorem throw {P : α → σ → Prop} {e : ε} (h : E e) : Ensures E (throw e : StateT σ (Except ε) α) s P := ⟨h⟩

/-- **One program after the other.** -/
theorem bind {P : α → σ → Prop} {Q : β → σ → Prop} (hx : Ensures E x s P)
    (hf : ∀ a s', P a s' → Ensures E (f a) s' Q) : Ensures E (x >>= f) s Q :=
  ⟨hx.outcome.bind fun r hr => (hf r.1 r.2 hr).outcome⟩

theorem map {P : β → σ → Prop} {g : α → β} (h : Ensures E x s fun a s' => P (g a) s') :
    Ensures E (g <$> x) s P := by
  rw [← bind_pure_comp]
  exact h.bind fun a s' hP => .pure hP

/-- **The invariant rule**, for a loop that collects what its turns return. -/
theorem mapM {ι : Type} {f : ι → StateT σ (Except ε) α} (I : List α → σ → Prop) {l : List ι} (h₀ : I [] s)
    (hstep : ∀ done i s, l[done.length]? = some i → I done s → Ensures E (f i) s fun a s' => I (done ++ [a]) s') :
    Ensures E (l.mapM f) s fun as s' => as.length = l.length ∧ I as s' := by
  suffices hgen : ∀ (rest : List ι) done s, I done s → (∀ k, rest[k]? = l[done.length + k]?) →
      Ensures E (rest.mapM f) s fun as s' => as.length = rest.length ∧ I (done ++ as) s' from
    hgen l [] s h₀ fun k => by simp
  intro rest
  induction rest with
  | nil =>
    intro done s hI _
    rw [List.mapM_nil]
    exact ⟨rfl, by rwa [List.append_nil]⟩
  | cons i rest ih =>
    intro done s hI hrest
    rw [List.mapM_cons]
    have hi : l[done.length]? = some i := by simpa using (hrest 0).symm
    refine (hstep done i s hi hI).bind fun a s₁ h₁ => ?_
    have hnext : ∀ k, rest[k]? = l[(done ++ [a]).length + k]? := by
      intro k
      have := hrest (k + 1)
      rw [List.getElem?_cons_succ] at this
      rw [this]
      congr 1
      simp only [List.length_append, List.length_cons, List.length_nil]
      omega
    refine (ih (done ++ [a]) s₁ h₁ hnext).bind fun as s₂ h₂ => ?_
    refine ⟨by simp [h₂.1], ?_⟩
    have := h₂.2
    rwa [List.append_assoc, List.singleton_append] at this

/-- The invariant rule for a loop that collects nothing. -/
theorem forM {ι : Type} {f : ι → StateT σ (Except ε) PUnit} (I : σ → Prop) {l : List ι} (h₀ : I s)
    (hstep : ∀ i ∈ l, ∀ s, I s → Ensures E (f i) s fun _ s' => I s') : Ensures E (forM l f) s fun _ s' => I s' := by
  induction l generalizing s with
  | nil => exact .pure h₀
  | cons i l ih =>
    rw [List.forM_cons]
    exact (hstep i List.mem_cons_self s h₀).bind fun _ s₁ h₁ =>
      ih h₁ fun j hj => hstep j (List.mem_cons_of_mem _ hj)

/-- The invariant rule for a loop that counts its turns. -/
theorem forM_range {f : ℕ → StateT σ (Except ε) PUnit} (I : ℕ → σ → Prop) {size : ℕ} (h₀ : I 0 s)
    (hstep : ∀ k s, k < size → I k s → Ensures E (f k) s fun _ s' => I (k + 1) s') :
    Ensures E (ForM.forM (List.range size) f) s fun _ s' => I size s' := by
  suffices hgen : ∀ n k s, k + n = size → I k s →
      Ensures E (ForM.forM (List.range' k n) f) s fun _ s' => I size s' by
    rw [List.range_eq_range']
    exact hgen size 0 s (Nat.zero_add _) h₀
  intro n
  induction n with
  | zero =>
    intro k s hk hI
    rw [Nat.add_zero] at hk
    subst hk
    exact .pure hI
  | succ n ih =>
    intro k s hk hI
    rw [List.range'_succ, List.forM_cons]
    exact (hstep k s (by omega) hI).bind fun _ s₁ h₁ => ih (k + 1) s₁ (by omega) h₁

end Ensures

end Run
