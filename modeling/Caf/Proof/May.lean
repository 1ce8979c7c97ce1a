import Caf.Proof.Random

/-!
# What may be drawn

`May x p Q` says that some random numbers make the program `x` return as `Q` says, from the pool `p`, and that any random
numbers may come after them. So the choices of programs that run one after the other can be made one by one.

* `May.bind`: one program after the other.
* `May.run`: the random numbers.
* `MayFail`: some random numbers make the program fail.
-/

namespace Caf

open Run Caf.Random

variable {α β : Type} {x : FuzzM α} {f : α → FuzzM β} {p : ObjectPool} {Q : α → ObjectPool → Prop}

/-- The program may return as `Q` says. -/
def May (x : FuzzM α) (p : ObjectPool) (Q : α → ObjectPool → Prop) : Prop :=
  ∃ a q, Q a q ∧ ∀ rest, ∃ rnd, x ⟨p, rnd⟩ = .ok (a, ⟨q, rest⟩)

/-- The program may fail. -/
def MayFail (x : FuzzM α) (p : ObjectPool) : Prop := ∃ rnd e, x ⟨p, rnd⟩ = .error e

namespace May

theorem mono {R : α → ObjectPool → Prop} (h : May x p Q) (hQ : ∀ a q, Q a q → R a q) : May x p R := by
  obtain ⟨a, q, ha, hx⟩ := h
  exact ⟨a, q, hQ a q ha, hx⟩

theorem pure {a : α} (h : Q a p) : May (Pure.pure a) p Q := ⟨a, p, h, fun rest => ⟨rest, rfl⟩⟩

/-- **One program after the other**: the numbers for the second come after those for the first. -/
theorem bind {R : β → ObjectPool → Prop} (h : May x p Q) (hf : ∀ a q, Q a q → May (f a) q R) : May (x >>= f) p R := by
  obtain ⟨a, q, ha, hx⟩ := h
  obtain ⟨b, r, hb, hfa⟩ := hf a q ha
  refine ⟨b, r, hb, fun rest => ?_⟩
  obtain ⟨rnd', hrnd'⟩ := hfa rest
  obtain ⟨rnd, hrnd⟩ := hx rnd'
  refine ⟨rnd, ?_⟩
  show (x ⟨p, rnd⟩ >>= fun r => f r.1 r.2) = _
  rw [hrnd]
  exact hrnd'

theorem map {R : β → ObjectPool → Prop} {g : α → β} (h : May x p fun a q => R (g a) q) : May (g <$> x) p R := by
  rw [← bind_pure_comp]
  exact h.bind fun a q ha => pure ha

/-- The random numbers for it. -/
theorem run (h : May x p Q) : ∃ rnd a s, x ⟨p, rnd⟩ = .ok (a, s) ∧ Q a s.pool := by
  obtain ⟨a, q, ha, hx⟩ := h
  obtain ⟨rnd, hrnd⟩ := hx fun _ => 0
  exact ⟨rnd, a, _, hrnd, ha⟩

/-- A program that does not draw. -/
theorem of_eq {a : α} {q : ObjectPool} (hx : ∀ rnd, x ⟨p, rnd⟩ = .ok (a, ⟨q, rnd⟩)) (h : Q a q) : May x p Q :=
  ⟨a, q, h, fun rest => ⟨rest, hx rest⟩⟩

/-- One turn of a loop after the other. -/
theorem mapM {ι : Type} {f : ι → FuzzM α} (I : List α → ObjectPool → Prop) {l : List ι} (h₀ : I [] p)
    (hstep : ∀ done, ∀ i ∈ l, ∀ q, I done q → May (f i) q fun a q' => I (done ++ [a]) q') :
    May (l.mapM f) p fun as q => as.length = l.length ∧ I as q := by
  suffices hgen : ∀ (rest : List ι), (∀ i ∈ rest, i ∈ l) → ∀ done p, I done p →
      May (rest.mapM f) p fun as q => as.length = rest.length ∧ I (done ++ as) q from
    hgen l (fun _ hi => hi) [] p h₀
  intro rest
  induction rest with
  | nil =>
    intro _ done p hI
    rw [List.mapM_nil]
    exact pure ⟨rfl, by rwa [List.append_nil]⟩
  | cons i rest ih =>
    intro hmem done p hI
    rw [List.mapM_cons]
    refine (hstep done i (hmem i List.mem_cons_self) p hI).bind fun a q ha => ?_
    refine (ih (fun j hj => hmem j (List.mem_cons_of_mem _ hj)) (done ++ [a]) q ha).bind fun as r has => pure ⟨?_, ?_⟩
    · rw [List.length_cons, has.1, List.length_cons]
    · have := has.2
      rwa [List.append_assoc, List.singleton_append] at this

/-! ## Draws -/

/-- Any raw number may be drawn. -/
theorem draw (n : ℕ) : May draw p fun m q => m = n ∧ q = p :=
  ⟨n, p, ⟨rfl, rfl⟩, fun rest => ⟨fun k => if k = 0 then n else rest (k - 1), rfl⟩⟩

/-- Any number of the range. -/
theorem next {min max k : ℕ} (hmin : min ≤ k) (hmax : k ≤ max) : May (next min max) p fun n q => n = k ∧ q = p := by
  unfold Random.next
  rw [if_pos (by omega)]
  refine (draw (k - min)).bind ?_
  rintro m q ⟨rfl, rfl⟩
  refine pure ⟨?_, rfl⟩
  rw [Nat.mod_eq_of_lt (by omega)]
  omega

/-- Any element. -/
theorem select {l : List α} {a : α} (ha : a ∈ l) : May (select l) p fun b q => b = a ∧ q = p := by
  obtain ⟨i, hi, hget⟩ := List.getElem_of_mem ha
  unfold Random.select
  rw [if_neg (by simpa using List.ne_nil_of_mem ha)]
  have hlast : lastIndex l.length = l.length - 1 := if_neg (by omega)
  refine (next (Nat.zero_le i) (by rw [hlast]; omega)).bind ?_
  rintro _ q ⟨rfl, rfl⟩
  rw [List.getElem?_eq_getElem hi]
  exact pure ⟨hget, rfl⟩

/-- A probability strictly between 0 and 1 leaves both open. -/
theorem withProbability {x : Double} (hpos : 0 < x) (hone : x < one) (b : Bool) :
    May (withProbability x) p fun c q => c = b ∧ q = p := by
  have hne : x ≠ 0 := by
    rintro rfl
    exact absurd hpos (by decide)
  have hle : ¬ one ≤ x := UInt64.not_le.2 hone
  unfold Random.withProbability
  rw [if_neg hne, if_neg hle]
  unfold nextDouble nextReal
  cases b with
  | true =>
    refine ((draw 0).bind (Q := fun m q => m = 0 ∧ q = p) (R := fun y q => y = 0 ∧ q = p) ?_).bind ?_
    · rintro m q ⟨rfl, rfl⟩
      exact pure ⟨by decide, rfl⟩
    · rintro y q ⟨rfl, rfl⟩
      exact pure ⟨by simpa using hpos, rfl⟩
  | false =>
    refine ((draw one.toNat).bind (R := fun y q => y = one ∧ q = p) ?_).bind ?_
    · rintro m q ⟨rfl, rfl⟩
      exact pure ⟨by decide, rfl⟩
    · rintro y q ⟨rfl, rfl⟩
      refine pure ⟨?_, rfl⟩
      simpa using UInt64.le_of_lt hone

end May

namespace MayFail

/-- A failure ends the program. -/
theorem first (h : MayFail x p) : MayFail (x >>= f) p := by
  obtain ⟨rnd, e, hx⟩ := h
  refine ⟨rnd, e, ?_⟩
  show (x ⟨p, rnd⟩ >>= fun r => f r.1 r.2) = _
  rw [hx]
  rfl

/-- A failure after what may be. -/
theorem after (h : May x p Q) (hf : ∀ a q, Q a q → MayFail (f a) q) : MayFail (x >>= f) p := by
  obtain ⟨a, q, ha, hx⟩ := h
  obtain ⟨rnd', e, he⟩ := hf a q ha
  obtain ⟨rnd, hrnd⟩ := hx rnd'
  refine ⟨rnd, e, ?_⟩
  show (x ⟨p, rnd⟩ >>= fun r => f r.1 r.2) = _
  rw [hrnd]
  exact he

theorem throw (e : Error) : MayFail (throw e : FuzzM α) p := ⟨fun _ => 0, e, rfl⟩

end MayFail

end Caf
