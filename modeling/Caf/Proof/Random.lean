import Caf.Spec.Mutator

/-!
# What is drawn

`Draws x Q` says that the program `x` always returns, with a result in `Q`, and changes nothing but the
random number generator.

* `Draws.bind`: one draw after the other.
* `ensures_draw`: a draw, and then the rest of a program.
-/

namespace Caf

open Run Caf.Random

variable {α β : Type} {Q : α → Prop} {x : FuzzM α}

/-- The program draws a result in `Q`, and touches nothing but the random number generator. -/
def Draws (x : FuzzM α) (Q : α → Prop) : Prop :=
  ∀ s, ∃ a rnd, x s = .ok (a, { s with rnd := rnd }) ∧ Q a

/-- **A draw, and then the rest** of a program. -/
theorem ensures_draw {E : Error → Prop} {f : α → FuzzM β} {s : Fuzzer} {R : β → Fuzzer → Prop} (hx : Draws x Q)
    (hf : ∀ a rnd, Q a → Ensures E (f a) { s with rnd := rnd } R) : Ensures E (x >>= f) s R := by
  obtain ⟨a, rnd, hxs, hQ⟩ := hx s
  refine Ensures.bind (P := fun b s' => b = a ∧ s' = { s with rnd := rnd }) (.of_eq hxs ⟨rfl, rfl⟩) ?_
  rintro b s' ⟨rfl, rfl⟩
  exact hf b rnd hQ

namespace Draws

theorem mono {Q' : α → Prop} (h : Draws x Q) (hQ : ∀ a, Q a → Q' a) : Draws x Q' := by
  intro s
  obtain ⟨a, rnd, hx, ha⟩ := h s
  exact ⟨a, rnd, hx, hQ a ha⟩

theorem pure {a : α} (h : Q a) : Draws (Pure.pure a) Q := fun s => ⟨a, s.rnd, rfl, h⟩

/-- One draw after the other. -/
theorem bind {R : β → Prop} {f : α → FuzzM β} (hx : Draws x Q) (hf : ∀ a, Q a → Draws (f a) R) :
    Draws (x >>= f) R := by
  intro s
  obtain ⟨a, rnd, hxs, hQ⟩ := hx s
  obtain ⟨b, rnd', hfs, hR⟩ := hf a hQ { s with rnd := rnd }
  refine ⟨b, rnd', ?_, hR⟩
  show (x s >>= fun p => f p.1 p.2) = _
  rw [hxs]
  exact hfs

/-- A draw in each turn of a loop. -/
theorem mapM {ι : Type} {f : ι → FuzzM α} {l : List ι} (hf : ∀ i ∈ l, Draws (f i) Q) :
    Draws (l.mapM f) fun as => as.length = l.length ∧ ∀ a ∈ as, Q a := by
  induction l with
  | nil =>
    rw [List.mapM_nil]
    exact pure ⟨rfl, by simp⟩
  | cons i l ih =>
    rw [List.mapM_cons]
    refine (hf i List.mem_cons_self).bind fun a ha => ?_
    refine (ih fun j hj => hf j (List.mem_cons_of_mem _ hj)).bind fun as has => pure ⟨by simp [has.1], ?_⟩
    intro b hb
    rcases List.mem_cons.1 hb with rfl | hb
    · exact ha
    · exact has.2 b hb

theorem draw : Draws draw fun _ => True := fun s => ⟨s.rnd 0, fun n => s.rnd (n + 1), rfl, trivial⟩

/-- A number from a range that is not empty. -/
theorem next {min max : ℕ} (h : min ≤ max) : Draws (next min max) fun n => min ≤ n ∧ n ≤ max := by
  intro s
  obtain ⟨n, rnd, hmin, hmax, hnext⟩ := next_ok s h
  exact ⟨n, rnd, hnext, hmin, hmax⟩

theorem nextInt {min max : Int} (h : min ≤ max) : Draws (nextInt min max) fun _ => True := by
  unfold Random.nextInt
  rw [if_pos h]
  exact draw.bind fun _ _ => pure trivial

theorem nextReal (max : Double) : Draws (nextReal max) fun _ => True := draw.bind fun _ _ => pure trivial

theorem nextSigned (max : Double) : Draws (nextSigned max) fun _ => True :=
  draw.bind fun _ _ => (nextReal max).bind fun _ _ => pure trivial

theorem withProbability (p : Double) : Draws (withProbability p) fun _ => True := by
  unfold Random.withProbability
  split
  · exact pure trivial
  · split
    · exact pure trivial
    · exact (nextReal one).bind fun _ _ => pure trivial

/-- An element of a container that is not empty. -/
theorem select {l : List α} (h : l ≠ []) : Draws (select l) fun a => a ∈ l := by
  intro s
  obtain ⟨a, rnd, hmem, hselect⟩ := select_mem s h
  exact ⟨a, rnd, hselect, hmem⟩

/-- An index of a container that is not empty. -/
theorem index {l : List α} (h : l ≠ []) : Draws (index l) fun n => n < l.length := by
  unfold Random.index
  rw [if_neg (by simpa using h)]
  refine (next (Nat.zero_le _)).mono fun n hn => ?_
  exact lastIndex_lt (fun h₀ => h (List.length_eq_zero_iff.1 h₀)) hn.2

theorem nextString {min max : ℕ} (h : min ≤ max) {charset : StdString} (hc : charset ≠ []) :
    Draws (nextString min max charset) fun str => min ≤ str.length ∧ str.length ≤ max := by
  refine (next h).bind fun length hlength => (mapM fun _ _ => select hc).mono fun str hstr => ?_
  rwa [hstr.1, List.length_replicate]

theorem generateStringCharacter : Draws TestCaseGenerator.generateStringCharacter fun _ => True :=
  (select (by decide)).mono fun _ _ => trivial

theorem orUndefined (o : Option Int32) : Draws (TestCaseMutator.orUndefined o) fun _ => True := by
  cases o with
  | some value => exact pure trivial
  | none => exact draw.bind fun _ _ => pure trivial

/-- Two elements that are there are exchanged. -/
theorem swapped {l : List α} {i j : ℕ} (hi : i < l.length) (hj : j < l.length) :
    Draws (TestCaseMutator.swapped l i j) fun l' => l' = (l.set i l[j]).set j l[i] := by
  unfold TestCaseMutator.swapped
  rw [List.getElem?_eq_getElem hi, List.getElem?_eq_getElem hj]
  exact pure rfl

end Draws

end Caf
