import Mathlib.Data.List.Induction
import Mathlib.Data.List.Infix

/-!
# Components between doubled separators

A list is cut, from left to right, at each doubled separator `x x` that stands outside. What outside means is a
parameter, a predicate on the part of the component in front of the separator.

* `Cut.intercalate`: the components joined by the separators are the list.
* `Cut.split`: a separator outside that does not overlap with another one is a place where the list is cut.
-/

namespace Components

variable {α : Type} {x : α} {outside : List α → Prop} {c rest front back s t : List α} {cs : List (List α)}

/-- No separator stands outside. -/
def NoSeparator (x : α) (outside : List α → Prop) (s : List α) : Prop :=
  ∀ front back, s = front ++ x :: x :: back → ¬ outside front

/-- The first separator outside is the one between `c` and `rest`. -/
structure FirstSeparator (x : α) (outside : List α → Prop) (c rest : List α) : Prop where
  closed : outside c
  first : ∀ front back, c ++ x :: x :: rest = front ++ x :: x :: back → outside front → c.length ≤ front.length

/-- The components of a list. -/
inductive Cut (x : α) (outside : List α → Prop) : List α → List (List α) → Prop
  | last {s : List α} (h : NoSeparator x outside s) : Cut x outside s [s]
  | cons {c rest : List α} {cs : List (List α)} (h : FirstSeparator x outside c rest) (hrest : Cut x outside rest cs) :
    Cut x outside (c ++ x :: x :: rest) (c :: cs)

/-- Any other separator outside overlaps with the first one or is behind it. -/
theorem FirstSeparator.cases (h : FirstSeparator x outside c rest) (heq : c ++ x :: x :: rest = front ++ x :: x :: back)
    (hout : outside front) :
    front = c ∨ front = c ++ [x] ∨ ∃ front', front = c ++ x :: x :: front' ∧ rest = front' ++ x :: x :: back := by
  have hlen := h.first front back heq hout
  obtain ⟨t, rfl, ht⟩ : ∃ t, front = c ++ t ∧ x :: x :: rest = t ++ x :: x :: back := by
    rcases List.append_eq_append_iff.1 heq with ⟨t, rfl, ht⟩ | ⟨t, rfl, ht⟩
    · exact ⟨t, rfl, ht⟩
    · have hnil : t = [] := by
        apply List.eq_nil_of_length_eq_zero
        rw [List.length_append] at hlen
        omega
      subst hnil
      exact ⟨[], by simp, ht.symm⟩
  rcases t with - | ⟨y, - | ⟨z, t⟩⟩
  · exact Or.inl (List.append_nil c)
  · cases ht
    exact Or.inr (Or.inl rfl)
  · cases ht
    exact Or.inr (Or.inr ⟨t, rfl, rfl⟩)

namespace Cut

theorem ne_nil (h : Cut x outside s cs) : cs ≠ [] := by
  cases h <;> exact List.cons_ne_nil _ _

theorem of_singleton (h : Cut x outside s [c]) : NoSeparator x outside s := by
  cases h with
  | last h => exact h
  | cons h hrest => exact absurd rfl hrest.ne_nil

theorem of_cons (h : Cut x outside (c ++ x :: x :: rest) (c :: cs)) (hcs : cs ≠ []) :
    FirstSeparator x outside c rest ∧ Cut x outside rest cs := by
  generalize hs : c ++ x :: x :: rest = s at h
  cases h with
  | last h => exact absurd rfl hcs
  | @cons _ rest' _ h hrest =>
    have heq : rest = rest' := by simpa using hs
    subst heq
    exact ⟨h, hrest⟩

/-- A list is cut in one way. -/
theorem unique {ds : List (List α)} (h : Cut x outside s cs) (h' : Cut x outside s ds) : cs = ds := by
  induction h generalizing ds with
  | @last s h =>
    cases h' with
    | last h' => rfl
    | cons h' hrest' => exact absurd h'.closed (h _ _ rfl)
  | @cons c rest cs h hrest ih =>
    generalize hs : c ++ x :: x :: rest = s at h'
    cases h' with
    | last h' => exact absurd h.closed (h' _ _ hs.symm)
    | @cons c' rest' ds h' hrest' =>
      have hle := h.first c' rest' hs h'.closed
      have hge := h'.first c rest hs.symm h.closed
      obtain ⟨rfl, heq⟩ := List.append_inj hs (by omega)
      cases heq
      rw [ih hrest']

/-- **The components joined by the separators are the list.** -/
theorem intercalate (h : Cut x outside s cs) : [x, x].intercalate cs = s := by
  induction h with
  | last h => simp [List.intercalate]
  | @cons c rest cs h hrest ih =>
    obtain ⟨d, ds, rfl⟩ := List.exists_cons_of_ne_nil hrest.ne_nil
    rw [← ih]
    simp [List.intercalate]

/-- **The list is cut at each separator outside**, if the separator does not overlap with one before it. -/
theorem split (hout : ∀ u v, outside u → outside (u ++ x :: x :: v) → outside v) (hs : outside s)
    (hx : s.getLast? ≠ some x) (h : Cut x outside (s ++ x :: x :: t) cs) :
    ∃ cs₁ cs₂, cs = cs₁ ++ cs₂ ∧ Cut x outside t cs₂ := by
  generalize hst : s ++ x :: x :: t = st at h
  induction h generalizing s with
  | last h => exact absurd hs (h s t hst.symm)
  | @cons c rest cs h hrest ih =>
    rcases h.cases hst.symm hs with rfl | rfl | ⟨s', rfl, hrest'⟩
    · have htrest : t = rest := by simpa using hst
      exact ⟨[s], cs, rfl, htrest ▸ hrest⟩
    · exact absurd (by simp) hx
    · have hlast : s'.getLast? ≠ some x := by
        intro hlast
        apply hx
        rw [List.getLast?_append, List.getLast?_cons, List.getLast?_cons, hlast]
        rfl
      obtain ⟨cs₁, cs₂, rfl, hcut⟩ := ih (hout c s' h.closed hs) hlast hrest'.symm
      exact ⟨c :: cs₁, cs₂, rfl, hcut⟩

end Cut

end Components
