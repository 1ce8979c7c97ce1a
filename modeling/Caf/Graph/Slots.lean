import Caf.Graph.Steps

/-!
# Slot counts

The number of slots in use after each value of a forest, in the order in which the values
begin. A reader that follows the forest of a walk has the same count as the walk at every
point, and its references stay below it.

* `Walk.scoped`: the references of a walk's forest are below the slots in use.
* `Forest.marks`, `stepMarks`: the slot counts after each value and each step.
-/

namespace ObjectGraph

universe u

variable {L M : Type*} {O : Type u}

namespace Forest

/-- Every reference designates a slot taken before it, when `n` slots are in use. -/
def Scoped : ℕ → Forest L → Prop
  | _, nil => True
  | n, leaf _ rest => rest.Scoped n
  | n, back k rest => k < n ∧ rest.Scoped n
  | n, node sub rest => sub.Scoped (n + 1) ∧ rest.Scoped (n + 1 + sub.slots)

/-- The slot counts after each value, a node counted before its successors. -/
def marks : ℕ → Forest L → List ℕ
  | _, nil => []
  | n, leaf _ rest => n :: rest.marks n
  | n, back _ rest => n :: rest.marks n
  | n, node sub rest => (n + 1) :: sub.marks (n + 1) ++ rest.marks (n + 1 + sub.slots)

end Forest

/-- The slots that a step takes, the one of its result included. -/
def Step.slots (st : Step O (Forest L)) : ℕ := st.head.slots + st.args.slots + 1

/-- The references of all steps are below the slots in use. -/
def ScopedSteps : ℕ → List (Step O (Forest L)) → Prop
  | _, [] => True
  | n, st :: Fs =>
    st.head.Scoped n ∧ st.args.Scoped (n + st.head.slots) ∧ ScopedSteps (n + st.slots) Fs

/-- The slot counts after each value and each step. -/
def stepMarks : ℕ → List (Step O (Forest L)) → List ℕ
  | _, [] => []
  | n, st :: Fs =>
    st.head.marks n ++ st.args.marks (n + st.head.slots) ++ (n + st.slots) :: stepMarks (n + st.slots) Fs

variable {g : Graph L} {i : ℕ} {S S' : List Referent} {as : List ℕ} {F : Forest L}
  {steps : List (Step O (List ℕ))} {Fs : List (Step O (Forest L))}

/-- **References are below the slots in use.** -/
theorem Walk.scoped (h : Walk g S as F S') : F.Scoped S.length := by
  induction h with
  | nil => trivial
  | leaf _ _ ih => exact ih
  | result _ hk _ ih => exact ⟨(List.getElem?_eq_some_iff.1 hk).1, ih⟩
  | seen _ hk _ ih => exact ⟨(List.getElem?_eq_some_iff.1 hk).1, ih⟩
  | node _ _ h₁ _ ih₁ ih₂ =>
    have hlen := h₁.length_slots
    rw [List.length_append, List.length_singleton] at ih₁ hlen
    exact ⟨ih₁, hlen ▸ ih₂⟩

theorem WalkSteps.scoped (h : WalkSteps g i S steps Fs S') : ScopedSteps S.length Fs := by
  induction h with
  | nil => trivial
  | cons h₁ h₂ _ ih =>
    refine ⟨h₁.scoped, h₁.length_slots ▸ h₂.scoped, ?_⟩
    rw [List.length_append, List.length_singleton, h₂.length_slots, h₁.length_slots] at ih
    simpa [Step.slots, Nat.add_assoc] using ih

theorem WalkSteps.length_slots (h : WalkSteps g i S steps Fs S') :
    S'.length = S.length + (Fs.map Step.slots).sum := by
  induction h with
  | nil => simp
  | cons h₁ h₂ _ ih =>
    rw [ih, List.length_append, List.length_singleton, h₂.length_slots, h₁.length_slots]
    simp [Step.slots]; omega

end ObjectGraph
