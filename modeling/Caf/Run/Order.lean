import Mathlib.Data.List.Induction

/-!
# What comes first

`EachAfter P l` says of each element of a list how it fits those before it; a list grows at its end, and so does
what is known of it (`eachAfter_concat`). `firsts` keeps the first occurrence of each element.

* `eachAfter_firsts`: first occurrences decide what more elements before do not spoil.
-/

namespace Run

variable {α : Type*}

/-- Each element fits those before it. -/
def EachAfter (P : List α → α → Prop) (l : List α) : Prop := ∀ before a after, l = before ++ a :: after → P before a

variable {P : List α → α → Prop} {l seen : List α} {a b : α}

theorem eachAfter_nil : EachAfter P [] := by
  intro before a after h
  simp at h

/-- **One more element.** -/
theorem eachAfter_concat : EachAfter P (l ++ [a]) ↔ EachAfter P l ∧ P l a := by
  constructor
  · intro h
    constructor
    · intro before b after hl
      exact h before b (after ++ [a]) (by rw [hl, List.append_assoc, List.cons_append])
    · exact h l a [] rfl
  · intro ⟨h, ha⟩ before b after hl
    rcases List.eq_nil_or_concat after with rfl | ⟨after, x, rfl⟩
    · -- `b` is the new one
      obtain ⟨rfl, hb⟩ := List.append_inj' hl rfl
      rwa [← List.head_eq_of_cons_eq hb]
    · have hl' : l ++ [a] = (before ++ b :: after) ++ [x] := by
        rw [hl, List.concat_eq_append, List.append_assoc, List.cons_append]
      obtain ⟨rfl, -⟩ := List.append_inj' hl' rfl
      exact h before b after rfl

/-- An element that occurs fits some of those before it. -/
theorem EachAfter.mem (h : EachAfter P l) (ha : a ∈ l) : ∃ before, before ⊆ l ∧ P before a := by
  obtain ⟨before, after, rfl⟩ := List.append_of_mem ha
  exact ⟨before, List.subset_append_left _ _, h before a after rfl⟩

variable [DecidableEq α]

/-- Add an element that is new. -/
def meet (seen : List α) (a : α) : List α := if a ∈ seen then seen else seen ++ [a]

theorem mem_meet : b ∈ meet seen a ↔ b ∈ seen ∨ b = a := by
  unfold meet
  split
  · rename_i ha
    constructor
    · exact Or.inl
    · rintro (hb | rfl)
      · exact hb
      · exact ha
  · rw [List.mem_append, List.mem_singleton]

theorem meet_of_mem (ha : a ∈ seen) : meet seen a = seen := if_pos ha

/-- The elements, in the order of their first occurrences. -/
def firsts (l : List α) : List α := l.foldl meet []

theorem firsts_concat : firsts (l ++ [a]) = meet (firsts l) a := by
  rw [firsts, List.foldl_append]
  rfl

theorem mem_firsts : b ∈ firsts l ↔ b ∈ l := by
  induction l using List.reverseRecOn with
  | nil => exact Iff.rfl
  | append_singleton l a ih => rw [firsts_concat, mem_meet, ih, List.mem_append, List.mem_singleton]

/-- **First occurrences decide** what more elements before do not spoil. -/
theorem eachAfter_firsts (hmono : ∀ before before' a, before ⊆ before' → P before a → P before' a) :
    EachAfter P (firsts l) ↔ EachAfter P l := by
  induction l using List.reverseRecOn with
  | nil => exact Iff.rfl
  | append_singleton l a ih =>
    rw [firsts_concat, eachAfter_concat]
    by_cases ha : a ∈ l
    · rw [meet_of_mem (mem_firsts.2 ha), ih]
      constructor
      · intro h
        obtain ⟨before, hsub, hP⟩ := h.mem ha
        exact ⟨h, hmono before l a hsub hP⟩
      · exact And.left
    · have hnew : meet (firsts l) a = firsts l ++ [a] := if_neg fun hm => ha (mem_firsts.1 hm)
      rw [hnew, eachAfter_concat, ih]
      have hP : P (firsts l) a ↔ P l a :=
        ⟨hmono _ _ a fun b hb => mem_firsts.1 hb, hmono _ _ a fun b hb => mem_firsts.2 hb⟩
      rw [hP]

end Run
