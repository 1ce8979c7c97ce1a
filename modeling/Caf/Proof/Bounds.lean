import Caf.Proof.Serialize

/-!
# What fits in 32 bits

If the ids, counts and lengths of a test case fit in 32 bits, every field of its bytes holds
what is written into it.
-/

namespace Caf

open ObjectGraph

variable {H : Heap} {tc : TestCase} {S S' : List Referent} {as : List Addr} {F : Forest Literal}
  {Fs : List (Step CallOp (Forest Literal))}

/-- What is reachable from `a` has lengths below `2 ^ 32`. -/
def FitsFrom (H : Heap) (a : Addr) : Prop :=
  ∀ b, Reach H.graph a b → (∀ l, H.graph b = some (.leaf l) → l.Fits) ∧
    ∀ es, H.graph b = some (.node es) → es.length < 2 ^ 32

theorem FitsFrom.succ {a b : Addr} {es : List Addr} (h : FitsFrom H a) (ha : H.graph a = some (.node es))
    (hb : b ∈ es) : FitsFrom H b :=
  fun c hc => h c (.head ⟨es, ha, hb⟩ hc)

theorem fits_of_walk (h : Walk H.graph S as F S') (has : ∀ a ∈ as, FitsFrom H a)
    (hS : S'.length ≤ 2 ^ 32) : FitsForest F := by
  induction h with
  | nil => trivial
  | @leaf S a l as F S' ha _ ih =>
    exact ⟨(has a List.mem_cons_self a .refl).1 l ha, ih (fun b hb => has b (List.mem_cons_of_mem _ hb)) hS⟩
  | @result S a i k as F S' _ hk hw ih =>
    have hlt := (List.getElem?_eq_some_iff.1 hk).1
    have hle := hw.prefix_slots.length_le
    exact ⟨by omega, ih (fun b hb => has b (List.mem_cons_of_mem _ hb)) hS⟩
  | @seen S a es k as F S' _ hk hw ih =>
    have hlt := (List.getElem?_eq_some_iff.1 hk).1
    have hle := hw.prefix_slots.length_le
    exact ⟨by omega, ih (fun b hb => has b (List.mem_cons_of_mem _ hb)) hS⟩
  | @node S a es F₁ S₁ as F₂ S' ha _ h₁ h₂ ih₁ ih₂ =>
    have hle := h₂.prefix_slots.length_le
    have hes := (has a List.mem_cons_self a .refl).2 es ha
    exact ⟨h₁.length_eq ▸ hes, ih₁ (fun b hb => (has a List.mem_cons_self).succ ha hb) (by omega),
      ih₂ (fun b hb => has b (List.mem_cons_of_mem _ hb)) hS⟩

theorem fitsThis (h : FitsForest F) (hl : F.length ≤ 1) :
    FitsForest (fillThis F) ∧ (fillThis F).length = 1 := by
  cases F with
  | nil => exact ⟨⟨trivial, trivial⟩, rfl⟩
  | leaf l rest => exact ⟨h, by simp only [Forest.length] at hl; simp only [fillThis, Forest.length]; omega⟩
  | back k rest => exact ⟨h, by simp only [Forest.length] at hl; simp only [fillThis, Forest.length]; omega⟩
  | node sub rest => exact ⟨h, by simp only [Forest.length] at hl; simp only [fillThis, Forest.length]; omega⟩

theorem fits_of_walkSteps {i : ℕ} {calls : List FunctionCall}
    (h : WalkSteps H.graph i S (calls.map FunctionCall.step) Fs S')
    (ha : ∀ call ∈ calls, ∀ a ∈ call.roots, FitsFrom H a)
    (hn : ∀ call ∈ calls, call.args.length < 2 ^ 32) (hS : S'.length ≤ 2 ^ 32) :
    ∀ st ∈ Fs.map fillStep, FitsStep st := by
  induction calls generalizing i S Fs with
  | nil => cases h; intro st hst; cases hst
  | cons call calls ih =>
    cases h with
    | @cons _ _ op as bs F₁ S₁ F₂ S₂ _ Fs _ h₁ h₂ h₃ =>
      have hroots := ha call List.mem_cons_self
      have le₃ := h₃.prefix_slots.length_le
      have le₂ := h₂.prefix_slots.length_le
      rw [List.length_append, List.length_singleton] at le₃
      have hf₁ := fits_of_walk h₁ (fun a ha => hroots a (List.mem_append_left _ ha)) (by omega)
      have hf₂ := fits_of_walk h₂ (fun a ha => hroots a (List.mem_append_right _ ha)) (by omega)
      have hl : F₁.length ≤ 1 := by
        rw [h₁.length_eq]
        cases call.thisValue <;> simp
      intro st hst
      rcases List.mem_cons.1 hst with rfl | hst
      · exact ⟨(fitsThis hf₁ hl).1, (fitsThis hf₁ hl).2,
          by simpa [fillStep, h₂.length_eq] using hn call List.mem_cons_self, hf₂⟩
      · exact ih h₃ (fun c hc => ha c (List.mem_cons_of_mem _ hc))
          (fun c hc => hn c (List.mem_cons_of_mem _ hc)) st hst

/-- The slots of a test case that fits are at most `2 ^ 32`. -/
theorem FitsU32.length_le (hf : FitsU32 H tc) (h : WalkSteps H.graph 0 [] tc.steps Fs S) :
    S.length ≤ 2 ^ 32 := by
  have hnd := h.nodup ResultsBelow.nil List.nodup_nil
  have hr := h.resultsBelow ResultsBelow.nil
  rw [Nat.zero_add, TestCase.steps, List.length_map] at hr
  refine Nat.le_trans (length_le_nodesOf hnd hr) (hf.slots _ (nodup_nodesOf hnd) fun a ha => ?_)
  rcases h.reach_of_mem (mem_nodesOf.1 ha) with hm | ⟨⟨st, hst, r, hr, hra⟩, es, hes⟩
  · cases hm
  · obtain ⟨call, hcall, rfl⟩ := List.mem_map.1 hst
    exact ⟨⟨call, hcall, r, hr, hra⟩, es, Heap.graph_array.1 hes⟩

/-- **Every field of the bytes holds what is written into it.** -/
theorem FitsU32.fitsStep (hf : FitsU32 H tc) (h : WalkSteps H.graph 0 [] tc.steps Fs S) :
    ∀ st ∈ Fs.map fillStep, FitsStep st := by
  refine fits_of_walkSteps h (fun call hcall a ha b hb => ⟨fun l hl => ?_, fun es hes => ?_⟩) hf.args
    (hf.length_le h)
  · cases l with
    | string s => exact hf.strings b s ⟨call, hcall, a, ha, hb⟩ (Heap.graph_literal.1 hl)
    | _ => trivial
  · exact hf.arrays b es ⟨call, hcall, a, ha, hb⟩ (Heap.graph_array.1 hes)

end Caf
