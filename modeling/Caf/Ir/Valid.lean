import Caf.Ir.Program
import Mathlib.Data.List.Nodup

/-!
# Well-formed functions

What a verifier asks of the functions of a program, so that they can be compiled at all.

* `Function.Valid`: blocks end once, branches go to blocks, registers are assigned once, and before they are used.
* `Function.valid_of_blocks`: a function is well formed when its blocks are, with respect to the registers that are
  available at the start of each block.
-/

namespace Ir

variable {N : Type}

namespace Op

/-- The instructions that end a block. -/
def isTerminator : Op N → Bool
  | .br _ | .condBr _ _ _ | .switch _ _ _ | .ret _ => true
  | _ => false

/-- Where a branch may go. -/
def targets : Op N → List ℕ
  | .br target => [target]
  | .condBr _ ifTrue ifFalse => [ifTrue, ifFalse]
  | .switch _ default cases => default :: cases.map Prod.snd
  | _ => []

/-- The values that a `switch` knows. -/
def caseValues : Op N → List Int32
  | .switch _ _ cases => cases.map Prod.fst
  | _ => []

def operands : Op N → List (Operand N)
  | .alloca _ count => [count]
  | .allocaArray _ _ => []
  | .store value address => [value, address]
  | .storeBytes _ address => [address]
  | .load _ address => [address]
  | .bitCast value => [value]
  | .ptrToInt value => [value]
  | .intToPtr value => [value]
  | .gep _ base index => [base, index]
  | .add lhs rhs => [lhs, rhs]
  | .sub lhs rhs => [lhs, rhs]
  | .icmp _ lhs rhs => [lhs, rhs]
  | .call _ args => args
  | .br _ => []
  | .condBr condition _ _ => [condition]
  | .switch value _ _ => [value]
  | .ret value => value.toList

end Op

/-- The register of an operand. -/
def Operand.uses : Operand N → List ℕ
  | .reg r => [r]
  | _ => []

/-- The registers that an instruction reads. -/
def Op.uses (op : Op N) : List ℕ := op.operands.flatMap Operand.uses

namespace Block

def targets (block : Block N) : List ℕ := block.insts.flatMap (·.op.targets)

def results (block : Block N) : List ℕ := block.insts.map (·.result)

end Block

/-- The last instruction ends the block, and no other does. -/
def EndsOnce : List (Inst N) → Prop
  | [] => False
  | [inst] => inst.op.isTerminator
  | inst :: rest => inst.op.isTerminator = false ∧ EndsOnce rest

instance decidableEndsOnce : ∀ l : List (Inst N), Decidable (EndsOnce l)
  | [] => inferInstanceAs (Decidable False)
  | [inst] => inferInstanceAs (Decidable (inst.op.isTerminator = true))
  | inst :: next :: rest =>
    have := decidableEndsOnce (next :: rest)
    inferInstanceAs (Decidable (inst.op.isTerminator = false ∧ EndsOnce (next :: rest)))

/-- Every register is assigned before it is used, when those in `ds` have been assigned before. -/
def Assigns : List ℕ → List (Inst N) → Prop
  | _, [] => True
  | ds, inst :: rest => (∀ r ∈ inst.op.uses, r ∈ ds) ∧ Assigns (ds ++ [inst.result]) rest

instance decidableAssigns : ∀ (ds : List ℕ) (l : List (Inst N)), Decidable (Assigns ds l)
  | _, [] => inferInstanceAs (Decidable True)
  | ds, inst :: rest =>
    have := decidableAssigns (ds ++ [inst.result]) rest
    inferInstanceAs (Decidable ((∀ r ∈ inst.op.uses, r ∈ ds) ∧ Assigns (ds ++ [inst.result]) rest))

/-- `Way fn b ds`: there is a way from the entry to the block `b`, on which the registers `ds` are assigned. -/
inductive Way (fn : Function N) : ℕ → List ℕ → Prop
  | entry : Way fn 0 []
  | jump {b t ds block} : Way fn b ds → fn.blocks[b]? = some block → t ∈ block.targets → Way fn t (ds ++ block.results)

/-- **A well-formed function.** -/
structure Function.Valid (fn : Function N) : Prop where
  entry : fn.blocks ≠ []
  ends : ∀ block ∈ fn.blocks, EndsOnce block.insts
  /-- Branches go to blocks of the function, and never to its entry. -/
  targets : ∀ block ∈ fn.blocks, ∀ t ∈ block.targets, 0 < t ∧ t < fn.blocks.length
  cases : ∀ block ∈ fn.blocks, ∀ inst ∈ block.insts, inst.op.caseValues.Nodup
  results : (fn.blocks.flatMap Block.results).Nodup
  /-- On every way to a block, what the block reads has been assigned. -/
  assigns : ∀ b ds block, Way fn b ds → fn.blocks[b]? = some block → Assigns ds block.insts

/-! ## Availability -/

theorem Assigns.mono {ds ds' : List ℕ} (h : ds ⊆ ds') {l : List (Inst N)} (hl : Assigns ds l) : Assigns ds' l := by
  induction l generalizing ds ds' with
  | nil => trivial
  | cons inst l ih =>
    exact ⟨fun r hr => h (hl.1 r hr), ih (List.append_subset.mpr
      ⟨List.Subset.trans h (List.subset_append_left _ _), List.subset_append_right _ _⟩) hl.2⟩

/-- Straight-line code before the end of a block. -/
theorem EndsOnce.append {l rest : List (Inst N)} (hl : ∀ inst ∈ l, inst.op.isTerminator = false)
    (hrest : EndsOnce rest) :
    EndsOnce (l ++ rest) := by
  induction l with
  | nil => exact hrest
  | cons inst l ih =>
    have hne : l ++ rest ≠ [] := by
      intro hempty
      rw [(List.append_eq_nil_iff.mp hempty).2] at hrest
      exact hrest
    obtain ⟨next, l', hl'⟩ := List.exists_cons_of_ne_nil hne
    have htail := ih fun inst' hinst' => hl inst' (by simp [hinst'])
    rw [List.cons_append, hl'] at *
    exact ⟨hl inst (by simp), htail⟩

theorem assigns_append {ds : List ℕ} {l rest : List (Inst N)} :
    Assigns ds (l ++ rest) ↔ Assigns ds l ∧ Assigns (ds ++ l.map (·.result)) rest := by
  induction l generalizing ds with
  | nil => simp [Assigns]
  | cons inst l ih => simp [Assigns, ih, and_assoc]

/-- The block `b`, in a function with `n` blocks: the registers in `avail` are available at the starts of the blocks. -/
structure BlockValid (n : ℕ) (avail : ℕ → List ℕ) (b : ℕ) (block : Block N) : Prop where
  ends : EndsOnce block.insts
  targets : ∀ t ∈ block.targets, (0 < t ∧ t < n) ∧ avail t ⊆ avail b ++ block.results
  cases : ∀ inst ∈ block.insts, inst.op.caseValues.Nodup
  assigns : Assigns (avail b) block.insts

instance (n : ℕ) (avail : ℕ → List ℕ) (b : ℕ) (block : Block N) : Decidable (BlockValid n avail b block) :=
  decidable_of_iff (EndsOnce block.insts ∧ (∀ t ∈ block.targets, (0 < t ∧ t < n) ∧ avail t ⊆ avail b ++ block.results) ∧
      (∀ inst ∈ block.insts, inst.op.caseValues.Nodup) ∧ Assigns (avail b) block.insts)
    ⟨fun ⟨hends, htargets, hcases, hassigns⟩ => ⟨hends, htargets, hcases, hassigns⟩,
      fun h => ⟨h.ends, h.targets, h.cases, h.assigns⟩⟩

/-- **What is available has been assigned** on every way. -/
theorem Way.available {fn : Function N} {avail : ℕ → List ℕ} (hentry : avail 0 = [])
    (hblocks : ∀ b block, fn.blocks[b]? = some block → BlockValid fn.blocks.length avail b block) {b : ℕ} {ds : List ℕ}
    (h : Way fn b ds) : avail b ⊆ ds := by
  induction h with
  | entry => simp [hentry]
  | @jump b t ds block _ hblock ht ih =>
    have havail := ((hblocks b block hblock).targets t ht).2
    exact List.Subset.trans havail (List.append_subset.mpr
      ⟨List.Subset.trans ih (List.subset_append_left _ _), List.subset_append_right _ _⟩)

/-- **A function is well formed when its blocks are.** -/
theorem Function.valid_of_blocks {fn : Function N} (avail : ℕ → List ℕ) (hne : fn.blocks ≠ []) (hentry : avail 0 = [])
    (hblocks : ∀ b block, fn.blocks[b]? = some block → BlockValid fn.blocks.length avail b block)
    (hresults : (fn.blocks.flatMap Block.results).Nodup) : fn.Valid := by
  have hmem : ∀ block ∈ fn.blocks, ∃ b, BlockValid fn.blocks.length avail b block := by
    intro block hblock
    obtain ⟨b, hb⟩ := List.getElem?_of_mem hblock
    exact ⟨b, hblocks b block hb⟩
  refine ⟨hne, fun block h => ?_, fun block h t ht => ?_, fun block h => ?_, hresults, fun b ds block hway hb => ?_⟩
  · obtain ⟨b, hb⟩ := hmem block h
    exact hb.ends
  · obtain ⟨b, hb⟩ := hmem block h
    exact (hb.targets t ht).1
  · obtain ⟨b, hb⟩ := hmem block h
    exact hb.cases
  · exact (hblocks b block hb).assigns.mono (hway.available hentry hblocks)

end Ir
