import Caf.Ir.Valid
import Caf.Proof.StubApi
import Mathlib.Tactic.IntervalCases

/-!
# The generated functions are well formed

* `blockValid_callApi`: the blocks of an API function, wherever they stand.
* `valid_generateStub`: **all functions that the generator makes are well formed**.
-/

namespace Caf

open Ir CAFCodeGeneratorForNodejs

/-- Registers are numbered as they are made, and the first block may be filled last. -/
theorem nodup_registers (m n : ℕ) : (List.range' n m ++ List.range' 0 n).Nodup := by
  refine List.nodup_append.mpr ⟨List.nodup_range', List.nodup_range', fun a ha b hb => ?_⟩
  simp only [List.mem_range'_1] at ha hb
  omega

/-! ## `caf_dispatch_malloc_value_of_type` and `__caf_main` -/

/-- The registers that are available in the blocks of the loop of the case for arrays, whose kind is 7. -/
def mallocAvailable (b : ℕ) : List ℕ :=
  if (kindStart 7).1 < b ∧ b ≤ (kindStart 7).1 + 3 then
    [(kindStart 7).2 + 3, (kindStart 7).2 + 8, (kindStart 7).2 + 9]
  else []

theorem blockValid_mallocBlocks : ∀ b : Fin mallocBlocks.length,
    BlockValid mallocBlocks.length mallocAvailable b (mallocBlocks.get b) := by
  decide +kernel

theorem valid_mallocBlocks : (⟨mallocBlocks⟩ : Ir.Function Symbol).Valid := by
  have hresults : mallocBlocks.flatMap Block.results =
      List.range' mallocEntryRegister (mallocEntryInsts mallocEntryRegister).length ++
        List.range' 0 mallocEntryRegister := by
    decide +kernel
  refine Function.valid_of_blocks mallocAvailable (by simp [mallocBlocks]) rfl (fun b block hb => ?_) ?_
  · obtain ⟨hlt, rfl⟩ := List.getElem?_eq_some_iff.mp hb
    exact blockValid_mallocBlocks ⟨b, hlt⟩
  · rw [hresults]
    exact nodup_registers _ _

/-- The register that is available in the blocks of the loop. -/
def mainAvailable : ℕ → List ℕ
  | 1 | 2 => [5]
  | _ => []

theorem blockValid_mainBlocks : ∀ b : Fin mainBlocks.length,
    BlockValid mainBlocks.length mainAvailable b (mainBlocks.get b) := by
  decide +kernel

theorem valid_mainBlocks : (⟨mainBlocks⟩ : Ir.Function Symbol).Valid := by
  have hresults : mainBlocks.flatMap Block.results = List.range' 0 30 := rfl
  refine Function.valid_of_blocks mainAvailable (by simp [mainBlocks]) rfl (fun b block hb => ?_) ?_
  · obtain ⟨hlt, rfl⟩ := List.getElem?_eq_some_iff.mp hb
    exact blockValid_mainBlocks ⟨b, hlt⟩
  · rw [hresults]
    exact List.nodup_range'

/-! ## `__caf_dispatch_callbackfuncarr` -/

theorem assigns_candidateInsts (n : ℕ) : ∀ (i : ℕ) (ds : List ℕ),
    Assigns ds ((List.range' i n).flatMap candidateInsts) := by
  induction n with
  | zero =>
    intro i ds
    trivial
  | succ n ih =>
    intro i ds
    rw [List.range'_succ, List.flatMap_cons, assigns_append]
    refine ⟨?_, ih _ _⟩
    simp [candidateInsts, Assigns, Op.uses, Op.operands, Operand.uses]

theorem results_candidateInsts (n : ℕ) : ∀ i : ℕ,
    ((List.range' i n).flatMap candidateInsts).map (·.result) = List.range' (3 * i) (3 * n) := by
  induction n with
  | zero => intro i; rfl
  | succ n ih =>
    intro i
    rw [List.range'_succ, List.flatMap_cons, List.map_append, ih, show 3 * (n + 1) = 3 + 3 * n by omega,
      ← List.range'_append]
    rfl

theorem valid_candidateBlocks (n : ℕ) : (⟨candidateBlocks n⟩ : Ir.Function Symbol).Valid := by
  have hmem : ∀ inst ∈ (List.range n).flatMap candidateInsts,
      inst.op.isTerminator = false ∧ inst.op.targets = [] ∧ inst.op.caseValues = [] := by
    intro inst hinst
    obtain ⟨i, -, hi⟩ := List.mem_flatMap.mp hinst
    simp only [candidateInsts, List.mem_cons, List.not_mem_nil, or_false] at hi
    rcases hi with rfl | rfl | rfl <;> exact ⟨rfl, rfl, rfl⟩
  have hresults : (candidateBlocks n).flatMap Block.results = List.range' 0 (3 * n + 2) := by
    have hfirst := results_candidateInsts n 0
    rw [← List.range_eq_range', Nat.mul_zero] at hfirst
    simp only [candidateBlocks, List.flatMap_cons, Block.results, List.map_append, hfirst, List.flatMap_nil,
      List.append_nil]
    rw [← List.range'_append, Nat.zero_add, Nat.one_mul, List.append_assoc]
    rfl
  refine Function.valid_of_blocks (fun _ => []) (by simp [candidateBlocks]) rfl (fun b block hb => ?_) ?_
  · have hlt : b < 2 := (List.getElem?_eq_some_iff.mp hb).1
    interval_cases b <;> cases hb
    · refine ⟨EndsOnce.append (fun inst hinst => (hmem inst hinst).1) rfl, fun t ht => ?_, fun inst hinst => ?_, ?_⟩
      · obtain ⟨inst, hinst, ht⟩ := List.mem_flatMap.mp ht
        rcases List.mem_append.mp hinst with hinst | hinst
        · simp [(hmem inst hinst).2.1] at ht
        · obtain rfl := List.mem_singleton.mp hinst
          obtain rfl := List.mem_singleton.mp ht
          simp [candidateBlocks]
      · rcases List.mem_append.mp hinst with hinst | hinst
        · simp [(hmem inst hinst).2.2]
        · obtain rfl := List.mem_singleton.mp hinst
          exact List.nodup_nil
      · rw [assigns_append, List.range_eq_range']
        exact ⟨assigns_candidateInsts n 0 [], by simp [Assigns, Op.uses, Op.operands]⟩
    · exact ⟨rfl, by simp [Block.targets, Op.targets], by simp [Op.caseValues], by simp [Assigns, Op.uses, Op.operands]⟩
  · rw [hresults]
    exact List.nodup_range'

/-! ## `__caf_dispatch_api` -/

theorem results_callApiBlocks (name : StdString) (caseCounter j k : ℕ) :
    (callApiBlocks name caseCounter j k).flatMap Block.results = List.range' k 42 := rfl

theorem results_callApisBlocks (names : List StdString) : ∀ caseCounter j k,
    (callApisBlocks caseCounter names j k).flatMap Block.results = List.range' k (42 * names.length) := by
  induction names with
  | nil => intro _ _ _; rfl
  | cons name names ih =>
    intro caseCounter j k
    rw [callApisBlocks, List.flatMap_append, results_callApiBlocks, ih, List.length_cons, Nat.mul_succ,
      Nat.add_comm (42 * names.length) 42, ← List.range'_append, Nat.one_mul]

/-- The registers that are available in the blocks of a loop over arguments. -/
def dispatchAvailable (functions b : ℕ) : List ℕ :=
  if 4 * functions < b ∨ (b - 1) % 4 = 0 then []
  else [42 * ((b - 1) / 4) + 9, 42 * ((b - 1) / 4) + 14, 42 * ((b - 1) / 4) + 15, 42 * ((b - 1) / 4) + 18]

theorem dispatchAvailable_first (functions i : ℕ) : dispatchAvailable functions (1 + 4 * i) = [] := by
  rw [dispatchAvailable, if_pos (by omega)]

theorem dispatchAvailable_loop {functions i t : ℕ} (hi : i < functions) (ht : 0 < t) (ht' : t < 4) :
    dispatchAvailable functions (1 + 4 * i + t) = [42 * i + 9, 42 * i + 14, 42 * i + 15, 42 * i + 18] := by
  rw [dispatchAvailable, if_neg (by omega), show (1 + 4 * i + t - 1) / 4 = i by omega]

/-- **The blocks of an API function.** -/
theorem blockValid_callApi (name : StdString) {functions i t : ℕ} (hi : i < functions) {block : Block Symbol}
    (hblock : (callApiBlocks name i (1 + 4 * i) (42 * i))[t]? = some block) :
    BlockValid (4 * functions + 3) (dispatchAvailable functions) (1 + 4 * i + t) block := by
  have hlt : t < 4 := (List.getElem?_eq_some_iff.mp hblock).1
  have hfirst := dispatchAvailable_first functions i
  have hcond := dispatchAvailable_loop (t := 1) hi (by omega) (by omega)
  have hbody := dispatchAvailable_loop (t := 2) hi (by omega) (by omega)
  have hend := dispatchAvailable_loop (t := 3) hi (by omega) (by omega)
  interval_cases t <;> cases hblock
  · -- the first block goes to the head of the loop
    refine ⟨by simp [EndsOnce, printfInsts, readInsts, Op.isTerminator], fun t ht => ?_,
      by simp [printfInsts, readInsts, Op.caseValues], ?_⟩
    · have htarget : t = 1 + 4 * i + 1 := by
        simpa [Block.targets, printfInsts, readInsts, Op.targets] using ht
      rw [htarget, hcond]
      refine ⟨by omega, ?_⟩
      simp [Block.results, printfInsts, readInsts]
    · simp [printfInsts, readInsts, Assigns, Op.uses, Op.operands, Operand.uses]
  · refine ⟨by simp [EndsOnce, loopCondInsts,
      Op.isTerminator], fun t ht => ?_, by simp [loopCondInsts, Op.caseValues], ?_⟩
    · have htarget : t = 1 + 4 * i + 2 ∨ t = 1 + 4 * i + 3 := by
        simpa [Block.targets, loopCondInsts, Op.targets] using ht
      rw [hcond]
      rcases htarget with rfl | rfl
      · rw [hbody]
        exact ⟨by omega, List.subset_append_left _ _⟩
      · rw [hend]
        exact ⟨by omega, List.subset_append_left _ _⟩
    · rw [hcond]
      simp [loopCondInsts, Assigns, Op.uses, Op.operands, Operand.uses]
  · refine ⟨by simp [EndsOnce, loopBodyInsts, loopStoreInsts, Op.isTerminator], fun t ht => ?_,
      by simp [loopBodyInsts, loopStoreInsts, Op.caseValues], ?_⟩
    · have htarget : t = 1 + 4 * i + 1 := by
        simpa [Block.targets, loopBodyInsts, loopStoreInsts, Op.targets] using ht
      rw [htarget, hcond, hbody]
      exact ⟨by omega, List.subset_append_left _ _⟩
    · rw [hbody]
      simp [loopBodyInsts, loopStoreInsts, Assigns, Op.uses, Op.operands, Operand.uses]
  · refine ⟨by simp [EndsOnce, printfInsts, Op.isTerminator], fun t ht => ?_, by simp [printfInsts, Op.caseValues], ?_⟩
    · simp [Block.targets, printfInsts, Op.targets] at ht
    · rw [hend]
      simp [printfInsts, Assigns, Op.uses, Op.operands, Operand.uses]

/-! ## The cases of the `switch` -/

theorem map_fst_apiCases (n : ℕ) : ∀ caseCounter j,
    (apiCases caseCounter n j).map Prod.fst = (List.range' caseCounter n).map Int32.ofNat := by
  induction n with
  | zero => intro _ _; rfl
  | succ n ih =>
    intro caseCounter j
    rw [apiCases, List.map_cons, ih, List.range'_succ, List.map_cons]

theorem map_snd_apiCases (n : ℕ) : ∀ caseCounter j,
    (apiCases caseCounter n j).map Prod.snd = (List.range n).map fun i => j + 4 * i := by
  induction n with
  | zero => intro _ _; rfl
  | succ n ih =>
    intro caseCounter j
    rw [apiCases, List.map_cons, ih, List.range_succ_eq_map, List.map_cons, List.map_map]
    congr 1
    refine List.map_congr_left fun i _ => ?_
    simp only [Function.comp_apply]
    omega

/-- Different functions have different ids. -/
theorem nodup_apiCases {n : ℕ} (hn : n ≤ 2 ^ 32) (j : ℕ) : ((apiCases 0 n j).map Prod.fst).Nodup := by
  rw [map_fst_apiCases]
  refine List.Nodup.map_on (fun a ha b hb hab => ?_) List.nodup_range'
  simp only [List.mem_range'_1, Nat.zero_add] at ha hb
  have hmod := congrArg (fun n : Int32 => n.toUInt32.toNat) hab
  have hnat : ∀ m : ℕ, (Int32.ofNat m).toUInt32.toNat = m % 2 ^ 32 := fun m => rfl
  simp only [hnat] at hmod
  rwa [Nat.mod_eq_of_lt (by omega), Nat.mod_eq_of_lt (by omega)] at hmod

theorem length_dispatchBlocks {names : List StdString} (hne : names ≠ []) :
    (dispatchBlocks names).length = 4 * names.length + 3 := by
  simp [dispatchBlocks_of_ne_nil hne, length_callApisBlocks]

/-- The block with the `switch`. -/
theorem blockValid_switch {n : ℕ} (hn : 0 < n) (hn' : n ≤ 2 ^ 32) :
    BlockValid (4 * n + 3) (dispatchAvailable n) 0
      (⟨"caf.dispatch.entry", [⟨42 * n, .switch (.arg 0) (4 * n + 1) (apiCases 0 n 1)⟩]⟩ : Block Symbol) := by
  refine ⟨rfl, fun t ht => ?_, ?_, by simp [Assigns, Op.uses, Op.operands, Operand.uses]⟩
  · have htarget : t = 4 * n + 1 ∨ ∃ i < n, t = 1 + 4 * i := by
      simp only [Block.targets, Op.targets, List.flatMap_cons, List.flatMap_nil, List.append_nil, List.mem_cons,
        map_snd_apiCases, List.mem_map, List.mem_range] at ht
      rcases ht with ht | ⟨i, hi, ht⟩
      · exact .inl ht
      · exact .inr ⟨i, hi, ht.symm⟩
    rcases htarget with rfl | ⟨i, hi, rfl⟩
    · rw [dispatchAvailable, if_pos (by omega)]
      exact ⟨by omega, List.nil_subset _⟩
    · rw [dispatchAvailable_first]
      exact ⟨by omega, List.nil_subset _⟩
  · intro inst hinst
    obtain rfl := List.mem_singleton.mp hinst
    exact nodup_apiCases hn' 1

theorem valid_dispatchBlocks {names : List StdString} (hnames : names.length ≤ 2 ^ 32) :
    (⟨dispatchBlocks names⟩ : Ir.Function Symbol).Valid := by
  by_cases hne : names = []
  · subst hne
    refine Function.valid_of_blocks (fun _ => []) (by simp [
      dispatchBlocks]) rfl (fun b block hb => ?_) (List.nodup_singleton 0)
    have hlt : b < 1 := (List.getElem?_eq_some_iff.mp hb).1
    interval_cases b
    cases hb
    exact ⟨rfl, by simp [Block.targets, Op.targets], by simp [Op.caseValues], by simp [Assigns, Op.uses, Op.operands]⟩
  have hpos : 0 < names.length := List.length_pos_of_ne_nil hne
  have hlen := length_dispatchBlocks hne
  have hcalls := length_callApisBlocks names 0 1 0
  refine Function.valid_of_blocks (dispatchAvailable names.length) (by simp [dispatchBlocks, hne]) rfl
    (fun b block hb => ?_) ?_
  · have hlt : b < 4 * names.length + 3 := by
      rw [← hlen]
      exact (List.getElem?_eq_some_iff.mp hb).1
    show BlockValid (dispatchBlocks names).length _ _ _
    rw [hlen]
    rcases Nat.eq_zero_or_pos b with rfl | hb₀
    · rw [dispatchBlocks_of_ne_nil hne] at hb
      cases hb
      exact blockValid_switch hpos hnames
    · by_cases hb₁ : b ≤ 4 * names.length
      · obtain ⟨i, t, ht, rfl⟩ : ∃ i t, t < 4 ∧ b = 1 + 4 * i + t := ⟨(b - 1) / 4, (b - 1) % 4, by omega, by omega⟩
        have hi : i < names.length := by omega
        rw [getElem?_dispatchBlocks (List.getElem?_eq_getElem hi) ht] at hb
        exact blockValid_callApi _ hi hb
      · obtain ⟨c, rfl⟩ : ∃ c, b = c + 1 := ⟨b - 1, by omega⟩
        rw [dispatchBlocks_of_ne_nil hne] at hb
        simp only [List.getElem?_cons_succ] at hb
        rw [List.getElem?_append_right (by omega), hcalls] at hb
        rcases Nat.lt_or_ge c (4 * names.length + 1) with hc | hc
        · obtain rfl : c = 4 * names.length := by omega
          rw [Nat.sub_self] at hb
          cases hb
          refine ⟨rfl, fun t ht => ?_, by simp [Op.caseValues], by simp [Assigns, Op.uses, Op.operands]⟩
          obtain rfl : t = 4 * names.length + 2 := by simpa [Block.targets, Op.targets] using ht
          rw [dispatchAvailable, if_pos (by omega)]
          exact ⟨by omega, List.nil_subset _⟩
        · obtain rfl : c = 4 * names.length + 1 := by omega
          rw [Nat.add_sub_cancel_left] at hb
          cases hb
          exact ⟨rfl, by simp [Block.targets, Op.targets], by simp [Op.caseValues],
            by simp [Assigns, Op.uses, Op.operands]⟩
  · have hresults : (dispatchBlocks names).flatMap Block.results =
        42 * names.length :: (List.range' 0 (42 * names.length) ++ [42 * names.length + 1, 42 * names.length + 2]) := by
      rw [dispatchBlocks_of_ne_nil hne, List.flatMap_cons, List.flatMap_append, results_callApisBlocks]
      rfl
    show ((dispatchBlocks names).flatMap Block.results).Nodup
    rw [hresults]
    refine List.nodup_cons.mpr ⟨by simp, List.nodup_append.mpr ⟨List.nodup_range', by simp, fun a ha c hc => ?_⟩⟩
    simp only [List.mem_range'_1, List.mem_cons, List.not_mem_nil, or_false] at ha hc
    omega

/-- **All functions that the generator makes are well formed.** -/
theorem valid_generateStub {names : List StdString} (hnames : names.length ≤ 2 ^ 32) :
    ∀ fn ∈ generateStub names, fn.2.Valid := by
  intro fn hfn
  simp only [generateStub, List.mem_cons, List.not_mem_nil, or_false] at hfn
  rcases hfn with rfl | rfl | rfl | rfl
  · rw [build_generateCallbackFunctionCandidateArray]
    exact valid_candidateBlocks names.length
  · rw [build_createDispatchMallocValueOfType]
    exact valid_mallocBlocks
  · rw [build_createDispatchFunctionForApi]
    exact valid_dispatchBlocks hnames
  · rw [build_createCafMain]
    exact valid_mainBlocks

theorem valid_generateStub_two :
    (Builder.build (createDispatchFunctionForApi [text "fs.readFile", text "fs.writeFile"])).Valid :=
  @valid_generateStub [text "fs.readFile", text "fs.writeFile"] (by decide)
    (.dispatchApi, Builder.build (createDispatchFunctionForApi [text "fs.readFile", text "fs.writeFile"]))
    (by simp [generateStub])

end Caf
