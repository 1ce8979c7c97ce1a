import Caf.Proof.Fuzzing

/-!
# Test cases without shared arrays

No array occurs twice in what a fuzzer comes to: every position has its own. So walking such a test case never
meets an array again, and all references in what is written for it are to return values.

* `Made.follow_unique`: positions among values with arrays of their own.
* `fuzzed_treeShaped`: the test cases of a fuzzer.
-/

namespace Caf

open ObjectGraph Run

variable {h : Heap} {as T : List Addr} {a b c : Addr} {p q : List ℕ} {tc : TestCase} {calls : List FunctionCall}

/-! ## Positions -/

theorem follow_cons {i : ℕ} (hf : h.follow (i :: p) a = some c) :
    ∃ es e, h[a]? = some (.array es) ∧ es[i]? = some e ∧ h.follow p e = some c := by
  unfold Heap.follow at hf
  split at hf
  · rename_i es hes
    obtain ⟨e, he, hfollow⟩ := Option.bind_eq_some_iff.1 hf
    exact ⟨es, e, hes, he, hfollow⟩
  · cases hf

theorem follow_reach (hf : h.follow p a = some c) : Reach h.graph a c := by
  induction p generalizing a with
  | nil =>
    cases hf
    exact .refl
  | cons i p ih =>
    obtain ⟨es, e, hes, he, hfollow⟩ := follow_cons hf
    exact .head (succ_iff.2 ⟨es, hes, List.mem_of_getElem? he⟩) (ih hfollow)

/-- The array at the end of a path is among those of the values. -/
theorem Made.follow_mem (hm : Made (fun _ => True) h as T) {i : ℕ} (ha : as[i]? = some a) (hf : h.follow p a = some c)
    (hc : IsArray h c) : c ∈ T := by
  obtain ⟨es, hes⟩ := hc
  exact hm.mem_of_reach (List.mem_of_getElem? ha) (follow_reach hf) hes

/-- **An array has one position** among values with arrays of their own, by induction on how they are made. -/
theorem Made.follow_unique (hm : Made (fun _ => True) h as T) (hT : T.Nodup) {i j : ℕ} (ha : as[i]? = some a)
    (hb : as[j]? = some b) (hp : h.follow p a = some c) (hq : h.follow q b = some c) (hc : IsArray h c) :
    i = j ∧ p = q := by
  induction hm generalizing a b c p q i j with
  | nil => cases ha
  | @flat x v as T hv hne _ _ ih =>
    have hnot : ∀ r, h.follow r x ≠ some c := by
      intro r hr
      cases r with
      | nil =>
        cases hr
        obtain ⟨es, hes⟩ := hc
        rw [hv] at hes
        exact hne es (Option.some.inj hes)
      | cons k r =>
        obtain ⟨es, -, hes, -⟩ := follow_cons hr
        rw [hv] at hes
        exact hne es (Option.some.inj hes)
    cases i with
    | zero =>
      cases ha
      exact absurd hp (hnot p)
    | succ i =>
      cases j with
      | zero =>
        cases hb
        exact absurd hq (hnot q)
      | succ j =>
        obtain ⟨rfl, rfl⟩ := ih hT ha hb hp hq hc
        exact ⟨rfl, rfl⟩
  | @array x es T₁ as T₂ hes _ h₁ h₂ ih₁ ih₂ =>
    obtain ⟨hx, hnd⟩ := List.nodup_cons.1 hT
    obtain ⟨hnd₁, hnd₂, hdis⟩ := List.nodup_append.1 hnd
    have hbelow : ∀ {k r}, h.follow (k :: r) x = some c → c ∈ T₁ := by
      intro k r hr
      obtain ⟨fs, e, hfs, he, hfollow⟩ := follow_cons hr
      rw [hes] at hfs
      cases hfs
      exact h₁.follow_mem he hfollow hc
    have hself : ∀ {r}, h.follow r x = some c → c = x ∨ c ∈ T₁ := by
      intro r hr
      cases r with
      | nil =>
        cases hr
        exact .inl rfl
      | cons k r => exact .inr (hbelow hr)
    -- the arrays of the other roots are others
    have hother : ∀ {r} {n : ℕ} {y}, as[n]? = some y → h.follow r y = some c → ¬ (c = x ∨ c ∈ T₁) := by
      intro r n y hy hr hmem
      have hc₂ := h₂.follow_mem hy hr hc
      rcases hmem with rfl | hmem
      · exact hx (List.mem_append_right _ hc₂)
      · exact hdis c hmem c hc₂ rfl
    cases i with
    | zero =>
      cases ha
      cases j with
      | succ j => exact absurd (hself hp) (hother hb hq)
      | zero =>
        cases hb
        refine ⟨rfl, ?_⟩
        -- both paths start at the array, and a path that goes on does not come back to it
        cases p with
        | nil =>
          cases hp
          cases q with
          | nil => rfl
          | cons k q => exact absurd (List.mem_append_left _ (hbelow hq)) hx
        | cons k p =>
          cases q with
          | nil =>
            cases hq
            exact absurd (List.mem_append_left _ (hbelow hp)) hx
          | cons k' q =>
            obtain ⟨fs, e, hfs, he, hp'⟩ := follow_cons hp
            obtain ⟨fs', e', hfs', he', hq'⟩ := follow_cons hq
            rw [hes] at hfs hfs'
            cases hfs
            cases hfs'
            obtain ⟨rfl, rfl⟩ := ih₁ hnd₁ he he' hp' hq' hc
            rfl
    | succ i =>
      cases j with
      | zero =>
        cases hb
        exact absurd (hself hq) (hother ha hp)
      | succ j =>
        obtain ⟨rfl, rfl⟩ := ih₂ hnd₂ ha hb hp hq hc
        exact ⟨rfl, rfl⟩

/-- The elements of an array that can be reached have arrays of their own, too. -/
theorem Made.deeper (hm : Made (fun _ => True) h as T) (hT : T.Nodup) (ha : a ∈ as) (hab : Reach h.graph a b)
    {es : List Addr}
    (hes : h[b]? = some (.array es)) : ∃ S, Made (fun _ => True) h es S ∧ b ∉ S := by
  induction hm generalizing a with
  | nil => cases ha
  | flat hv hne _ _ ih =>
    rcases List.mem_cons.1 ha with rfl | ha
    · rcases Relation.ReflTransGen.cases_head hab with rfl | ⟨d, hd, -⟩
      · rw [hv] at hes
        exact absurd (Option.some.inj hes) (hne es)
      · obtain ⟨fs, hfs, -⟩ := succ_iff.1 hd
        rw [hv] at hfs
        exact absurd (Option.some.inj hfs) (hne fs)
    · exact ih hT ha hab
  | @array x fs T₁ as T₂ hfs _ h₁ _ ih₁ ih₂ =>
    obtain ⟨hx, hnd⟩ := List.nodup_cons.1 hT
    obtain ⟨hnd₁, hnd₂, -⟩ := List.nodup_append.1 hnd
    rcases List.mem_cons.1 ha with rfl | ha
    · rcases Relation.ReflTransGen.cases_head hab with rfl | ⟨d, hd, hdb⟩
      · rw [hfs] at hes
        cases hes
        exact ⟨T₁, h₁, fun hmem => hx (List.mem_append_left _ hmem)⟩
      · obtain ⟨gs, hgs, hmem⟩ := succ_iff.1 hd
        rw [hfs] at hgs
        cases hgs
        exact ih₁ hnd₁ hmem hdb
    · exact ih₂ hnd₂ ha hab

/-- **No array reaches itself.** -/
theorem Made.acyclic (hm : Made (fun _ => True) h as T) (hT : T.Nodup) (ha : a ∈ as) (hab : Reach h.graph a b) :
    ¬ Relation.TransGen (Succ h.graph) b b := by
  intro hcycle
  obtain ⟨d, hd, hdb⟩ := Relation.TransGen.head'_iff.1 hcycle
  obtain ⟨es, hes, hmem⟩ := succ_iff.1 hd
  obtain ⟨S, hS, hb⟩ := hm.deeper hT ha hab hes
  exact hb (hS.mem_of_reach hmem hdb hes)

/-- The positions in calls. -/
theorem Made.calls_unique (hm : Made (fun _ => True) h (calls.flatMap FunctionCall.roots) T) (hT : T.Nodup)
    {n m i j : ℕ}
    {call call' : FunctionCall} (hn : calls[n]? = some call) (hm' : calls[m]? = some call')
    (ha : call.roots[i]? = some a) (hb : call'.roots[j]? = some b) (hp : h.follow p a = some c)
    (hq : h.follow q b = some c) (hc : IsArray h c) : n = m ∧ i = j ∧ p = q := by
  induction calls generalizing n m T with
  | nil => cases hn
  | cons first calls ih =>
    rw [List.flatMap_cons] at hm
    obtain ⟨T₁, T₂, rfl, h₁, h₂⟩ := hm.split rfl
    obtain ⟨hnd₁, hnd₂, hdis⟩ := List.nodup_append.1 hT
    have hrest : ∀ {k l : ℕ} {d : FunctionCall} {y r}, calls[k]? = some d → d.roots[l]? = some y →
      h.follow r y = some c → c ∈ T₂ := by
      intro k l d y r hd hy hr
      have hmem : y ∈ calls.flatMap FunctionCall.roots :=
        List.mem_flatMap.2 ⟨d, List.mem_of_getElem? hd, List.mem_of_getElem? hy⟩
      obtain ⟨es, hes⟩ := hc
      exact h₂.mem_of_reach hmem (follow_reach hr) hes
    cases n with
    | zero =>
      cases hn
      cases m with
      | zero =>
        cases hm'
        exact ⟨rfl, h₁.follow_unique hnd₁ ha hb hp hq hc⟩
      | succ m => exact absurd rfl (hdis c (h₁.follow_mem ha hp hc) c (hrest hm' hb hq))
    | succ n =>
      cases m with
      | zero =>
        cases hm'
        exact absurd rfl (hdis c (h₁.follow_mem hb hq hc) c (hrest hn ha hp))
      | succ m =>
        obtain ⟨rfl, hij, hpq⟩ := ih h₂ hnd₂ hn hm'
        exact ⟨rfl, hij, hpq⟩

/-- **Arrays of their own** make a tree. -/
theorem OwnArrays.treeShaped (ho : OwnArrays h tc.roots) : TreeShaped h tc := by
  obtain ⟨T, hm, hT⟩ := ho
  refine ⟨fun p q a hp hq harr => ?_, fun a ha => ?_⟩
  · obtain ⟨call, hcall, hp⟩ := Option.bind_eq_some_iff.1 hp
    obtain ⟨x, hx, hp⟩ := Option.bind_eq_some_iff.1 hp
    obtain ⟨call', hcall', hq⟩ := Option.bind_eq_some_iff.1 hq
    obtain ⟨y, hy, hq⟩ := Option.bind_eq_some_iff.1 hq
    obtain ⟨h₁, h₂, h₃⟩ := hm.calls_unique hT hcall hcall' hx hy hp hq harr
    cases p
    cases q
    cases h₁
    cases h₂
    cases h₃
    rfl
  · obtain ⟨call, hcall, r, hr, hreach⟩ := ha
    exact hm.acyclic hT (List.mem_flatMap.2 ⟨call, hcall, hr⟩) hreach

/-! ## References -/

/-- **A walk of values with arrays of their own** meets none of them again. -/
theorem Made.backs_results {S S' : List Referent} {F : Forest Literal} (hm : Made (fun _ => True) h as T) (hT : T.Nodup)
    (hw : Walk h.graph S as F S') (hnew : ∀ b ∈ T, .node b ∉ S) : ∀ k ∈ F.backs, ∃ i, S'[k]? = some (.result i) := by
  induction hw generalizing T with
  | nil => simp [Forest.backs]
  | leaf ha _ ih =>
    obtain ⟨T₁, T₂, rfl, -, h₂⟩ := hm.uncons
    exact ih h₂ (List.nodup_append.1 hT).2.1 fun b hb => hnew b (List.mem_append_right _ hb)
  | @result S a i k as F S' ha hk hw ih =>
    obtain ⟨T₁, T₂, rfl, -, h₂⟩ := hm.uncons
    have hrest := ih h₂ (List.nodup_append.1 hT).2.1 fun b hb => hnew b (List.mem_append_right _ hb)
    intro l hl
    rcases List.mem_cons.1 hl with rfl | hl
    · exact ⟨i, getElem?_grows hw.prefix_slots hk⟩
    · exact hrest l hl
  | @seen S a es k as F S' ha hk _ _ =>
    -- an array of its own has no slot yet
    have hmem : a ∈ T := hm.mem_of_reach List.mem_cons_self .refl (Heap.graph_array.1 ha)
    exact absurd (List.mem_of_getElem? hk) (hnew a hmem)
  | @node S a es F₁ S₁ as F₂ S' ha hn hw₁ hw₂ ih₁ ih₂ =>
    cases hm with
    | flat hv hne _ _ =>
      rw [Heap.graph_array.1 ha] at hv
      exact absurd (Option.some.inj hv).symm (hne es)
    | @array _ fs T₁ _ T₂ hfs _ h₁ h₂ =>
      rw [Heap.graph_array.1 ha] at hfs
      cases hfs
      obtain ⟨hx, hnd⟩ := List.nodup_cons.1 hT
      obtain ⟨hnd₁, hnd₂, hdis⟩ := List.nodup_append.1 hnd
      have hold₁ : ∀ b ∈ T₁, .node b ∉ S ++ [.node a] := by
        intro b hb hmem
        rcases List.mem_append.1 hmem with hmem | hmem
        · exact hnew b (List.mem_cons_of_mem _ (List.mem_append_left _ hb)) hmem
        · cases List.mem_singleton.1 hmem
          exact hx (List.mem_append_left _ hb)
      have hold₂ : ∀ b ∈ T₂, .node b ∉ S₁ := by
        intro b hb hmem
        rcases hw₁.reach_of_mem hmem with hmem | ⟨⟨e, he, hreach⟩, gs, hgs⟩
        · rcases List.mem_append.1 hmem with hmem | hmem
          · exact hnew b (List.mem_cons_of_mem _ (List.mem_append_right _ hb)) hmem
          · cases List.mem_singleton.1 hmem
            exact hx (List.mem_append_right _ hb)
        · exact hdis b (h₁.mem_of_reach he hreach (Heap.graph_array.1 hgs)) b hb rfl
      intro k hk
      rcases List.mem_append.1 hk with hk | hk
      · obtain ⟨i, hi⟩ := ih₁ h₁ hnd₁ hold₁ k hk
        exact ⟨i, getElem?_grows hw₂.prefix_slots hi⟩
      · exact ih₂ h₂ hnd₂ hold₂ k hk

/-- The steps of a test case, one after the other. -/
theorem steps_backs_results {i : ℕ} {S S' : List Referent} {Fs : List (Step CallOp (Forest Literal))}
    (hm : Made (fun _ => True) h (calls.flatMap FunctionCall.roots) T) (hT : T.Nodup)
    (hw : WalkSteps h.graph i S (calls.map FunctionCall.step) Fs S') (hnew : ∀ b ∈ T, .node b ∉ S) :
    ∀ st ∈ Fs, ∀ k ∈ st.head.backs ++ st.args.backs, ∃ j, S'[k]? = some (.result j) := by
  induction calls generalizing i S T Fs with
  | nil =>
    cases hw
    simp
  | cons call calls ih =>
    rw [List.map_cons] at hw
    cases hw with
    | @cons _ _ _ _ _ F₁ S₁ F₂ S₂ _ Fs _ hw₁ hw₂ hrest =>
      rw [List.flatMap_cons] at hm
      obtain ⟨U, U', rfl, hU, hU'⟩ := hm.split rfl
      obtain ⟨U₁, U₂, rfl, h₁, h₂⟩ := hU.split rfl
      obtain ⟨hnd, hnd', hdis⟩ := List.nodup_append.1 hT
      obtain ⟨hnd₁, hnd₂, hdis'⟩ := List.nodup_append.1 hnd
      have hnew₁ : ∀ b, (b ∈ U₂ ∨ b ∈ U') → .node b ∉ S₁ := by
        intro b hb hmem
        rcases hw₁.reach_of_mem hmem with hmem | ⟨⟨e, he, hreach⟩, gs, hgs⟩
        · exact hnew b (by rcases hb with hb | hb <;> simp [hb]) hmem
        · have hb₁ := h₁.mem_of_reach he hreach (Heap.graph_array.1 hgs)
          rcases hb with hb | hb
          · exact hdis' b hb₁ b hb rfl
          · exact hdis b (List.mem_append_left _ hb₁) b hb rfl
      have hnew₂ : ∀ b ∈ U', .node b ∉ S₂ ++ [.result i] := by
        intro b hb hmem
        have hmem₂ : Referent.node b ∈ S₂ := by simpa using hmem
        rcases hw₂.reach_of_mem hmem₂ with hmem | ⟨⟨e, he, hreach⟩, gs, hgs⟩
        · exact hnew₁ b (.inr hb) hmem
        · exact hdis b (List.mem_append_right _ (h₂.mem_of_reach he hreach (Heap.graph_array.1 hgs))) b hb rfl
      have hS : S₂ <+: S' := (List.prefix_append _ _).trans hrest.prefix_slots
      intro st hst k hk
      rcases List.mem_cons.1 hst with rfl | hst
      · rcases List.mem_append.1 hk with hk | hk
        · obtain ⟨j, hj⟩ := h₁.backs_results hnd₁ hw₁ (fun b hb => hnew b (by simp [hb])) k hk
          exact ⟨j, getElem?_grows (hw₂.prefix_slots.trans hS) hj⟩
        · obtain ⟨j, hj⟩ := h₂.backs_results hnd₂ hw₂ (fun b hb => hnew₁ b (.inl hb)) k hk
          exact ⟨j, getElem?_grows hS hj⟩
      · exact ih hU' hnd' hrest hnew₂ st hst k hk

theorem backs_fillThis (F : Forest Literal) : (fillThis F).backs = F.backs := by
  cases F <;> rfl

/-- **No back reference to an array** is written for arrays of their own. -/
theorem OwnArrays.writesNoArrayReference (ho : OwnArrays h tc.roots) (hw : WellFormed h tc) :
    WritesNoArrayReference h tc := by
  obtain ⟨T, hm, hT⟩ := ho
  obtain ⟨Fs, S, hwalk⟩ := walkSteps_exists hw
  obtain ⟨c, tr, hser, hnumbers, -⟩ := serialize_walk hwalk
  refine ⟨Fs.map fillStep, _, hser, rfl, fun st hst k hk => ?_⟩
  obtain ⟨st₀, hst₀, rfl⟩ := List.mem_map.1 hst
  rw [fillStep, backs_fillThis] at hk
  obtain ⟨i, hi⟩ := steps_backs_results hm hT hwalk (by simp) st₀ hst₀ k hk
  refine ⟨⟨i, (hnumbers.ret i k).2 hi⟩, fun a ha => ?_⟩
  rw [(hnumbers.value a k).1 ha] at hi
  cases hi

/-- **Generated and mutated test cases stay tree shaped**, so that no back reference to an array is written for
them. -/
theorem fuzzed_treeShaped {gen : TestCaseGenerator} {root : ℕ} {pool : ObjectPool} (hf : Fuzzed gen root pool tc) :
    TreeShaped pool.heap tc ∧ WritesNoArrayReference pool.heap tc := by
  obtain ⟨hk, ho⟩ := fuzzed_keeps (admits_true gen.store root) hf
  exact ⟨ho.treeShaped, ho.writesNoArrayReference (wellFormed_iff.2 hk.sane)⟩

theorem small_treeShaped : ∃ (pool : ObjectPool) (tc : TestCase), tc.calls = nestedCalls ∧ pool.heap = nestedHeap ∧
    Fuzzed ⟨moduleStore, {}⟩ 3 pool tc ∧ TreeShaped pool.heap tc ∧ WritesNoArrayReference pool.heap tc := by
  obtain ⟨s, tc, hcalls, hheap, hf⟩ := nested_fuzzed
  exact ⟨s.pool, tc, hcalls, hheap, hf, fuzzed_treeShaped hf⟩

end Caf
