import Caf.Proof.Refilled

/-!
# Fixing arrays with one place each

When no array occurs twice, fixing meets every array once, and puts in the place of placeholders values with
arrays of their own. So no array occurs twice afterwards.

* `Replaced`: what becomes of values with the arrays `T`.
* `fix_ownArrays`: of a test case.
-/

namespace Caf

open ObjectGraph Run PlaceholderFixer

/-- What the fixer makes has new arrays. -/
def FixerNew (fixer : Fixer) : Prop :=
  ∀ k j (s : Fuzzer), PoolReady s.pool →
    Ensures (fun _ => True) (fixer k j) s fun a s' => NewValue (fun _ => True) s.pool a s'.pool

/-- **Values with the arrays `T`** have become those at `bs`. Only these arrays have been written to. -/
structure Replaced (s : Fuzzer) (T bs : List Addr) (s' : Fuzzer) : Prop where
  ready : PoolReady s'.pool
  length : s.heap.length ≤ s'.heap.length
  keep : ∀ (b : Addr) v, s.heap[b]? = some v → b ∉ T → s'.heap[b]? = some v
  made : ∃ T', Made (fun _ => True) s'.heap bs T' ∧ T'.Nodup ∧ ∀ b ∈ T', b ∈ T ∨ s.heap.length ≤ b

variable {fixer : Fixer} {s s' s'' : Fuzzer} {as bs cs F T U : List Addr} {a : Addr} {k fuel : ℕ}

namespace Replaced

theorem nil (h : PoolReady s.pool) : Replaced s [] [] s :=
  ⟨h, Nat.le_refl _, fun _ _ hb _ => hb, [], .nil, List.nodup_nil, by simp⟩

/-- Other values stay as they are. -/
theorem transfer (hr : Replaced s T bs s') (hm : Made (fun _ => True) s.heap as T)
    (hU : Made (fun _ => True) s.heap cs U)
    (hdis : ∀ b ∈ U, b ∉ T) : Made (fun _ => True) s'.heap cs U := by
  refine hU.transfer (fun b v hb hv => ?_) fun b hb => ?_
  · refine hr.keep b v hb fun hmem => ?_
    obtain ⟨es, hes, -⟩ := hm.get hmem
    rw [hb] at hes
    exact hv es (Option.some.inj hes)
  · obtain ⟨es, hes, -⟩ := hU.get hb
    rw [hes]
    exact hr.keep b _ hes (hdis b hb)

/-- **One after the other.** -/
theorem append {ds : List Addr} (hr : Replaced s T bs s') (hr' : Replaced s' U ds s'')
    (hm : Made (fun _ => True) s.heap as T) (hm' : Made (fun _ => True) s.heap cs U) (hTU : (T ++ U).Nodup) :
    Replaced s (T ++ U) (bs ++ ds) s'' := by
  obtain ⟨-, -, hdis⟩ := List.nodup_append.1 hTU
  obtain ⟨T', hT', hnd, hold⟩ := hr.made
  obtain ⟨U', hU', hnd', hold'⟩ := hr'.made
  have hU := hr.transfer hm hm' fun b hb hmem => hdis b hmem b hb rfl
  have hsep : ∀ b ∈ T', b ∉ U := by
    intro b hb hmem
    rcases hold b hb with hb | hb
    · exact hdis b hb b hmem rfl
    · exact absurd (hm'.lt hmem) (Nat.not_lt.2 hb)
  refine ⟨hr'.ready, hr.length.trans hr'.length, fun b v hb hn => ?_, T' ++ U', ?_, ?_, fun b hb => ?_⟩
  · exact hr'.keep b v (hr.keep b v hb fun hmem => hn (List.mem_append_left _ hmem)) fun hmem =>
      hn (List.mem_append_right _ hmem)
  · exact (hr'.transfer hU hT' hsep).append hU'
  · refine List.nodup_append.2 ⟨hnd, hnd', fun b hb c hc hbc => ?_⟩
    subst hbc
    rcases hold' b hc with hc | hc
    · exact hsep b hb hc
    · exact absurd (hT'.lt hb) (Nat.not_lt.2 hc)
  · rcases List.mem_append.1 hb with hb | hb
    · exact (hold b hb).imp (List.mem_append_left _) id
    · exact (hold' b hb).imp (List.mem_append_right _) hr.length.trans

end Replaced

/-- What `fixValue` does to a value whose arrays have not been visited. -/
def FixesValue (fixValue : Addr → List Addr → FuzzM (Addr × List Addr)) : Prop :=
  ∀ {a T F s}, PoolReady s.pool → Made (fun _ => True) s.heap [a] T → T.Nodup → (∀ b ∈ T, b ∉ F) →
    Ensures (fun _ => True) (fixValue a F) s fun r s' => Replaced s T [r.1] s' ∧ ∀ b ∈ r.2, b ∈ F ∨ b ∈ T

/-- Writing to an array of which none of the values has a part. -/
theorem Made.write (hm : Made (fun _ => True) s.heap as T) {es : List Addr} (ha : s.heap[a]? = some (.array es))
    (hn : a ∉ T) (es' : List Addr) : Made (fun _ => True) (s.heap.set a (.array es')) as T := by
  refine hm.transfer (fun b v hb hv => ?_) fun b hb => ?_
  · have hne : a ≠ b := by
      rintro rfl
      rw [ha] at hb
      exact hv es (Option.some.inj hb).symm
    rw [List.getElem?_set_ne hne, hb]
  · have hne : a ≠ b := by
      rintro rfl
      exact hn hb
    exact List.getElem?_set_ne hne

/-- **The elements** of an array, from the first that has not been fixed. -/
theorem fixElements_replaced {fixValue : Addr → List Addr → FuzzM (Addr × List Addr)} (hvalue : FixesValue fixValue)
    {rest : List Addr} : ∀ (done D U F : List Addr) {s : Fuzzer}, PoolReady s.pool →
      s.heap[a]? = some (.array (done ++ rest)) → Made (fun _ => True) s.heap done D →
        Made (fun _ => True) s.heap rest U →
      (D ++ U).Nodup → a ∉ D ++ U → (∀ b ∈ U, b ∉ F) →
      Ensures (fun _ => True) (fixElements fixValue a (List.range' done.length rest.length) F) s fun F' s' =>
        PoolReady s'.pool ∧ s.heap.length ≤ s'.heap.length ∧
          (∀ (b : Addr) v, s.heap[b]? = some v → b ∉ a :: U → s'.heap[b]? = some v) ∧
          (∃ es V, s'.heap[a]? = some (.array es) ∧ Made (fun _ => True) s'.heap es V ∧ V.Nodup ∧
            ∀ b ∈ V, b ∈ D ++ U ∨ s.heap.length ≤ b) ∧ ∀ b ∈ F', b ∈ F ∨ b ∈ U := by
  -- by induction on what is left: the elements that are done have the arrays `D`, the others `U`
  induction rest with
  | nil =>
    intro done D U F s h hes hD hU hnd _ _
    cases hU
    rw [List.append_nil] at hes hnd
    refine .pure ⟨h, Nat.le_refl _, fun _ _ hb _ => hb, ⟨done, D, hes, hD, hnd, fun b hb => .inl ?_⟩, fun b hb =>
      .inl hb⟩
    rwa [List.append_nil]
  | cons e rest ih =>
    intro done D U F s h hes hD hU hnd ha hF
    obtain ⟨U₁, U₂, rfl, h₁, h₂⟩ := hU.uncons
    obtain ⟨-, hndU, hdisD⟩ := List.nodup_append.1 hnd
    obtain ⟨hnd₁, -, hdisU⟩ := List.nodup_append.1 hndU
    have halt : a < s.heap.length := (List.getElem?_eq_some_iff.1 hes).1
    have haD : a ∉ D := fun hmem => ha (List.mem_append_left _ hmem)
    have ha₁ : a ∉ U₁ := fun hmem => ha (by simp [hmem])
    have ha₂ : a ∉ U₂ := fun hmem => ha (by simp [hmem])
    rw [List.length_cons, List.range'_succ]
    unfold fixElements
    have hget : (done ++ e :: rest)[done.length]? = some e := by simp
    refine (getElement_ensures hes hget).bind ?_
    rintro x t ⟨hx, ht⟩
    subst x t
    refine (hvalue h h₁ hnd₁ fun b hb => hF b (List.mem_append_left _ hb)).bind ?_
    rintro ⟨e', F₁⟩ s₁ ⟨hr, hF₁⟩
    dsimp only at hr hF₁ ⊢
    have hes₁ := hr.keep a _ hes ha₁
    obtain ⟨T', hT', hndT, hold⟩ := hr.made
    have haT : a ∉ T' := by
      intro hmem
      rcases hold a hmem with hmem | hge
      · exact ha₁ hmem
      · exact absurd halt (Nat.not_lt.2 hge)
    refine (setElement_ensures hes₁ (by simp) e').bind ?_
    rintro _ s₂ rfl
    have hset : (done ++ e :: rest).set done.length e' = (done ++ [e']) ++ rest := by simp
    have hlen : (s₁.heap.set a (.array ((done ++ e :: rest).set done.length e'))).length = s₁.heap.length :=
      List.length_set
    -- what is done, what was just done, and what is left, in the new heap
    have hD' := (hr.transfer h₁ hD fun b hb hmem => hdisD b hb b (List.mem_append_left _ hmem) rfl).write hes₁ haD
      ((done ++ e :: rest).set done.length e')
    have hT'' := hT'.write hes₁ haT ((done ++ e :: rest).set done.length e')
    have hU' := (hr.transfer h₁ h₂ fun b hb hmem => hdisU b hmem b hb rfl).write hes₁ ha₂
      ((done ++ e :: rest).set done.length e')
    -- the new arrays are no old ones, and the old ones are the element's own
    have hlt : ∀ b ∈ D ++ (U₁ ++ U₂), b < s.heap.length := by
      intro b hb
      rcases List.mem_append.1 hb with hb | hb
      · exact hD.lt hb
      · exact (h₁.append h₂).lt hb
    obtain ⟨hndnew, hfrom⟩ := nodup_replaced hnd (fun b hb => Nat.not_le_of_lt (hlt b hb)) hndT hold
    rw [← List.append_assoc] at hndnew hfrom
    have hnext := ih (done ++ [e']) (D ++ T') U₂ F₁
      (s := { s₁ with pool :=
      { s₁.pool with heap := s₁.heap.set a (.array ((done ++ e :: rest).set done.length e')) } })
      (hr.ready.setArray _ hes₁) ?_ (hD'.append hT'') hU' ?_ ?_ ?_
    · rw [List.length_append, List.length_singleton] at hnext
      refine hnext.mono ?_
      rintro F' s' ⟨hready, hlength, hkeep, ⟨es, V, hes', hV, hndV, hVold⟩, hF'⟩
      have hgrown : s.heap.length ≤ s'.heap.length := hr.length.trans (hlen ▸ hlength)
      refine ⟨hready, hgrown, fun b v hb hn => ?_, ⟨es, V, hes', hV, hndV, fun b hb => ?_⟩, fun b hb => ?_⟩
      · have hne : a ≠ b := by
          rintro rfl
          exact hn List.mem_cons_self
        refine hkeep b v ?_ fun hmem => hn ?_
        · exact (List.getElem?_set_ne hne).trans (hr.keep b v hb fun hmem => hn (by simp [hmem]))
        · rcases List.mem_cons.1 hmem with rfl | hmem
          · exact List.mem_cons_self
          · simp [hmem]
      · rcases hVold b hb with hb | hb
        · exact hfrom b hb
        · exact .inr (hr.length.trans (hlen ▸ hb))
      · rcases hF' b hb with hb | hb
        · exact (hF₁ b hb).imp id fun hb => by simp [hb]
        · exact .inr (by simp [hb])
    · show (s₁.heap.set a _)[a]? = _
      rw [List.getElem?_set_self (List.getElem?_eq_some_iff.1 hes₁).1, hset]
    · exact hndnew
    · simp [haD, haT, ha₂]
    · intro b hb hmem
      rcases hF₁ b hmem with hmem | hmem
      · exact hF b (List.mem_append_right _ hb) hmem
      · exact hdisU b hmem b hb rfl

/-- **A value.** -/
theorem fixValue_replaced (hfix : FixerNew fixer) (k fuel : ℕ) : FixesValue (fixValue fixer k fuel) := by
  induction fuel with
  | zero =>
    intro a T F s _ _ _ _
    exact .throw trivial
  | succ fuel ih =>
    intro a T F s h hm hnd hF
    unfold fixValue
    cases hm with
    | @flat _ v _ _ hv hne _ hnil =>
      cases hnil
      refine (readValue_ensures hv).bind ?_
      rintro w t ⟨hw, ht⟩
      subst w t
      have hself : Replaced s [] [a] s :=
        ⟨h, Nat.le_refl _, fun _ _ hb _ => hb, [], .flat hv hne trivial .nil, List.nodup_nil, by simp⟩
      cases v with
      | literal l => exact .pure ⟨hself, fun b hb => .inl hb⟩
      | array es => exact absurd rfl (hne es)
      | placeholder j =>
        refine (hfix k j s h).bind fun a' s' hnew => ?_
        obtain ⟨T', hT', hndT, hge⟩ := hnew.made
        refine .pure ⟨⟨hnew.ready, hnew.ext.length_le, fun b v hb _ => getElem?_grows hnew.ext hb, T', hT', hndT, ?_⟩,
          ?_⟩
        · exact fun b hb => .inr (hge b hb)
        · exact fun b hb => .inl hb
    | @array _ es S _ _ hes _ hS hnil =>
      cases hnil
      rw [List.append_nil] at hnd hF ⊢
      obtain ⟨hn, hndS⟩ := List.nodup_cons.1 hnd
      refine (readValue_ensures hes).bind ?_
      rintro w t ⟨hw, ht⟩
      subst w t
      dsimp only
      -- the array is met for the first time
      rw [if_neg (hF a List.mem_cons_self), List.range_eq_range']
      refine (fixElements_replaced ih [] [] _ (a :: F) h hes .nil hS hndS hn fun b hb hmem => ?_).bind ?_
      · rcases List.mem_cons.1 hmem with rfl | hmem
        · exact hn hb
        · exact hF b (List.mem_cons_of_mem _ hb) hmem
      · rintro F' s' ⟨hready, hlength, hkeep, ⟨es', V, hes', hV, hndV, hold⟩, hF'⟩
        rw [List.nil_append] at hold
        have halt : a < s.heap.length := (List.getElem?_eq_some_iff.1 hes).1
        have haV : a ∉ V := by
          intro hmem
          rcases hold a hmem with hmem | hge
          · exact hn hmem
          · exact absurd halt (Nat.not_lt.2 hge)
        refine .pure ⟨⟨hready, hlength, hkeep, a :: V, hV.singleton hes' trivial, List.nodup_cons.2 ⟨haV, hndV⟩, ?_⟩,
          ?_⟩
        · intro b hb
          rcases List.mem_cons.1 hb with rfl | hb
          · exact .inl List.mem_cons_self
          · exact (hold b hb).imp (List.mem_cons_of_mem _) id
        · intro b hb
          rcases hF' b hb with hb | hb
          · rcases List.mem_cons.1 hb with rfl | hb
            · exact .inr List.mem_cons_self
            · exact .inl hb
          · exact .inr (List.mem_cons_of_mem _ hb)

/-! ## Calls -/

/-- Values, one after the other. -/
theorem fixValues_replaced (hfix : FixerNew fixer) (h : PoolReady s.pool) (hm : Made (fun _ => True) s.heap as T)
    (hnd : T.Nodup) (hF : ∀ b ∈ T, b ∉ F) :
    Ensures (fun _ => True) (fixValues fixer k fuel as F) s fun r s' =>
      Replaced s T r.1 s' ∧ ∀ b ∈ r.2, b ∈ F ∨ b ∈ T := by
  induction as generalizing F T s with
  | nil =>
    cases hm
    exact .pure ⟨.nil h, fun b hb => .inl hb⟩
  | cons a as ih =>
    obtain ⟨T₁, T₂, rfl, h₁, h₂⟩ := hm.uncons
    obtain ⟨hnd₁, hnd₂, hdis⟩ := List.nodup_append.1 hnd
    unfold fixValues
    refine (fixValue_replaced hfix k fuel h h₁ hnd₁ fun b hb => hF b (List.mem_append_left _ hb)).bind ?_
    rintro ⟨a', F₁⟩ s₁ ⟨hr, hF₁⟩
    dsimp only at hr hF₁ ⊢
    have h₂' := hr.transfer h₁ h₂ fun b hb hmem => hdis b hmem b hb rfl
    refine (ih hr.ready h₂' hnd₂ fun b hb hmem => ?_).bind ?_
    · rcases hF₁ b hmem with hmem | hmem
      · exact hF b (List.mem_append_right _ hb) hmem
      · exact hdis b hmem b hb rfl
    · rintro ⟨as', F₂⟩ s₂ ⟨hr', hF₂⟩
      dsimp only at hr' hF₂ ⊢
      refine .pure ⟨hr.append hr' h₁ h₂ hnd, fun b hb => ?_⟩
      rcases hF₂ b hb with hb | hb
      · exact (hF₁ b hb).imp id (List.mem_append_left _)
      · exact .inr (List.mem_append_right _ hb)

/-- At most one `this` object becomes at most one. -/
theorem fixValues_toList {E : Error → Prop} (o : Option Addr) (F : List Addr) (s : Fuzzer) (hE : ∀ e, E e) :
    Ensures E (fixValues fixer k fuel o.toList F) s fun r _ => r.1.head?.toList = r.1 := by
  cases o with
  | none => exact .pure rfl
  | some a =>
    refine Ensures.bind (P := fun _ _ => True) (ensures_iff.2 ⟨fun _ _ _ => trivial, fun e _ => hE e⟩) ?_
    rintro ⟨a', F₁⟩ s₁ -
    exact .pure rfl

theorem fixCall_replaced (hfix : FixerNew fixer) (h : PoolReady s.pool) {call : FunctionCall}
    (hm : Made (fun _ => True) s.heap call.roots T) (hnd : T.Nodup) (hF : ∀ b ∈ T, b ∉ F) :
    Ensures (fun _ => True) (fixCall fixer k fuel call F) s fun r s' =>
      Replaced s T r.1.roots s' ∧ ∀ b ∈ r.2, b ∈ F ∨ b ∈ T := by
  obtain ⟨T₁, T₂, rfl, h₁, h₂⟩ := hm.split rfl
  obtain ⟨hnd₁, hnd₂, hdis⟩ := List.nodup_append.1 hnd
  unfold fixCall
  have hthis := @fixValues_replaced _ _ _ _ _ k fuel hfix h h₁ hnd₁ fun b hb => hF b (List.mem_append_left _ hb)
  refine (hthis.and (fixValues_toList call.thisValue F s fun _ => trivial)).bind ?_
  rintro ⟨this', F₁⟩ s₁ ⟨⟨hr, hF₁⟩, hhead⟩
  dsimp only at hr hF₁ hhead ⊢
  have h₂' := hr.transfer h₁ h₂ fun b hb hmem => hdis b hmem b hb rfl
  refine (fixValues_replaced hfix hr.ready h₂' hnd₂ fun b hb hmem => ?_).bind ?_
  · rcases hF₁ b hmem with hmem | hmem
    · exact hF b (List.mem_append_right _ hb) hmem
    · exact hdis b hmem b hb rfl
  · rintro ⟨args', F₂⟩ s₂ ⟨hr', hF₂⟩
    dsimp only at hr' hF₂ ⊢
    refine .pure ⟨?_, fun b hb => ?_⟩
    · rw [FunctionCall.roots, hhead]
      exact hr.append hr' h₁ h₂ hnd
    · rcases hF₂ b hb with hb | hb
      · exact (hF₁ b hb).imp id (List.mem_append_left _)
      · exact .inr (List.mem_append_right _ hb)

/-- **Calls**, one after the other. -/
theorem fixCalls_replaced (hfix : FixerNew fixer) (h : PoolReady s.pool) {i : ℕ} {calls : List FunctionCall}
    (hm : Made (fun _ => True) s.heap (calls.flatMap FunctionCall.roots) T) (hnd : T.Nodup) (hF : ∀ b ∈ T, b ∉ F) :
    Ensures (fun _ => True) (fixCalls fixer fuel i calls F) s fun calls' s' =>
      Replaced s T (calls'.flatMap FunctionCall.roots) s' := by
  induction calls generalizing i F T s with
  | nil =>
    cases hm
    exact .pure (.nil h)
  | cons call calls ih =>
    rw [List.flatMap_cons] at hm
    obtain ⟨T₁, T₂, rfl, h₁, h₂⟩ := hm.split rfl
    obtain ⟨hnd₁, hnd₂, hdis⟩ := List.nodup_append.1 hnd
    unfold fixCalls
    refine (fixCall_replaced hfix h h₁ hnd₁ fun b hb => hF b (List.mem_append_left _ hb)).bind ?_
    rintro ⟨call', F₁⟩ s₁ ⟨hr, hF₁⟩
    dsimp only at hr hF₁ ⊢
    have h₂' := hr.transfer h₁ h₂ fun b hb hmem => hdis b hmem b hb rfl
    refine (ih hr.ready h₂' hnd₂ fun b hb hmem => ?_).bind fun calls' s' hr' => ?_
    · rcases hF₁ b hmem with hmem | hmem
      · exact hF b (List.mem_append_right _ hb) hmem
      · exact hdis b hmem b hb rfl
    · refine .pure ?_
      rw [List.flatMap_cons]
      exact hr.append hr' h₁ h₂ hnd

/-- **No array occurs twice** after fixing, if none did before. -/
theorem fix_ownArrays (hfix : FixerNew fixer) (h : PoolReady s.pool) {start : ℕ} {tc : TestCase}
    (hown : OwnArrays s.heap (tc.calls.flatMap FunctionCall.roots)) :
    Ensures (fun _ => True) (fix fixer start tc) s fun tc' s' =>
      OwnArrays s'.heap (tc'.calls.flatMap FunctionCall.roots) := by
  obtain ⟨T, hm, hnd⟩ := hown
  rw [← List.take_append_drop start tc.calls, List.flatMap_append] at hm
  obtain ⟨T₁, T₂, rfl, h₁, h₂⟩ := hm.split rfl
  obtain ⟨hnd₁, hnd₂, hdis⟩ := List.nodup_append.1 hnd
  have hget : Ensures (fun _ => True) (get : FuzzM Fuzzer) s fun t s' => t = s ∧ s' = s := .of_eq rfl ⟨rfl, rfl⟩
  unfold fix
  refine hget.bind ?_
  rintro _ _ ⟨rfl, rfl⟩
  refine (fixCalls_replaced hfix h h₂ hnd₂ (by simp)).bind fun calls' s' hr => .pure ?_
  obtain ⟨T', hT', hndT, hold⟩ := hr.made
  dsimp only
  rw [List.flatMap_append]
  refine ⟨T₁ ++ T', (hr.transfer h₂ h₁ fun b hb hmem => hdis b hb b hmem rfl).append hT', ?_⟩
  refine List.nodup_append.2 ⟨hnd₁, hndT, fun b hb c hc hbc => ?_⟩
  subst hbc
  rcases hold b hc with hc | hc
  · exact hdis b hb b hc rfl
  · exact absurd (h₁.lt hb) (Nat.not_lt.2 hc)

end Caf
