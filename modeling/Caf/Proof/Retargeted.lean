import Caf.Proof.Fix

/-!
# What fixing makes of the calls

The arrays of a test case are fixed in the first call that leads to them. So the references in all calls are
retargeted, those in the calls that are not fixed included: what these refer to comes before the first call that
is fixed.

* `FixedCalls.retargeted`: fixing retargets.
* `Retargeted.holds`: what can be reached afterwards.
-/

namespace Caf

open ObjectGraph Run PlaceholderFixer

variable {E : Error → Prop} {R R' : Replacement} {fixer : Fixer} {h h' h₀ : Heap} {s s' : Fuzzer} {a a' b : Addr}
  {calls calls' : List FunctionCall} {start i n k : ℕ} {P Q : ℕ → Value → Prop}

/-- `Fix`. -/
theorem fix_ensures (start : ℕ) (tc : TestCase) (hR : FixerOK E s.heap.length fixer R) (h : PoolReady s.pool)
    (hcalls : ∀ call ∈ tc.calls.drop start, ∀ a ∈ call.roots, s.heap.Holds (fun _ => True) a) :
    Ensures E (fix fixer start tc) s fun tc' s' => ∃ calls' F',
      tc' = { tc with calls := tc.calls.take start ++ calls' } ∧
        FixedCalls R start s.heap [] s (tc.calls.drop start) calls' F' s' := by
  refine ((fixLogged_erases fixer start tc).ensures (fixLogged_ensures start tc hR h hcalls)).mono ?_
  rintro tc' s' ⟨log, -, calls', F', htc', -, hfixed⟩
  exact ⟨calls', F', htc', hfixed⟩

/-! ## Growing heaps -/

/-- New objects do not change what can be reached. -/
theorem Heap.Holds.reach_iff {P : Value → Prop} (ha : h₀.Holds P a) (hx : h₀ <+: h) :
    Reach h.graph a b ↔ Reach h₀.graph a b := by
  constructor
  · intro hb
    induction hb with
    | refl => exact .refl
    | @tail c b _ hs ih =>
      obtain ⟨es, hes, hmem⟩ := succ_iff.1 hs
      obtain ⟨v, hv, -⟩ := ha c ih
      rw [getElem?_grows hx hv] at hes
      rw [Option.some.inj hes] at hv
      exact ih.tail (succ_iff.2 ⟨es, hv, hmem⟩)
  · intro hb
    refine hb.transfer fun c w hw => ?_
    obtain ⟨v, hv, rfl⟩ := Option.map_eq_some_iff.1 hw
    exact Option.map_eq_some_iff.2 ⟨v, getElem?_grows hx hv, rfl⟩

/-- The calls lead to the same objects as before. -/
theorem callReaches_iff {P : ℕ → Value → Prop}
    (hcalls : ∀ (n : ℕ) call, calls[n]? = some call → ∀ a ∈ call.roots, h₀.Holds (P n) a)
    (hx : h₀ <+: h) : CallReaches h calls n b ↔ CallReaches h₀ calls n b := by
  constructor
  · rintro ⟨call, hcall, a, ha, hab⟩
    exact ⟨call, hcall, a, ha, ((hcalls n call hcall a ha).reach_iff hx).1 hab⟩
  · rintro ⟨call, hcall, a, ha, hab⟩
    exact ⟨call, hcall, a, ha, ((hcalls n call hcall a ha).reach_iff hx).2 hab⟩

theorem CallReaches.get {P : ℕ → Value → Prop}
    (hcalls : ∀ (n : ℕ) call, calls[n]? = some call → ∀ a ∈ call.roots, h.Holds (P n) a)
    (hb : CallReaches h calls n b) : ∃ v, h[b]? = some v ∧ P n v := by
  obtain ⟨call, hcall, a, ha, hab⟩ := hb
  exact hcalls n call hcall a ha b hab

theorem CallReaches.element {es : List Addr} (hb : CallReaches h calls n b) (hes : h[b]? = some (.array es)) {e : Addr}
    (he : e ∈ es) : CallReaches h calls n e := by
  obtain ⟨call, hcall, a, ha, hab⟩ := hb
  exact ⟨call, hcall, a, ha, hab.tail (succ_iff.2 ⟨es, hes, he⟩)⟩

theorem CallReaches.root {call : FunctionCall} (hcall : calls[n]? = some call) (ha : a ∈ call.roots) :
    CallReaches h calls n a :=
  ⟨call, hcall, a, ha, .refl⟩

/-- There is a first call that leads to an object. -/
theorem CallReaches.first (hb : CallReaches h calls n b) : ∃ m ≤ n, FirstReaches h calls m b := by
  classical
  have hex : ∃ m, CallReaches h calls m b := ⟨n, hb⟩
  exact ⟨Nat.find hex, Nat.find_min' hex hb, Nat.find_spec hex, fun m hm => Nat.find_min hex hm⟩

theorem callReaches_drop : CallReaches h (calls.drop start) n b ↔ CallReaches h calls (start + n) b := by
  unfold CallReaches
  rw [List.getElem?_drop]

/-! ## Retargeting -/

theorem Retargets.weaken {v : Value} (hr : Retargets R k h h' a a') (hx : h₀ <+: h) (hv : h₀[a]? = some v)
    (hR : ∀ j, v = .placeholder j → R k j h' a' → R' n j h' a') : Retargets R' n h₀ h' a a' := by
  have hgrown := getElem?_grows hx hv
  cases hr with
  | literal ha =>
    rw [hgrown] at ha
    exact .literal (hv.trans ha)
  | array ha =>
    obtain ⟨es, hes⟩ := ha
    rw [hgrown] at hes
    exact .array ⟨es, hv.trans hes⟩
  | placeholder ha hrep =>
    rw [hgrown] at ha
    exact .placeholder (hv.trans ha) (hR _ (Option.some.inj ha) hrep)

/-- A value that stays is retargeted, if its reference may stay. -/
theorem Retargets.stay {v : Value} (hv : h₀[a]? = some v) (hR : ∀ j, v = .placeholder j → R n j h' a) :
    Retargets R n h₀ h' a a := by
  cases v with
  | literal l => exact .literal hv
  | array es => exact .array ⟨es, hv⟩
  | placeholder j => exact .placeholder hv (hR j rfl)

/-- Related elements are related in another way. -/
theorem forall₂_weaken {r r' : Addr → Addr → Prop} {as bs : List Addr} (hr : List.Forall₂ r as bs)
    (hrr : ∀ a ∈ as, ∀ b, r a b → r' a b) : List.Forall₂ r' as bs := by
  induction hr with
  | nil => exact .nil
  | cons hab _ ih =>
    exact .cons (hrr _ List.mem_cons_self _ hab) (ih fun a ha => hrr a (List.mem_cons_of_mem _ ha))

/-- **Fixing retargets.** In calls before the first that is fixed, references may stay, and whatever took their
place in an array that a later call leads to, too, must be right for them. -/
theorem FixedCalls.retargeted {F : List Addr} (hf : FixedCalls R i h [] s (calls.drop start) calls' F s')
    (hx : h₀ <+: h)
    (hcalls : ∀ (n : ℕ) call, calls[n]? = some call → ∀ a ∈ call.roots, h₀.Holds (P n) a)
    (hR : ∀ n j a, R (i + n) j s'.heap a → R' (start + n) j s'.heap a)
    (hstay : ∀ n < start, ∀ j a, P n (.placeholder j) → s'.heap[a]? = some (.placeholder j) → R' n j s'.heap a)
    (hshared : ∀ n < start, ∀ k j a, P n (.placeholder j) → R k j s'.heap a → R' n j s'.heap a) :
    Retargeted R' h₀ calls s'.heap (calls.take start ++ calls') := by
  have hflat : ∀ (b : Addr) v, h₀[b]? = some v → (∀ es, v ≠ .array es) → s'.heap[b]? = some v := fun b v hb hv =>
    hf.fixing.flat b v (getElem?_grows hx hb) hv
  have hsame : ∀ n < start, ∀ e, CallReaches h₀ calls n e → Retargets R' n h₀ s'.heap e e := by
    intro n hn e he
    obtain ⟨v, hv, hP⟩ := he.get hcalls
    refine .stay hv ?_
    rintro j rfl
    exact hstay n hn j e hP (hflat e _ hv (by simp))
  have hlen : (calls.take start ++ calls').length = calls.length := by
    rw [List.length_append, hf.length, List.length_take, List.length_drop]
    omega
  refine ⟨hlen, fun n call call' hcall hcall' => ?_, fun n b es hb hes => ?_, hflat, fun b v hv hnone => ?_⟩
  · have hlt := (List.getElem?_eq_some_iff.1 hcall).1
    by_cases hn : n < start
    · rw [List.getElem?_append_left (by rw [List.length_take]; omega), List.getElem?_take_of_lt hn, hcall] at hcall'
      cases hcall'
      have hroot : ∀ a ∈ call.roots, Retargets R' n h₀ s'.heap a a := fun a ha => hsame n hn a (.root hcall ha)
      exact ⟨rfl, List.forall₂_same.2 fun a ha => hroot a (List.mem_append_left _ ha), rfl,
        List.forall₂_same.2 fun a ha => hroot a (List.mem_append_right _ ha)⟩
    · obtain ⟨d, rfl⟩ := Nat.exists_eq_add_of_le (Nat.not_lt.1 hn)
      have htake : (calls.take start).length = start := by
        rw [List.length_take]
        omega
      rw [List.getElem?_append_right (by omega), htake, Nat.add_sub_cancel_left] at hcall'
      have hfixed := hf.call d call call' (by rw [List.getElem?_drop, hcall]) hcall'
      have hroot : ∀ a ∈ call.roots, ∀ a', Retargets R (i + d) h s'.heap a a' →
        Retargets R' (start + d) h₀ s'.heap a a' := by
        intro a ha a' hr
        obtain ⟨v, hv, -⟩ := (hcalls _ call hcall a ha).here
        exact hr.weaken hx hv fun j _ => hR d j a'
      exact ⟨hfixed.funcId, forall₂_weaken hfixed.thisValue fun a ha =>
        hroot a (List.mem_append_left _ ha), hfixed.ctor,
        forall₂_weaken hfixed.args fun a ha => hroot a (List.mem_append_right _ ha)⟩
  · obtain ⟨m, -, hm⟩ := hb.first
    have hgrown := getElem?_grows hx hes
    have hget : ∀ e ∈ es, ∃ v, h₀[e]? = some v ∧ P m v := fun e he => (hm.1.element hes he).get hcalls
    -- an array is fixed by the first call from `start` on that leads to it
    by_cases hmem : b ∈ F
    · obtain ⟨d, hreach, hfirst, fs, es', hfs, hes', hall, -⟩ := hf.fixed b hmem (by simp)
      rw [hgrown] at hfs
      cases hfs
      refine ⟨m, es', hm, hes', forall₂_weaken hall fun e he e' hr => ?_⟩
      obtain ⟨v, hv, hPv⟩ := hget e he
      refine hr.weaken hx hv ?_
      rintro j rfl hrep
      by_cases hlt : m < start
      · exact hshared m hlt _ j e' hPv hrep
      · -- both are the first call that leads to the array
        have hmd : m = start + d := by
          have hle : m ≤ start + d := by
            by_contra hgt
            exact hm.2 _ (Nat.not_le.1 hgt) ((callReaches_iff hcalls hx).1 (callReaches_drop.1 hreach))
          by_contra hne
          refine hfirst (m - start) (by omega) (callReaches_drop.2 ((callReaches_iff hcalls hx).2 ?_))
          rw [Nat.add_sub_cancel' (Nat.not_lt.1 hlt)]
          exact hm.1
        rw [hmd]
        exact hR d j e' hrep
    · -- an array that is not fixed is below the calls before `start` only
      have hlt : m < start := by
        by_contra hge
        obtain ⟨call, hcall, a, ha, hab⟩ := (callReaches_iff hcalls hx).2 hm.1
        have hdrop : call ∈ calls.drop start := by
          refine List.mem_of_getElem? (i := m - start) ?_
          rw [List.getElem?_drop, Nat.add_sub_cancel' (Nat.not_lt.1 hge), hcall]
        exact hmem (hf.closed.reach (hf.visited call hdrop a ha) hab ⟨es, hgrown⟩)
      exact ⟨m, es, hm, hf.fixing.rest b es hgrown hmem,
        List.forall₂_same.2 fun e he => hsame m hlt e (hm.1.element hes he)⟩
  · by_cases harr : ∃ es, v = .array es
    · obtain ⟨es, rfl⟩ := harr
      refine hf.fixing.rest b es (getElem?_grows hx hv) fun hmem => ?_
      obtain ⟨d, hreach, -⟩ := hf.fixed b hmem (by simp)
      exact hnone _ ((callReaches_iff hcalls hx).1 (callReaches_drop.1 hreach))
    · exact hflat b v hv fun es hes => harr ⟨es, hes⟩

/-! ## What can be reached -/

/-- **What can be reached** from the calls afterwards, when what takes the place of a placeholder is right for
all calls from the one on for which it was made. -/
theorem Retargeted.holds (hr : Retargeted R h calls h' calls')
    (hcalls : ∀ (n : ℕ) call, calls[n]? = some call → ∀ a ∈ call.roots, h.Holds (P n) a)
    (hliteral : ∀ n l, P n (.literal l) → Q n (.literal l)) (harray : ∀ n es, P n (.array es) → ∀ es', Q n (.array es'))
    (hrep : ∀ n j a', ∀ m ≤ n, P n (.placeholder j) → P m (.placeholder j) → R m j h' a' → h'.Holds (Q n) a') :
    ∀ (n : ℕ) call', calls'[n]? = some call' → ∀ a ∈ call'.roots, h'.Holds (Q n) a := by
  intro n call' hcall' a' ha'
  obtain ⟨hlt', -⟩ := List.getElem?_eq_some_iff.1 hcall'
  have hlt : n < calls.length := by rwa [hr.length] at hlt'
  have hcall : calls[n]? = some calls[n] := List.getElem?_eq_getElem hlt
  -- a value that is not a placeholder stays, and its elements are retargeted
  let Right : Addr → Prop := fun b => h'.Holds (Q n) b ∨ CallReaches h calls n b ∧ ∀ j, h[b]? ≠ some (.placeholder j)
  have hstep : ∀ m ≤ n, ∀ e e', CallReaches h calls n e → CallReaches h calls m e → Retargets R m h h' e e' →
    Right e' := by
    intro m hm e e' hn hme hret
    cases hret with
    | literal he => exact .inr ⟨hn, by simp [he]⟩
    | array he =>
      obtain ⟨es, hes⟩ := he
      exact .inr ⟨hn, by simp [hes]⟩
    | @placeholder j _ he hj =>
      obtain ⟨v, hv, hPn⟩ := hn.get hcalls
      obtain ⟨w, hw, hPm⟩ := hme.get hcalls
      rw [he] at hv hw
      cases hv
      cases hw
      exact .inl (hrep n j e' m hm hPn hPm hj)
  have hright : Right a' := by
    have hroots := (hr.call n _ call' hcall hcall').roots
    obtain ⟨k, hk, rfl⟩ := List.getElem_of_mem ha'
    have hk' : k < calls[n].roots.length := by rwa [hroots.length_eq]
    have hroot := CallReaches.root (h := h) hcall (List.getElem_mem hk')
    exact hstep n (Nat.le_refl n) _ _ hroot hroot (List.forall₂_iff_get.1 hroots |>.2 k hk' hk)
  refine Heap.Holds.of_closed (R := Right) hright fun b hb => ?_
  rcases hb with hb | ⟨hb, hne⟩
  · obtain ⟨v, hv, hQ⟩ := hb.here
    refine ⟨v, hv, hQ, ?_⟩
    rintro es rfl e he
    exact .inl (hb.elements hv he)
  · obtain ⟨v, hv, hPv⟩ := hb.get hcalls
    cases v with
    | literal l => exact ⟨_, hr.flat b _ hv (by simp), hliteral n l hPv, by simp⟩
    | placeholder j => exact absurd hv (hne j)
    | array es =>
      obtain ⟨m, es', hm, hes', hall⟩ := hr.array n b es hb hv
      have hmn : m ≤ n := by
        by_contra hgt
        exact hm.2 n (Nat.not_le.1 hgt) hb
      refine ⟨_, hes', harray n es hPv es', ?_⟩
      rintro _ ⟨⟩ e' he'
      obtain ⟨k, hk, rfl⟩ := List.getElem_of_mem he'
      have hk' : k < es.length := by rwa [hall.length_eq]
      have he := List.getElem_mem hk'
      exact hstep m hmn _ _ (hb.element hv he) (hm.1.element hv he) (List.forall₂_iff_get.1 hall |>.2 k hk' hk)

end Caf
