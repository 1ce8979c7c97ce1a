import Caf.Proof.Retargeted

/-!
# Inserting and removing calls

The calls of a test case are numbered anew when a call is inserted or removed, and the references to them are
retargeted. So they still only point backwards.

* `addFunctionCall_ensures`, `removeFunctionCall_ensures`: what the test case becomes.
-/

namespace Caf

open ObjectGraph Run Caf.Random PlaceholderFixer

variable {I : FunctionIdType → Prop} {gen : TestCaseGenerator} {root index n m k : ℕ} {h h' : Heap} {s s' : Fuzzer}
    {a a' : Addr}
  {tc tc' : TestCase}

/-- What call `n` may refer to: earlier calls, and functions with an id in `I`. -/
def Allowed (I : FunctionIdType → Prop) (n : ℕ) (v : Value) : Prop :=
  Below n v ∧ ∀ id, v = .literal (.function id) → I id

/-- The ids of the functions of the root entry are in `I`. -/
def Admits (store : CAFStore) (root : ℕ) (I : FunctionIdType → Prop) : Prop :=
  ∀ d ∈ store.descendents root, ∀ f, store.func d = some f → I f.id

theorem Allowed.mono {v : Value} (hv : Allowed I m v) (hmn : m ≤ n) : Allowed I n v :=
  ⟨fun j hj => Nat.lt_of_lt_of_le (hv.1 j hj) hmn, hv.2⟩

theorem allowed_literal {l : Literal} (hv : Allowed I m (.literal l)) (n : ℕ) : Allowed I n (.literal l) :=
  ⟨fun _ hj => (by cases hj), hv.2⟩

theorem allowed_array (n : ℕ) (es : List Addr) : Allowed I n (.array es) :=
  ⟨fun _ hj => (by cases hj), fun _ hid => (by cases hid)⟩

theorem allowed_placeholder {j : ℕ} : Allowed I n (.placeholder j) ↔ j < n := by
  constructor
  · exact fun hv => hv.1 j rfl
  · intro hj
    refine ⟨?_, fun id hid => by cases hid⟩
    rintro _ ⟨⟩
    exact hj

theorem Admits.generates {store : CAFStore} (hI : Admits store root I) (n : ℕ) :
    Generates store root n (Allowed I n) := by
  refine ⟨fun l hl => ⟨fun _ hj => (by cases hj), ?_⟩, fun d hd f hf => ⟨fun _ hj => (by cases hj), ?_⟩,
    fun j hj => allowed_placeholder.2 hj, allowed_array n⟩
  · rintro id ⟨⟩
    exact absurd rfl (hl id)
  · rintro id ⟨⟩
    exact hI d hd f hf

/-- **What a fuzzer keeps** of a test case: references point backwards, and ids are in `I`. -/
structure Sane (I : FunctionIdType → Prop) (h : Heap) (tc : TestCase) : Prop where
  callees : ∀ call ∈ tc.calls, I call.funcId
  values : ∀ (n : ℕ) call, tc.calls[n]? = some call → ∀ a ∈ call.roots, h.Holds (Allowed I n) a

/-- An object without elements. -/
theorem Heap.Holds.flat {P : Value → Prop} {v : Value} (ha : h[a]? = some v) (hne : ∀ es, v ≠ .array es) (hP : P v) :
    h.Holds P a :=
  (Made.flat ha hne hP .nil).holds List.mem_cons_self

/-! ## What takes the place of a placeholder -/

/-- Once a call has been inserted at `index`: the reference is to the same call as before. -/
def added (index : ℕ) : Replacement := fun _ j h' a' =>
  h'[a']? = some (.placeholder (if index ≤ j then j + 1 else j))

/-- The value at `a'` was generated for call `k`, and has been left as it was; its arrays are not in `h`. -/
def GeneratedFor (gen : TestCaseGenerator) (root k : ℕ) (h h' : Heap) (a' : Addr) : Prop :=
  ∃ s₀ s₁ : Fuzzer, PoolReady s₀.pool ∧ gen.generateValue root ⟨k⟩ s₀ = .ok (a', s₁) ∧
    ∀ b v, Reach s₁.heap.graph a' b → s₁.heap[b]? = some v →
      h'[b]? = some v ∧ ∀ es, v = .array es → h.length ≤ b

/-- Once call `index` has been removed: the reference is to the same call as before, or a new value has taken
its place. -/
def removed (gen : TestCaseGenerator) (root : ℕ) (h : Heap) (index : ℕ) : Replacement := fun k j h' a' =>
  if j = index then GeneratedFor gen root k h h' a'
  else h'[a']? = some (.placeholder (if index < j then j - 1 else j))

theorem GeneratedFor.holds {P : Value → Prop} (hg : GeneratedFor gen root k h h' a)
    (hP : Generates gen.store root k P) :
    h'.Holds P a := by
  obtain ⟨s₀, s₁, hready, hrun, hsame⟩ := hg
  have hnew := (generateValue_ensures hP hready).of_ok hrun
  exact (hnew.holds List.mem_cons_self).transfer fun b v hb hv => (hsame b v hb hv).1

theorem generates_true (store : CAFStore) (root n : ℕ) : Generates store root n fun _ => True :=
  ⟨fun _ _ => trivial, fun _ _ _ _ => trivial, fun _ _ => trivial, fun _ => trivial⟩

/-- The pool has a placeholder. -/
theorem givePlaceholder_ensures {E : Error → Prop} (h : PoolReady s.pool) (j : ℕ) :
    Ensures E (givePool (·.getPlaceholderValue j)) s fun a s' =>
      PoolReady s'.pool ∧ s.pool.Extends s'.pool ∧ s'.heap[a]? = some (.placeholder j) := by
  have hg := ObjectPool.getPlaceholderValue_gives h.ok j
  refine ensures_givePool (R := fun a q => PoolReady q ∧ s.pool.Extends q ∧ q.heap[a]? = some (.placeholder j)) ?_
  exact ⟨h.give hg (touches_getPlaceholderValue s.pool j), hg.ext, hg.get⟩

/-- A placeholder stays. -/
theorem Stays.placeholder {N j : ℕ} (hs : Stays N h h') (ha : h[a]? = some (.placeholder j)) :
    h'[a]? = some (.placeholder j) :=
  hs a _ ha (.inr (by simp))

theorem fixAdded_ok (E : Error → Prop) (N index : ℕ) :
    FixerOK E N (TestCaseMutator.fixAdded index) (added index) := by
  refine ⟨fun k j s _ h => ?_, fun hrep hs => ?_⟩
  · unfold TestCaseMutator.fixAdded
    exact givePlaceholder_ensures h _
  · exact hs.placeholder hrep

theorem fixRemoved_ok (gen : TestCaseGenerator) (root : ℕ) (h : Heap) (index : ℕ) :
    FixerOK (Stuck gen.store root) h.length (TestCaseMutator.fixRemoved gen root index) (removed gen root h index) := by
  refine ⟨fun k j s hN hready => ?_, fun {k j} h₁ h₂ a hrep hs => ?_⟩
  · unfold TestCaseMutator.fixRemoved removed
    by_cases hj : j = index
    · simp only [if_pos hj]
      refine (generateValue_ensures (generates_true gen.store root k) hready).with_run.mono ?_
      rintro a s' ⟨hrun, hnew⟩
      obtain ⟨T, hm, -, hge⟩ := hnew.made
      refine ⟨hnew.ready, hnew.ext, s, s', hready, hrun, fun b v hb hv => ⟨hv, ?_⟩⟩
      rintro es rfl
      exact Nat.le_trans hN (hge b (hm.mem_of_reach List.mem_cons_self hb hv))
    · simp only [if_neg hj]
      exact givePlaceholder_ensures hready _
  · unfold removed at hrep ⊢
    by_cases hj : j = index
    · rw [if_pos hj] at hrep ⊢
      obtain ⟨s₀, s₁, hready, hrun, hsame⟩ := hrep
      refine ⟨s₀, s₁, hready, hrun, fun b v hb hv => ?_⟩
      obtain ⟨hget, hge⟩ := hsame b v hb hv
      refine ⟨hs b v hget ?_, hge⟩
      by_cases harr : ∃ es, v = .array es
      · obtain ⟨es, hes⟩ := harr
        exact .inl (hge es hes)
      · exact .inr fun es hes => harr ⟨es, hes⟩
    · rw [if_neg hj] at hrep ⊢
      exact hs.placeholder hrep

/-! ## Inserting a call -/

/-- The number of original call `n` once a call has been inserted at `index`. -/
def shifted (index n : ℕ) : ℕ := if index ≤ n then n + 1 else n

section

variable {calls : List FunctionCall} {call : FunctionCall}

theorem insertIdx_eq (h : index ≤ calls.length) :
    calls.insertIdx index call = calls.take index ++ call :: calls.drop index := by
  induction index generalizing calls with
  | zero => rfl
  | succ index ih =>
    cases calls with
    | nil => simp at h
    | cons c calls =>
      rw [List.insertIdx_succ_cons, ih (by simpa using h)]
      rfl

theorem length_take (h : index ≤ calls.length) : (calls.take index).length = index := by
  rw [List.length_take, Nat.min_eq_left h]

/-- The calls up to the inserted one. -/
theorem take_insertIdx (h : index ≤ calls.length) :
    (calls.insertIdx index call).take (index + 1) = calls.take index ++ [call] := by
  rw [insertIdx_eq h, List.take_append, length_take h, Nat.add_sub_cancel_left, List.take_of_length_le]
  · rfl
  · rw [length_take h]
    omega

/-- The calls after the inserted one. -/
theorem drop_insertIdx (h : index ≤ calls.length) :
    (calls.insertIdx index call).drop (index + 1) = calls.drop index := by
  rw [insertIdx_eq h, List.drop_append, length_take h, Nat.add_sub_cancel_left, List.drop_of_length_le]
  · rfl
  · rw [length_take h]
    omega

end

/-- **A call has been inserted** at `index`, and the references to the others retargeted. -/
structure Inserted (I : FunctionIdType → Prop) (index : ℕ) (h : Heap) (tc : TestCase) (h' : Heap) (tc' : TestCase) :
    Prop where
  root : tc'.storeRootEntryIndex = tc.storeRootEntryIndex
  le : index ≤ tc.calls.length
  length : tc'.calls.length = tc.calls.length + 1
  retargeted : Retargeted (added index) h tc.calls h' (tc'.calls.eraseIdx index)
  new : ∃ call, tc'.calls[index]? = some call ∧ I call.funcId ∧ ∀ a ∈ call.roots, h'.Holds (Allowed I index) a

theorem Retargeted.callee {R : Replacement} {calls calls' : List FunctionCall} (hr : Retargeted R h calls h' calls')
    (hcalls : ∀ call ∈ calls, I call.funcId) : ∀ call' ∈ calls', I call'.funcId := by
  intro call' hmem
  obtain ⟨n, hn, rfl⟩ := List.getElem_of_mem hmem
  have hn' : n < calls.length := by rwa [hr.length] at hn
  have hcall := hr.call n _ _ (List.getElem?_eq_getElem hn') (List.getElem?_eq_getElem hn)
  rw [hcall.funcId]
  exact hcalls _ (List.getElem_mem hn')

/-- **References still point backwards.** -/
theorem Inserted.sane (hi : Inserted I index h tc h' tc') (hs : Sane I h tc) : Sane I h' tc' := by
  obtain ⟨call, hcall, hcallee, hnew⟩ := hi.new
  have hlt : index < tc'.calls.length := (List.getElem?_eq_some_iff.1 hcall).1
  have hkept := hi.retargeted.holds (Q := fun n => Allowed I (shifted index n)) hs.values
    (fun n l hl => allowed_literal hl _) (fun n es _ es' => allowed_array _ es') ?_
  · refine ⟨fun c hc => ?_, fun n c hc a ha => ?_⟩
    · obtain ⟨n, hn⟩ := List.mem_iff_getElem?.1 hc
      by_cases hne : n = index
      · rw [hne, hcall] at hn
        cases hn
        exact hcallee
      · refine hi.retargeted.callee hs.callees c ?_
        exact List.mem_eraseIdx_iff_getElem?.2 ⟨n, hne, hn⟩
    · rcases Nat.lt_trichotomy n index with hn | rfl | hn
      · have hsame := hkept n c (by rw [List.getElem?_eraseIdx_of_lt hn, hc]) a ha
        rwa [show shifted index n = n from if_neg (by omega)] at hsame
      · rw [hcall] at hc
        cases hc
        exact hnew a ha
      · obtain ⟨d, rfl⟩ := Nat.exists_eq_add_of_lt hn
        have hsame := hkept (index + d) c (by rw [List.getElem?_eraseIdx_of_ge (by omega), hc]) a ha
        rwa [show shifted index (index + d) = index + d + 1 from if_pos (by omega)] at hsame
  · intro n j a' m _ hj _ hrep
    refine .flat hrep (by simp) (allowed_placeholder.2 ?_)
    have hjn := allowed_placeholder.1 hj
    show (if index ≤ j then j + 1 else j) < shifted index n
    unfold shifted
    split <;> split <;> omega

/-- The values of a call that was just generated are not touched. -/
theorem FixedCalls.untouched {R : Replacement} {i : ℕ} {calls calls' : List FunctionCall} {F as : List Addr} {N : ℕ}
    {P : Value → Prop} (hf : FixedCalls R i h [] s calls calls' F s')
    (hcalls : ∀ n b, CallReaches h calls n b → b < N) {T : List Addr} (hm : Made P h as T) (hT : ∀ b ∈ T, N ≤ b)
    (ha : a ∈ as) : s'.heap.Holds P a := by
  refine (hm.holds ha).transfer fun b v hb hv => ?_
  by_cases harr : ∃ es, v = .array es
  · obtain ⟨es, rfl⟩ := harr
    refine hf.fixing.rest b es hv fun hmem => ?_
    obtain ⟨n, hreach, -⟩ := hf.fixed b hmem (by simp)
    exact absurd (hcalls n b hreach) (Nat.not_lt.2 (hT b (hm.mem_of_reach ha hb hv)))
  · exact hf.fixing.flat b v hv fun es hes => harr ⟨es, hes⟩

/-- `InsertFunctionCall`, and then the rest. -/
theorem ensures_insertFunctionCall {E : Error → Prop} {call : FunctionCall} {f : TestCase → FuzzM TestCase}
    {Q : TestCase → Fuzzer → Prop} (hle : index ≤ tc.calls.length)
    (hf : Ensures E (f { tc with calls := tc.calls.insertIdx index call }) s Q) :
    Ensures E (TestCaseMutator.insertFunctionCall tc index call >>= f) s Q := by
  unfold TestCaseMutator.insertFunctionCall
  rw [if_pos hle]
  refine Ensures.bind (P := fun t s' => t = { tc with calls := tc.calls.insertIdx index call } ∧ s' = s)
    (.pure ⟨rfl, rfl⟩) ?_
  intro t s' ⟨ht, hs'⟩
  subst t s'
  exact hf

/-- `RemoveFunctionCall` of the test case, and then the rest. -/
theorem ensures_eraseFunctionCall {E : Error → Prop} {f : TestCase → FuzzM TestCase} {Q : TestCase → Fuzzer → Prop}
    (hf : index < tc.calls.length → Ensures E (f { tc with calls := tc.calls.eraseIdx index }) s Q)
    (hE : tc.calls.length ≤ index → E .assertion) :
    Ensures E (TestCaseMutator.eraseFunctionCall tc index >>= f) s Q := by
  unfold TestCaseMutator.eraseFunctionCall
  split
  · rename_i hlt
    refine Ensures.bind (P := fun t s' => t = { tc with calls := tc.calls.eraseIdx index } ∧ s' = s)
      (.pure ⟨rfl, rfl⟩) ?_
    intro t s' ⟨ht, hs'⟩
    subst t s'
    exact hf hlt
  · rename_i hge
    exact Ensures.bind (P := fun _ _ => False) (.throw (hE (Nat.le_of_not_lt hge))) (by simp)

/-- **`AddFunctionCall`**, whose index is the first number drawn. -/
theorem addFunctionCall_ensures (hI : Admits gen.store tc.storeRootEntryIndex I) (h : PoolReady s.pool)
    (hs : Sane I s.heap tc) :
    Ensures (Stuck gen.store tc.storeRootEntryIndex) (TestCaseMutator.addFunctionCall gen tc) s fun tc' s' =>
      PoolReady s'.pool ∧ ∃ index, (∃ t, next 0 tc.calls.length s = .ok (index, t)) ∧
        Inserted I index s.heap tc s'.heap tc' := by
  unfold TestCaseMutator.addFunctionCall
  obtain ⟨index, rnd, -, hle, hnext⟩ := next_ok s (Nat.zero_le tc.calls.length)
  refine Ensures.bind (P := fun i t => i = index ∧ t = { s with rnd := rnd }) (.of_eq hnext ⟨rfl, rfl⟩) ?_
  rintro i t ⟨hi, ht⟩
  subst i t
  refine (generateFunctionCall_ensures (s := { s with rnd := rnd }) (hI.generates _) h).bind ?_
  rintro call s₁ ⟨hnew, d, hd, f, hf, hid⟩
  refine ensures_insertFunctionCall hle ?_
  have hx : s.heap <+: s₁.heap := hnew.ext
  have hold : ∀ c ∈ tc.calls.drop index, ∀ a ∈ c.roots, s₁.heap.Holds (fun _ => True) a := by
    intro c hc a ha
    obtain ⟨n, hn⟩ := List.mem_iff_getElem?.1 (List.mem_of_mem_drop hc)
    exact ((hs.values n c hn a ha).grow hx).mono fun _ _ => trivial
  -- the calls after the new one have moved by one, and so have the placeholders for them
  have hfix := fix_ensures (index + 1) { tc with calls := tc.calls.insertIdx index call }
    (fixAdded_ok (Stuck gen.store tc.storeRootEntryIndex) s₁.heap.length index) hnew.ready
    (by rwa [drop_insertIdx hle])
  refine hfix.mono ?_
  rintro _ s' ⟨calls', F', rfl, hfixed⟩
  dsimp only at hfixed ⊢
  rw [drop_insertIdx hle] at hfixed
  rw [take_insertIdx hle, List.append_assoc]
  have herase : (tc.calls.take index ++ ([call] ++ calls')).eraseIdx index = tc.calls.take index ++ calls' := by
    rw [List.eraseIdx_append_of_length_le (Nat.le_of_eq (length_take hle)), length_take hle, Nat.sub_self]
    rfl
  refine ⟨hfixed.fixing.ready, index, ⟨_, hnext⟩, rfl, hle, ?_, ?_, call, ?_, ?_, fun a ha => ?_⟩
  · have hlength := hfixed.length
    rw [List.length_drop] at hlength
    simp only [List.length_append, List.length_singleton, length_take hle, hlength]
    omega
  · rw [herase]
    refine hfixed.retargeted (P := Allowed I) hx hs.values (fun n j a hrep => hrep) (fun n hn j a hj hstay => ?_)
      fun n hn k j a hj hrep => hrep
    have hjn := allowed_placeholder.1 hj
    unfold added
    rwa [if_neg (by omega)]
  · rw [List.getElem?_append_right (Nat.le_of_eq (length_take hle)), length_take hle, Nat.sub_self]
    rfl
  · rw [← hid]
    exact hI d hd f hf
  · obtain ⟨T, hm, -, hge⟩ := hnew.made
    refine hfixed.untouched (fun n b hb => ?_) hm hge ha
    obtain ⟨v, hv, -⟩ := ((callReaches_iff hs.values hx).1 (callReaches_drop.1 hb)).get hs.values
    exact (List.getElem?_eq_some_iff.1 hv).1

/-! ## Removing a call -/

/-- **Call `index` has been removed**, and the references retargeted. Calls and their references are numbered
as they are without it. -/
structure Erased (gen : TestCaseGenerator) (index : ℕ) (h : Heap) (tc : TestCase) (h' : Heap) (tc' : TestCase) :
    Prop where
  root : tc'.storeRootEntryIndex = tc.storeRootEntryIndex
  lt : index < tc.calls.length
  retargeted : Retargeted (removed gen tc.storeRootEntryIndex h index) h (tc.calls.eraseIdx index) h' tc'.calls

/-- The calls that are left refer to what they referred to. -/
theorem Sane.erase (hs : Sane I h tc) (index n : ℕ) (call : FunctionCall)
    (hcall : (tc.calls.eraseIdx index)[n]? = some call) :
    ∀ a ∈ call.roots, h.Holds (Allowed I (shifted index n)) a := by
  intro a ha
  unfold shifted
  by_cases hn : index ≤ n
  · rw [List.getElem?_eraseIdx_of_ge hn] at hcall
    rw [if_pos hn]
    exact hs.values (n + 1) call hcall a ha
  · rw [List.getElem?_eraseIdx_of_lt (Nat.not_le.1 hn)] at hcall
    rw [if_neg hn]
    exact hs.values n call hcall a ha

/-- **References still point backwards.** -/
theorem Erased.sane (he : Erased gen index h tc h' tc') (hI : Admits gen.store tc.storeRootEntryIndex I)
    (hs : Sane I h tc) :
    Sane I h' tc' := by
  refine ⟨he.retargeted.callee fun call hmem => hs.callees call (List.mem_of_mem_eraseIdx hmem), ?_⟩
  refine he.retargeted.holds (P := fun n => Allowed I (shifted index n)) (hs.erase index)
    (fun n l hl => allowed_literal hl _) (fun n es _ es' => allowed_array _ es') ?_
  intro n j a' m hmn hj hj' hrep
  have hjn := allowed_placeholder.1 hj
  unfold removed at hrep
  unfold shifted at hjn
  by_cases hji : j = index
  · rw [if_pos hji] at hrep
    exact (hrep.holds (hI.generates m)).mono fun v hv => hv.mono hmn
  · rw [if_neg hji] at hrep
    refine .flat hrep (by simp) (allowed_placeholder.2 ?_)
    split at hjn <;> split <;> omega

/-- **`RemoveFunctionCall`**, whose index is the first number drawn. -/
theorem removeFunctionCall_ensures (h : PoolReady s.pool) (hs : Sane I s.heap tc) (hne : tc.calls ≠ []) :
    Ensures (Stuck gen.store tc.storeRootEntryIndex) (TestCaseMutator.removeFunctionCall gen tc) s fun tc' s' =>
      PoolReady s'.pool ∧ ∃ index, (∃ t, next 0 (lastIndex tc.calls.length) s = .ok (index, t)) ∧
        Erased gen index s.heap tc s'.heap tc' := by
  unfold TestCaseMutator.removeFunctionCall
  obtain ⟨index, rnd, -, hle, hnext⟩ := next_ok s (Nat.zero_le (lastIndex tc.calls.length))
  have hlt : index < tc.calls.length := lastIndex_lt (fun hlen => hne (List.length_eq_zero_iff.1 hlen)) hle
  refine Ensures.bind (P := fun i t => i = index ∧ t = { s with rnd := rnd }) (.of_eq hnext ⟨rfl, rfl⟩) ?_
  rintro i t ⟨hi, ht⟩
  subst i t
  refine ensures_eraseFunctionCall (fun _ => ?_) (fun hge => absurd hlt (Nat.not_lt.2 hge))
  have hcalls := hs.erase index
  have hold : ∀ c ∈ (tc.calls.eraseIdx index).drop index, ∀ a ∈ c.roots, s.heap.Holds (fun _ => True) a := by
    intro c hc a ha
    obtain ⟨n, hn⟩ := List.mem_iff_getElem?.1 (List.mem_of_mem_drop hc)
    exact (hcalls n c hn a ha).mono fun _ _ => trivial
  have hfix := fix_ensures (s := { s with rnd := rnd }) index { tc with calls := tc.calls.eraseIdx index }
    (fixRemoved_ok gen tc.storeRootEntryIndex s.heap index) h hold
  refine hfix.mono ?_
  rintro _ s' ⟨calls', F', rfl, hfixed⟩
  refine ⟨hfixed.fixing.ready, index, ⟨_, hnext⟩, rfl, hlt, ?_⟩
  have hearlier : ∀ n < index, ∀ j, Allowed I (shifted index n) (.placeholder j) → j < index := by
    intro n hn j hj
    have hjn := allowed_placeholder.1 hj
    rw [shifted, if_neg (by omega)] at hjn
    omega
  refine hfixed.retargeted (P := fun n => Allowed I (shifted index n)) (List.prefix_refl _) hcalls
    (fun n j a hrep => hrep) (fun n hn j a hj hstay => ?_) fun n hn k j a hj hrep => ?_
  · have hji := hearlier n hn j hj
    unfold removed
    rwa [if_neg (by omega), if_neg (by omega)]
  · have hji := hearlier n hn j hj
    unfold removed at hrep ⊢
    rw [if_neg (by omega)] at hrep ⊢
    exact hrep

/-! ## References after inserting and removing -/

/-- Objects of other pools do not matter. -/
theorem ObjectPool.InMemory.ready {p : ObjectPool} (h : p.InMemory) : PoolReady p := by
  induction h with
  | new => exact ⟨new_ok, by simp [ObjectPool.new]⟩
  | op op _ ih => exact ih.apply op
  | setArray es' _ ha ih => exact ih.setArray es' ha
  | @other p v _ ih =>
    have hx : p.heap <+: p.heap ++ [v] := List.prefix_append _ _
    have hok : ObjectPoolOK { p with heap := p.heap ++ [v], arrayValues := p.arrayValues } := ih.ok.grow hx
    refine ⟨hok, fun a ha => ?_⟩
    obtain ⟨l, hl, hget⟩ := ih.plain a ha
    exact ⟨l, hl, getElem?_grows hx hget⟩

theorem wellFormed_iff : WellFormed h tc ↔ Sane (fun _ => True) h tc := by
  have hallowed : ∀ n v, Below n v ↔ Allowed (fun _ => True) n v := fun n v =>
    ⟨fun hv => ⟨hv, fun _ _ => trivial⟩, And.left⟩
  constructor
  · intro hw
    refine ⟨fun _ _ => trivial, fun n call hcall a ha => ?_⟩
    exact (sound_iff.1 (hw n call hcall a ha)).mono fun v => (hallowed n v).1
  · intro hs n call hcall a ha
    exact sound_iff.2 ((hs.values n call hcall a ha).mono fun v => (hallowed n v).2)

theorem admits_true (store : CAFStore) (root : ℕ) : Admits store root fun _ => True := fun _ _ _ _ => trivial

/-- No reference designates the inserted call. -/
theorem Inserted.not_designated (hi : Inserted I index h tc h' tc') (hs : Sane I h tc) :
    ∀ call ∈ tc'.calls.eraseIdx index, ∀ a ∈ call.roots, h'.Holds (fun v => v ≠ .placeholder index) a := by
  intro call hcall a ha
  obtain ⟨n, hn⟩ := List.mem_iff_getElem?.1 hcall
  refine hi.retargeted.holds (Q := fun _ v => v ≠ .placeholder index) hs.values (by simp) (by simp) ?_ n call hn a ha
  intro _ j a' m _ _ _ hrep
  refine .flat hrep (by simp) ?_
  intro heq
  have hshift : (if index ≤ j then j + 1 else j) = index := Value.placeholder.inj heq
  split at hshift <;> omega

/-- **Inserting and removing calls retargets the references** of a well-formed test case, whatever its arrays are
shared with, and whatever is drawn. Both can stop only when the root entry leads to no function, or when there is
no call to remove. -/
theorem insertion_and_removal_retarget {gen : TestCaseGenerator} {s : Fuzzer} {tc : TestCase}
    (hpool : s.pool.InMemory) (hwf : WellFormed s.heap tc) :
    Ensures (Stuck gen.store tc.storeRootEntryIndex) (TestCaseMutator.addFunctionCall gen tc) s (fun tc' s' =>
      ∃ index, (∃ t, next 0 tc.calls.length s = .ok (index, t)) ∧ index ≤ tc.calls.length ∧
        tc'.storeRootEntryIndex = tc.storeRootEntryIndex ∧ tc'.calls.length = tc.calls.length + 1 ∧
        Retargeted (added index) s.heap tc.calls s'.heap (tc'.calls.eraseIdx index) ∧
        ∀ call ∈ tc'.calls.eraseIdx index, ∀ a ∈ call.roots, s'.heap.Holds (fun v => v ≠ .placeholder index) a) ∧
    Ensures (fun e => Stuck gen.store tc.storeRootEntryIndex e ∨ tc.calls = [])
      (TestCaseMutator.removeFunctionCall gen tc) s (fun tc' s' =>
        ∃ index, (∃ t, next 0 (lastIndex tc.calls.length) s = .ok (index, t)) ∧ index < tc.calls.length ∧
          tc'.storeRootEntryIndex = tc.storeRootEntryIndex ∧
          Retargeted (removed gen tc.storeRootEntryIndex s.heap index) s.heap
            (tc.calls.eraseIdx index) s'.heap tc'.calls) := by
  have hs := wellFormed_iff.1 hwf
  constructor
  · refine (addFunctionCall_ensures (admits_true _ _) hpool.ready hs).mono ?_
    rintro tc' s' ⟨-, index, hdrawn, hi⟩
    exact ⟨index, hdrawn, hi.le, hi.root, hi.length, hi.retargeted, hi.not_designated hs⟩
  · by_cases hne : tc.calls = []
    · -- without calls there is no index to remove
      unfold TestCaseMutator.removeFunctionCall
      refine ensures_draw (Draws.next (Nat.zero_le _)) fun index rnd _ => ?_
      refine ensures_eraseFunctionCall (fun hlt => ?_) fun _ => .inr hne
      simp [hne] at hlt
    · refine ((removeFunctionCall_ensures hpool.ready hs hne).excuse fun e he => .inl he).mono ?_
      rintro tc' s' ⟨-, index, hdrawn, he⟩
      exact ⟨index, hdrawn, he.lt, he.root, he.retargeted⟩

/-- A pool with an array that has a reference to the first call and itself as its elements. -/
def cyclicPool : ObjectPool :=
  let p := ((PoolOp.getPlaceholder 0).apply (PoolOp.createArray.apply .new).2).2
  { p with heap := p.heap.set 0 (.array [1, 0]) }

/-- Two calls share the array. -/
def cyclicCase : TestCase := ⟨0, [⟨7, none, false, []⟩, ⟨7, some 0, false, []⟩, ⟨7, none, true, [0]⟩]⟩

def smallStore : CAFStore := CAFStore.new.addFunction ⟨7, [102]⟩

theorem cyclicPool_inMemory : cyclicPool.InMemory :=
  .setArray [1, 0] (.op (.getPlaceholder 0) (.op .createArray .new)) (show _ = some (Value.array []) from rfl)

theorem cyclicCase_wellFormed : WellFormed cyclicPool.heap cyclicCase := by
  have harray : ∀ n, 0 < n → Sound cyclicPool.heap.graph n 0 := by
    intro n hn
    refine sound_iff.2 fun b hb => ?_
    have hmem : b ∈ [0, 1] := Heap.mem_of_reach (K := [0, 1]) (by decide) (by decide) hb
    simp only [List.mem_cons, List.not_mem_nil, or_false] at hmem
    rcases hmem with rfl | rfl
    · exact ⟨.array [1, 0], rfl, by rintro j ⟨⟩⟩
    · refine ⟨.placeholder 0, rfl, ?_⟩
      rintro j ⟨⟩
      exact hn
  intro n call hcall a ha
  rcases n with - | - | - | n
  · cases hcall
    cases ha
  · cases hcall
    rw [List.mem_singleton.1 ha]
    exact harray 1 (by decide)
  · cases hcall
    rw [List.mem_singleton.1 ha]
    exact harray 2 (by decide)
  · cases hcall

theorem cyclic_insertion_and_removal_retarget :
    (∃ tc s, TestCaseMutator.addFunctionCall ⟨smallStore, {}⟩ cyclicCase ⟨cyclicPool, fun _ => 0⟩ = .ok (tc, s) ∧
      Retargeted (added 0) cyclicPool.heap cyclicCase.calls s.heap (tc.calls.eraseIdx 0)) ∧
    ∃ tc s, TestCaseMutator.removeFunctionCall ⟨smallStore, {}⟩ cyclicCase ⟨cyclicPool, fun _ => 0⟩ = .ok (tc, s) ∧
      Retargeted (removed ⟨smallStore, {}⟩ 0 cyclicPool.heap 0) cyclicPool.heap
        (cyclicCase.calls.eraseIdx 0) s.heap tc.calls := by
  obtain ⟨hadd, hremove⟩ := @insertion_and_removal_retarget ⟨smallStore, {}⟩ ⟨cyclicPool, fun _ => 0⟩ _
    cyclicPool_inMemory cyclicCase_wellFormed
  constructor
  · obtain ⟨tc, s, hrun⟩ : ∃ tc s,
        TestCaseMutator.addFunctionCall ⟨smallStore, {}⟩ cyclicCase ⟨cyclicPool, fun _ => 0⟩ = .ok (tc, s) :=
          ⟨_, _, rfl⟩
    obtain ⟨index, ⟨t, ht⟩, -, -, -, hr, -⟩ := hadd.of_ok hrun
    cases ht
    exact ⟨tc, s, hrun, hr⟩
  · obtain ⟨tc, s, hrun⟩ : ∃ tc s,
        TestCaseMutator.removeFunctionCall ⟨smallStore, {}⟩ cyclicCase ⟨cyclicPool, fun _ => 0⟩ = .ok (tc, s) :=
          ⟨_, _, rfl⟩
    obtain ⟨index, ⟨t, ht⟩, -, -, hr⟩ := hremove.of_ok hrun
    cases ht
    exact ⟨tc, s, hrun, hr⟩

end Caf
