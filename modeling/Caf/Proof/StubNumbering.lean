import Caf.Proof.StubFormat

/-!
# Runs on the input format

* `makeCalls_ok_iff`: when the calls of an input can be made.
* `slotCalls_eq`: without nested arrays, the object list has the numbering of the serializer.
* `runCafMain_encode_ok_iff`, `runCafMain_slots_iff`: **what this says about the generated program**.
-/

namespace Caf

open ObjectGraph Ir LittleEndian

variable {σ H : Type} (L : V8Lib σ H) (functions : ℕ)

/-! ## What can be made -/

section Returns

variable {L}

theorem exists_createShown {create : σ → Option (H × σ)} {showValue : H → σ → Option σ}
    (hcreate : ∀ v8, (create v8).isSome) (hshow : ∀ h v8, (showValue h v8).isSome) (v8 : σ) :
    ∃ x, createShown create showValue v8 = .ok x :=
  exists_bind_ok (exists_hostResult (hcreate v8)) fun x =>
    exists_bind_ok (exists_hostResult (hshow x.1 x.2)) fun v8 => ⟨(x.1, v8), rfl⟩

theorem exists_give {create : σ → Option (H × σ)} (hcreate : ∀ v8, (create v8).isSome) (s : StubProcess σ H) :
    ∃ x, s.give create = .ok x :=
  exists_bind_ok (exists_hostResult (hcreate s.v8)) fun x => ⟨(x.1, { s with v8 := x.2 }), rfl⟩

theorem exists_act {act : σ → Option σ} (hact : ∀ v8, (act v8).isSome) (s : StubProcess σ H) :
    ∃ s', s.act act = .ok s' :=
  exists_bind_ok (exists_hostResult (hact s.v8)) fun v8 => ⟨{ s with v8 := v8 }, rfl⟩

variable (hL : L.Returns)
include hL

theorem createLiteral_ok_iff (l : Literal) (v8 : σ) :
    (∃ x, createLiteral L functions l v8 = .ok x) ↔ l.Makeable functions := by
  cases l with
  | undefined => exact iff_true_intro (exists_hostResult (hL.createUndefined v8))
  | null => exact iff_true_intro (exists_hostResult (hL.createNull v8))
  | boolean b => exact iff_true_intro (exists_createShown (hL.createBoolean _) hL.showBoolean v8)
  | string str =>
    have hshown := exists_createShown (hL.createString str) hL.showString v8
    simp only [createLiteral, Literal.Makeable]
    split <;> simp_all
  | function id =>
    have hreturns := exists_hostResult (hL.createFunction id.toNat v8)
    simp only [createLiteral, Literal.Makeable]
    split <;> simp_all
  | integer n => exact iff_true_intro (exists_createShown (hL.createInteger n) hL.showInteger v8)
  | float x => exact iff_true_intro (exists_createShown (hL.createNumber x) hL.showNumber v8)

theorem makeLiteral_ok_iff (l : Literal) (s : StubProcess σ H) :
    (∃ x, makeLiteral L functions l s = .ok x) ↔ l.Makeable functions := by
  rw [← createLiteral_ok_iff functions hL l s.v8]
  exact exists_bind_return_iff

theorem makeValues_ok_iff (F : Forest Literal) (s : StubProcess σ H) :
    (∃ x, makeValues L functions F s = .ok x) ↔ F.All (Literal.Makeable functions) := by
  induction F generalizing s with
  | nil => exact iff_true_intro ⟨_, rfl⟩
  | leaf l rest ih =>
    refine Iff.trans (exists_bind_ok_iff fun x => ?_) (and_congr_left' (makeLiteral_ok_iff functions hL l s))
    exact exists_bind_return_iff.trans (ih x.2)
  | back k rest ih => exact exists_bind_return_iff.trans (ih s)
  | node sub rest ihs ih =>
    rw [makeValues_node]
    refine Iff.trans (exists_bind_ok_iff fun x => ?_) (and_congr_left' (ihs s))
    obtain ⟨y, hy⟩ := exists_give (hL.createArray x.1 (Int32.ofNat sub.length)) x.2
    simp only [makeArray, hy, ok_bind]
    exact exists_bind_return_iff.trans (ih _)

theorem exists_callApi (index : ℕ) (thisArg : Option H) (args : List (Option H)) (n : Int32) (s : StubProcess σ H) :
    ∃ s', callApi L index thisArg args n s = .ok s' :=
  exists_bind_ok (exists_give (hL.createFunctionCallbackInfo thisArg args n) s) fun info =>
    exists_bind_ok (exists_act (hL.invoke index info.1) info.2) fun s =>
      exists_bind_ok (exists_give (hL.getRetValue info.1) s) fun ret => ⟨saveToObjectList ret.1 ret.2, rfl⟩

theorem makeCall_ok_iff (st : Step FunctionIdType (Forest Literal)) (s : StubProcess σ H) :
    (∃ s', makeCall L functions st s = .ok s') ↔
      st.head.All (Literal.Makeable functions) ∧ st.args.All (Literal.Makeable functions) := by
  refine Iff.trans (exists_bind_ok_iff fun x => ?_) (and_congr_left' (makeValues_ok_iff functions hL st.head s))
  refine Iff.trans (exists_bind_ok_iff (p := True) fun y => ?_) ?_
  · exact iff_true_intro (exists_callApi hL st.op.toNat x.1.head?.join y.1 (Int32.ofNat st.args.length) y.2)
  · rw [and_true]
    exact makeValues_ok_iff functions hL st.args x.2

/-- **When the calls can be made**: no string is empty, and every function is there. -/
theorem makeCalls_ok_iff (Fs : List (Step FunctionIdType (Forest Literal))) (s : StubProcess σ H) :
    (∃ s', makeCalls L functions Fs s = .ok s') ↔
      ∀ st ∈ Fs, st.head.All (Literal.Makeable functions) ∧ st.args.All (Literal.Makeable functions) := by
  induction Fs generalizing s with
  | nil => simp [makeCalls]
  | cons st Fs ih =>
    rw [List.forall_mem_cons, ← makeCall_ok_iff functions hL st s]
    exact exists_bind_ok_iff fun s' => ih s'

end Returns

theorem countingLib_returns : countingLib.Returns := by
  constructor <;> intros <;> rfl

/-! ## The numbering -/

/-- The slots of a process whose arrays have all been made. -/
def StubProcess.pool (s : StubProcess σ H) : List (Option H) := s.objects.map some

theorem pool_get (s : StubProcess σ H) (k : ℕ) : s.pool[k]?.join = s.objects[k]? := by
  rw [StubProcess.pool, List.getElem?_map]
  cases s.objects[k]? <;> rfl

/-- Without an array, a slot that is still empty changes nothing. -/
theorem slotValues_append_none {F : Forest Literal} (hF : F.slots = 0) (pool : List (Option H)) (v8 : σ) :
    slotValues L functions F (pool ++ [none]) v8 =
      slotValues L functions F pool v8 >>= fun x => .ok (x.1, pool ++ [none], x.2.2) := by
  induction F generalizing pool v8 with
  | nil => rfl
  | leaf l rest ih =>
    simp only [slotValues, bind_assoc]
    refine bind_congr fun x => ?_
    simp only [ih hF, bind_assoc]
    rfl
  | back k rest ih =>
    have hget : (pool ++ [none])[k]?.join = pool[k]?.join := by
      rcases Nat.lt_trichotomy k pool.length with hk | rfl | hk
      · rw [List.getElem?_append_left hk]
      · simp
      · rw [List.getElem?_eq_none (by simp; omega), List.getElem?_eq_none (by omega)]
    simp only [slotValues, bind_assoc, ih hF, hget]
    rfl
  | node sub rest => simp [Forest.slots] at hF

theorem flat_of_slots {F : Forest Literal} (hF : F.slots = 0) : FlatForest F := by
  induction F with
  | nil => trivial
  | leaf l rest ih => exact ih hF
  | back k rest ih => exact ih hF
  | node sub rest => simp [Forest.slots] at hF

/-- Without arrays, nothing is saved. -/
theorem objects_makeValues {F : Forest Literal} (hF : F.slots = 0) {s : StubProcess σ H}
    {x : List (Option H) × StubProcess σ H} (h : makeValues L functions F s = .ok x) : x.2.objects = s.objects := by
  induction F generalizing s x with
  | nil =>
    cases h
    rfl
  | leaf l rest ih =>
    obtain ⟨y, hy, h⟩ := of_bind_ok h
    obtain ⟨v, -, hv⟩ := of_bind_ok hy
    obtain ⟨z, hz, h⟩ := of_bind_ok h
    cases h
    cases hv
    have hrest := ih hF hz
    exact hrest
  | back k rest ih =>
    obtain ⟨y, hy, h⟩ := of_bind_ok h
    cases h
    have hrest := ih hF hy
    exact hrest
  | node sub rest => simp [Forest.slots] at hF

/-- **Without nested arrays, the object list has the numbering of the serializer.** -/
theorem slotValues_eq {F : Forest Literal} (hF : FlatForest F) (s : StubProcess σ H) :
    slotValues L functions F s.pool s.v8 =
      makeValues L functions F s >>= fun (vs, s) => .ok (vs, s.pool, s.v8) := by
  induction F generalizing s with
  | nil => rfl
  | leaf l rest ih =>
    simp only [slotValues, makeValues, makeLiteral, bind_assoc]
    refine bind_congr fun x => ?_
    have hrest := ih hF { s with v8 := x.2 }
    simp only [StubProcess.pool] at hrest ⊢
    simp only [hrest, bind_assoc]
    rfl
  | back k rest ih =>
    simp only [slotValues, makeValues, pool_get, ih hF s, bind_assoc]
    rfl
  | node sub rest ihs ih =>
    have hsub := ihs (flat_of_slots hF.1) s
    simp only [slotValues, makeValues, slotValues_append_none L functions hF.1, hsub, bind_assoc]
    refine bind_congr_ok fun x hx => ?_
    -- nothing was saved since, so that the array gets the number of its slot
    have hobjects := objects_makeValues L functions hF.1 hx
    simp only [ok_bind, StubProcess.give, bind_assoc]
    refine bind_congr fun y => ?_
    have hrest := ih hF.2 (saveToObjectList y.1 { x.2 with v8 := y.2 })
    have hpool : (s.pool ++ [none]).set s.pool.length (some y.1) =
        (saveToObjectList y.1 { x.2 with v8 := y.2 }).pool := by
      rw [StubProcess.pool, ← hobjects]
      simp [saveToObjectList, StubProcess.pool]
    rw [← hpool] at hrest
    refine (congrArg (· >>= _) hrest).trans ?_
    simp only [bind_assoc]
    rfl

theorem slotCall_eq {st : Step FunctionIdType (Forest Literal)} (hhead : FlatForest st.head)
    (hargs : FlatForest st.args) (s : StubProcess σ H) :
    slotCall L functions st s.pool s.v8 = makeCall L functions st s >>= fun s => .ok (s.pool, s.v8) := by
  simp only [slotCall, makeCall, slotValues_eq L functions hhead, bind_assoc]
  refine bind_congr fun x => ?_
  simp only [ok_bind, slotValues_eq L functions hargs, bind_assoc]
  refine bind_congr fun y => ?_
  simp only [callApi, invokeApi, StubProcess.give, StubProcess.act, bind_assoc]
  refine bind_congr fun info => bind_congr fun v8 => bind_congr fun ret => ?_
  simp [saveToObjectList, StubProcess.pool, ok_bind, pure, Except.pure]

theorem slotCalls_eq {Fs : List (Step FunctionIdType (Forest Literal))}
    (hFs : ∀ st ∈ Fs, FlatForest st.head ∧ FlatForest st.args) (s : StubProcess σ H) :
    slotCalls L functions Fs s.pool s.v8 = makeCalls L functions Fs s >>= fun s => .ok (s.pool, s.v8) := by
  induction Fs generalizing s with
  | nil => rfl
  | cons st Fs ih =>
    obtain ⟨hhead, hargs⟩ := hFs st (by simp)
    simp only [slotCalls, makeCalls, slotCall_eq L functions hhead hargs, bind_assoc]
    exact bind_congr fun s' => ih (fun st' hst' => hFs st' (by simp [hst'])) s'

/-! ## Nested arrays -/

section Nested

/-- A slot holds an older value than a slot before it. -/
def Inverted (pool : List (Option ℕ)) : Prop :=
  ∃ (i : ℕ) (a b : ℕ), pool[i]? = some (some a) ∧ pool[i + 1]? = some (some b) ∧ b < a

theorem Inverted.append {pool : List (Option ℕ)} (h : Inverted pool) (l : List (Option ℕ)) : Inverted (pool ++ l) := by
  obtain ⟨i, a, b, ha, hb, hlt⟩ := h
  exact ⟨i, a, b, getElem?_append_of_some ha l, getElem?_append_of_some hb l, hlt⟩

/-- The slots that are taken: they come after those that there were, and hold values that were made before `v8`. -/
def Takes (pool pool' : List (Option ℕ)) (n v8 : ℕ) : Prop :=
  ∃ l, pool' = pool ++ l ∧ l.length = n ∧ ∀ x ∈ l, ∃ h < v8, x = some h

theorem createLiteral_le {l : Literal} {v8 : ℕ} {x : ℕ × ℕ} (h : createLiteral countingLib functions l v8 = .ok x) :
    v8 ≤ x.2 := by
  cases l with
  | string str =>
    simp only [createLiteral] at h
    split at h
    · cases h
    · cases h
      exact Nat.le_succ v8
  | function id =>
    simp only [createLiteral] at h
    split at h
    · cases h
      exact Nat.le_succ v8
    · cases h
  | _ =>
    cases h
    exact Nat.le_succ v8

/-- **Every array takes a slot**, and the values come from the counter. -/
theorem takes_slotValues (F : Forest Literal) : ∀ {pool : List (Option ℕ)} {v8 : ℕ}
    {x : List (Option ℕ) × List (Option ℕ) × ℕ}, slotValues countingLib functions F pool v8 = .ok x →
      v8 ≤ x.2.2 ∧ Takes pool x.2.1 F.slots x.2.2 := by
  induction F with
  | nil =>
    intro pool v8 x h
    cases h
    exact ⟨le_rfl, [], by simp [Forest.slots]⟩
  | leaf l rest ih =>
    intro pool v8 x h
    obtain ⟨y, hy, h⟩ := of_bind_ok h
    obtain ⟨z, hz, h⟩ := of_bind_ok h
    cases h
    exact ⟨(createLiteral_le functions hy).trans (ih hz).1, (ih hz).2⟩
  | back k rest ih =>
    intro pool v8 x h
    obtain ⟨z, hz, h⟩ := of_bind_ok h
    cases h
    have hrest := ih hz
    exact hrest
  | node sub rest ihs ih =>
    intro pool v8 x h
    obtain ⟨y, hy, h⟩ := of_bind_ok h
    obtain ⟨made, hmade, h⟩ := of_bind_ok h
    cases hmade
    obtain ⟨z, hz, h⟩ := of_bind_ok h
    cases h
    obtain ⟨hle, l, hl, hlen, hmem⟩ := ihs hy
    obtain ⟨hle', l', hl', hlen', hmem'⟩ := ih hz
    have hlt : y.2.2 < z.2.2 := hle'
    -- the slot of the array comes first, then those of the arrays inside it
    refine ⟨hle.trans hlt.le, some y.2.2 :: l ++ l', ?_, ?_, ?_⟩
    · rw [hl', hl, List.append_assoc, List.set_append_right _ _ le_rfl]
      simp
    · simp [Forest.slots, hlen, hlen']
      omega
    · intro w hw
      rcases List.mem_append.mp hw with hw | hw
      · rcases List.mem_cons.mp hw with rfl | hw
        · exact ⟨_, hlt, rfl⟩
        · obtain ⟨v, hv, rfl⟩ := hmem w hw
          exact ⟨v, hv.trans hlt, rfl⟩
      · exact hmem' w hw

/-- **An array is made after the arrays inside it**, but its slot comes before theirs. -/
theorem inverted_of_not_flat {F : Forest Literal} (hF : ¬ FlatForest F) : ∀ {pool : List (Option ℕ)} {v8 : ℕ}
    {x : List (Option ℕ) × List (Option ℕ) × ℕ}, slotValues countingLib functions F pool v8 = .ok x →
      Inverted x.2.1 := by
  induction F with
  | nil => exact absurd trivial hF
  | leaf l rest ih =>
    intro pool v8 x h
    obtain ⟨y, hy, h⟩ := of_bind_ok h
    obtain ⟨z, hz, h⟩ := of_bind_ok h
    cases h
    have hrest := ih hF hz
    exact hrest
  | back k rest ih =>
    intro pool v8 x h
    obtain ⟨z, hz, h⟩ := of_bind_ok h
    cases h
    have hrest := ih hF hz
    exact hrest
  | node sub rest ihs ih =>
    intro pool v8 x h
    obtain ⟨y, hy, h⟩ := of_bind_ok h
    obtain ⟨made, hmade, h⟩ := of_bind_ok h
    cases hmade
    obtain ⟨z, hz, h⟩ := of_bind_ok h
    cases h
    by_cases hsub : sub.slots = 0
    · have hrest := ih (fun hrest => hF ⟨hsub, hrest⟩) hz
      exact hrest
    · -- the first array inside has the slot behind it, and was made before it
      obtain ⟨-, l, hl, hlen, hmem⟩ := takes_slotValues functions sub hy
      obtain ⟨-, l', hl', -⟩ := takes_slotValues functions rest hz
      obtain ⟨w, l, rfl⟩ : ∃ w l₁, l = w :: l₁ := List.exists_cons_of_length_pos (by omega)
      obtain ⟨v, hv, rfl⟩ := hmem w (by simp)
      have hset : y.2.1.set pool.length (some y.2.2) =
          pool ++ some y.2.2 :: some v :: l := by
        rw [hl, List.append_assoc, List.set_append_right _ _ le_rfl]
        simp
      rw [hset] at hl'
      simp only [hl']
      refine Inverted.append ⟨pool.length, y.2.2, v, by simp, by simp, hv⟩ l'

/-- The values in the object list are older than the values to come, and each is older than those behind it. -/
def Aging (s : StubProcess ℕ ℕ) : Prop := (∀ h ∈ s.objects, h < s.v8) ∧ s.objects.Pairwise (· < ·)

theorem Aging.not_inverted {s : StubProcess ℕ ℕ} (h : Aging s) : ¬ Inverted s.pool := by
  rintro ⟨i, a, b, ha, hb, hlt⟩
  simp only [StubProcess.pool, List.getElem?_map, Option.map_eq_some_iff, Option.some.injEq] at ha hb
  obtain ⟨a', ha, rfl⟩ := ha
  obtain ⟨b', hb, rfl⟩ := hb
  obtain ⟨hi, rfl⟩ := List.getElem?_eq_some_iff.mp ha
  obtain ⟨hi', rfl⟩ := List.getElem?_eq_some_iff.mp hb
  have := List.pairwise_iff_getElem.mp h.2 i (i + 1) hi hi' (Nat.lt_succ_self i)
  omega

theorem Aging.later {s : StubProcess ℕ ℕ} (h : Aging s) {v8 : ℕ} (hv : s.v8 ≤ v8) : Aging { s with v8 := v8 } :=
  ⟨fun k hk => (h.1 k hk).trans_le hv, h.2⟩

/-- A new value is saved. -/
theorem Aging.save {s : StubProcess ℕ ℕ} (h : Aging s) : Aging (saveToObjectList s.v8 { s with v8 := s.v8 + 1 }) := by
  refine ⟨fun k hk => ?_, ?_⟩
  · rcases List.mem_append.mp hk with hk | hk
    · exact Nat.lt_succ_of_lt (h.1 k hk)
    · rw [List.mem_singleton.mp hk]
      exact Nat.lt_succ_self _
  · refine List.pairwise_append.mpr ⟨h.2, List.pairwise_singleton _ _, fun k hk k' hk' => ?_⟩
    rw [List.mem_singleton.mp hk']
    exact h.1 k hk

theorem aging_makeValues (F : Forest Literal) :
    ∀ {s : StubProcess ℕ ℕ} {x : List (Option ℕ) × StubProcess ℕ ℕ}, Aging s →
    makeValues countingLib functions F s = .ok x → Aging x.2 := by
  induction F with
  | nil =>
    intro s x hs h
    cases h
    exact hs
  | leaf l rest ih =>
    intro s x hs h
    obtain ⟨y, hy, h⟩ := of_bind_ok h
    obtain ⟨v, hv, hy⟩ := of_bind_ok hy
    obtain ⟨z, hz, h⟩ := of_bind_ok h
    cases h
    cases hy
    have hrest := ih (hs.later (createLiteral_le functions hv)) hz
    exact hrest
  | back k rest ih =>
    intro s x hs h
    obtain ⟨z, hz, h⟩ := of_bind_ok h
    cases h
    have hrest := ih hs hz
    exact hrest
  | node sub rest ihs ih =>
    intro s x hs h
    obtain ⟨y, hy, h⟩ := of_bind_ok h
    obtain ⟨made, hmade, h⟩ := of_bind_ok h
    cases hmade
    obtain ⟨z, hz, h⟩ := of_bind_ok h
    cases h
    have hrest := ih (ihs hs hy).save hz
    exact hrest

theorem aging_makeCall {st : Step FunctionIdType (Forest Literal)} {s s' : StubProcess ℕ ℕ} (hs : Aging s)
    (h : makeCall countingLib functions st s = .ok s') : Aging s' := by
  obtain ⟨y, hy, h⟩ := of_bind_ok h
  obtain ⟨z, hz, h⟩ := of_bind_ok h
  cases h
  have hvalues := aging_makeValues functions _ (aging_makeValues functions _ hs hy) hz
  exact (hvalues.later (Nat.le_succ z.2.v8)).save

theorem aging_makeCalls {Fs : List (Step FunctionIdType (Forest Literal))} {s s' : StubProcess ℕ ℕ} (hs : Aging s)
    (h : makeCalls countingLib functions Fs s = .ok s') : Aging s' := by
  induction Fs generalizing s with
  | nil =>
    cases h
    exact hs
  | cons st Fs ih =>
    obtain ⟨y, hy, h⟩ := of_bind_ok h
    exact ih (aging_makeCall functions hs hy) h

/-- A call only adds slots. -/
theorem slotCall_append {st : Step FunctionIdType (Forest Literal)} {pool : List (Option ℕ)} {v8 : ℕ}
    {x : List (Option ℕ) × ℕ} (h : slotCall countingLib functions st pool v8 = .ok x) : ∃ l, x.1 = pool ++ l := by
  obtain ⟨y, hy, h⟩ := of_bind_ok h
  obtain ⟨z, hz, h⟩ := of_bind_ok h
  cases h
  obtain ⟨-, l, hl, -⟩ := takes_slotValues functions _ hy
  obtain ⟨-, l', hl', -⟩ := takes_slotValues functions _ hz
  exact ⟨_, by rw [hl', hl, List.append_assoc, List.append_assoc]⟩

theorem inverted_slotCall {st : Step FunctionIdType (Forest Literal)}
    (hst : ¬ (FlatForest st.head ∧ FlatForest st.args)) {pool : List (Option ℕ)} {v8 : ℕ} {x : List (Option ℕ) × ℕ}
    (h : slotCall countingLib functions st pool v8 = .ok x) : Inverted x.1 := by
  obtain ⟨y, hy, h⟩ := of_bind_ok h
  obtain ⟨z, hz, h⟩ := of_bind_ok h
  cases h
  refine Inverted.append ?_ _
  by_cases hhead : FlatForest st.head
  · exact inverted_of_not_flat functions (fun hargs => hst ⟨hhead, hargs⟩) hz
  · obtain ⟨-, l, hl, -⟩ := takes_slotValues functions _ hz
    rw [hl]
    exact (inverted_of_not_flat functions hhead hy).append l

/-- Slots that are inverted stay so. -/
theorem Inverted.slotCalls {Fs : List (Step FunctionIdType (Forest Literal))} {pool : List (Option ℕ)} {v8 : ℕ}
    {x : List (Option ℕ) × ℕ} (hpool : Inverted pool)
    (h : slotCalls countingLib functions Fs pool v8 = .ok x) : Inverted x.1 := by
  induction Fs generalizing pool v8 with
  | nil =>
    cases h
    exact hpool
  | cons st Fs ih =>
    obtain ⟨y, hy, h⟩ := of_bind_ok h
    obtain ⟨l, hl⟩ := slotCall_append functions hy
    exact ih (by rw [hl]; exact hpool.append l) h

theorem inverted_slotCalls {Fs : List (Step FunctionIdType (Forest Literal))}
    {st : Step FunctionIdType (Forest Literal)} (hmem : st ∈ Fs) (hst : ¬ (FlatForest st.head ∧ FlatForest st.args))
    {pool : List (Option ℕ)} {v8 : ℕ} {x : List (Option ℕ) × ℕ}
    (h : slotCalls countingLib functions Fs pool v8 = .ok x) : Inverted x.1 := by
  induction Fs generalizing pool v8 with
  | nil => cases hmem
  | cons first Fs ih =>
    obtain ⟨y, hy, hrest⟩ := of_bind_ok h
    rcases List.mem_cons.mp hmem with rfl | hmem
    · exact (inverted_slotCall functions hst hy).slotCalls functions hrest
    · exact ih hmem hrest

end Nested

/-! ## The generated program -/

variable {names : List StdString}

/-- What the runs on an input leave is what its calls make. -/
theorem exists_run_encode_iff (hnames : names.length < 2 ^ 31) {Fs : List (Step FunctionIdType (Forest Literal))}
    (hlen : Fs.length < 2 ^ 31) (hFs : ∀ st ∈ Fs, FitsStubStep names.length st) (rest : List UInt8) (v8 : σ)
    (p : Except Fault (StubProcess σ H) → Prop) :
    (∃ n, ∀ fuel, n ≤ fuel → p (runCafMain L names fuel ⟨encodeStubInput Fs ++ rest, [], v8⟩)) ↔
      p (makeCalls L names.length Fs ⟨rest, [], v8⟩) := by
  obtain ⟨n, hsettles⟩ := settles_runCafMain L hnames ⟨encodeStubInput Fs ++ rest, [], v8⟩
    (readTestCase_ne_outOfFuel L names.length _)
  have hn : ∀ fuel, n ≤ fuel → runCafMain L names fuel ⟨encodeStubInput Fs ++ rest, [], v8⟩ =
      makeCalls L names.length Fs ⟨rest, [], v8⟩ := fun fuel hfuel =>
    (hsettles fuel hfuel).trans (readTestCase_encode L names.length hnames.le hlen hFs rfl)
  constructor
  · rintro ⟨n', hn'⟩
    have hp := hn' (max n n') (le_max_right n n')
    rwa [hn _ (le_max_left n n')] at hp
  · intro hp
    exact ⟨n, fun fuel hfuel => by rwa [hn fuel hfuel]⟩

/-- **What a run on an input leaves** is what its calls make. -/
theorem runCafMain_encode (hnames : names.length < 2 ^ 31) {Fs : List (Step FunctionIdType (Forest Literal))}
    (hlen : Fs.length < 2 ^ 31) (hFs : ∀ st ∈ Fs, FitsStubStep names.length st) (rest : List UInt8) (v8 : σ) :
    ∃ n, ∀ fuel, n ≤ fuel → runCafMain L names fuel ⟨encodeStubInput Fs ++ rest, [], v8⟩ =
      makeCalls L names.length Fs ⟨rest, [], v8⟩ :=
  (exists_run_encode_iff L hnames hlen hFs rest v8 (· = _)).mpr rfl

/-- A call with a string, a nested array and a reference to the first array. -/
def sampleCall : Step FunctionIdType (Forest Literal) :=
  ⟨0, .leaf .undefined .nil, .leaf (.string (text "a")) (.node (.node .nil .nil) (.back 0 .nil))⟩

theorem fits_sampleCall : ∀ st ∈ [sampleCall], FitsStubStep [text "f"].length st := by
  intro st hst
  obtain rfl := List.mem_singleton.mp hst
  exact ⟨by decide, by simp [sampleCall, FitsStubForest, Literal.FitsStub], rfl, by decide,
    by simp [sampleCall, FitsStubForest, Literal.FitsStub, Forest.length, text]⟩

theorem makeable_sampleCall : ∀ st ∈ [sampleCall],
    st.head.All (Literal.Makeable [text "f"].length) ∧ st.args.All (Literal.Makeable [text "f"].length) := by
  intro st hst
  obtain rfl := List.mem_singleton.mp hst
  simp [sampleCall, Forest.All, Literal.Makeable, text]

theorem runCafMain_encode_sample : ∃ n, ∀ fuel, n ≤ fuel →
    runCafMain countingLib [text "f"] fuel ⟨encodeStubInput [sampleCall] ++ [255], [], 0⟩ = .ok ⟨[255], [2, 3, 5], 6⟩ :=
  runCafMain_encode countingLib (by decide) (by decide) fits_sampleCall [255] 0

/-- **When the object list has the numbering of the serializer** in all runs on an input: no array lies in an array.
The slots of `slotCalls` are the numbers that the serializer writes, as `slotCalls_serialize` says. -/
theorem runCafMain_slots_iff (hnames : names.length < 2 ^ 31) {Fs : List (Step FunctionIdType (Forest Literal))}
    (hlen : Fs.length < 2 ^ 31) (hFs : ∀ st ∈ Fs, FitsStubStep names.length st)
    (hmake : ∀ st ∈ Fs, st.head.All (Literal.Makeable names.length) ∧ st.args.All (Literal.Makeable names.length)) :
    (∀ (σ H : Type) (L : V8Lib σ H) (rest : List UInt8) (v8 : σ), ∃ n, ∀ fuel, n ≤ fuel →
      runCafMain L names fuel ⟨encodeStubInput Fs ++ rest, [], v8⟩ >>= (fun s => .ok (s.pool, s.v8)) =
        slotCalls L names.length Fs [] v8) ↔
      ∀ st ∈ Fs, FlatForest st.head ∧ FlatForest st.args := by
  constructor
  · intro h st hst
    by_contra hflat
    have hrun := h ℕ ℕ countingLib [] 0
    rw [exists_run_encode_iff countingLib hnames hlen hFs [] 0
      (fun r => (r >>= fun s => .ok (s.pool, s.v8)) = slotCalls countingLib names.length Fs [] 0)] at hrun
    obtain ⟨s, hs⟩ := (makeCalls_ok_iff names.length countingLib_returns Fs ⟨[], [], 0⟩).mpr hmake
    rw [hs, ok_bind] at hrun
    have haging := aging_makeCalls names.length ⟨by simp, List.Pairwise.nil⟩ hs
    exact haging.not_inverted (inverted_slotCalls names.length hst hflat hrun.symm)
  · intro hflat σ H L rest v8
    rw [exists_run_encode_iff L hnames hlen hFs rest v8
      (fun r => (r >>= fun s => .ok (s.pool, s.v8)) = slotCalls L names.length Fs [] v8)]
    exact (slotCalls_eq L names.length hflat ⟨rest, [], v8⟩).symm

/-- In the sample, the inner array is saved first. -/
theorem runCafMain_slots_sample : ¬ ∀ (σ H : Type) (L : V8Lib σ H) (rest : List UInt8) (v8 : σ),
    ∃ n, ∀ fuel, n ≤ fuel →
      runCafMain L [text "f"] fuel ⟨encodeStubInput [sampleCall] ++ rest, [], v8⟩ >>= (fun s => .ok (s.pool, s.v8)) =
        slotCalls L [text "f"].length [sampleCall] [] v8 := by
  rw [@runCafMain_slots_iff [text "f"] (by decide) _ (by decide) fits_sampleCall makeable_sampleCall]
  simp [sampleCall, FlatForest, Forest.slots]

end Caf
