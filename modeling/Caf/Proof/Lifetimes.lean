import Caf.Spec.Lifetimes

/-!
# Which values outlive `clear`

Every object has one owner: `_values`, or a pointer of its own. The tables of strings and integers point to objects
of `_values`, so that `clear`, which destroys these, empties the tables along with them.

* `callStep`: what a call does to the owners.
* `tables_canonical`: the tables of every pool.
* `keepsPromises_iff`: when `clear` keeps what it promises.
-/

namespace Caf

open ObjectPool

variable {p q : ObjectPool} {r : PoolRun} {a b : Addr} {v : Value} {op : PoolOp} {call : PoolCall}
  {calls : List PoolCall}

/-- A pointer of the pool that owns an object, other than those of `_values`. -/
inductive PoolSlot where
  | undef
  | null
  | funcValues (id : FunctionIdType)
  | bool (b : Bool)
  | nan
  | inf
  | arrayValues (i : ℕ)
  | placeholderValues (i : ℕ)
  deriving DecidableEq

def ObjectPool.slot (p : ObjectPool) : PoolSlot → Option Addr
  | .undef => p.undef
  | .null => p.null
  | .funcValues id => p.funcValues id
  | .bool b => p.bool b
  | .nan => p.nan
  | .inf => p.inf
  | .arrayValues i => p.arrayValues[i]?
  | .placeholderValues i => p.placeholderValues[i]?.join

/-- A pointer of its own owns the object. -/
def ObjectPool.Named (p : ObjectPool) (a : Addr) : Prop := ∃ s, p.slot s = some a

/-- The entry of a table for what is asked for. -/
def PoolOp.entry (p : ObjectPool) : PoolOp → Option Addr
  | get (.string s) => p.strToValue s
  | get (.integer value) => p.intTable (value.toInt + 100).toNat
  | _ => none

/-! ## What a call does -/

/-- The object that is returned has a pointer of its own, and only it may be new. -/
structure NamedStep (p : ObjectPool) (r : Addr × ObjectPool) : Prop where
  heap : p.heap <+: r.2.heap
  values : r.2.values = p.values
  strToValue : r.2.strToValue = p.strToValue
  intTable : r.2.intTable = p.intTable
  named : ∀ b, r.2.Named b → p.Named b ∨ b = p.heap.length ∧ b < r.2.heap.length
  returned : r.2.Named r.1

/-- The object that is returned is new, and `_values` owns it. It may have become an entry of a table. -/
structure ValueStep (p : ObjectPool) (v : Value) (r : Addr × ObjectPool) : Prop where
  heap : r.2.heap = p.heap ++ [v]
  values : r.2.values = p.values ++ [p.heap.length]
  strToValue : ∀ s a, r.2.strToValue s = some a → p.strToValue s = some a ∨
    s.length ≤ maxStringLenInTable ∧ a = p.heap.length ∧ v = .literal (.string s)
  intTable : ∀ i a, r.2.intTable i = some a → p.intTable i = some a ∨
    i < integerTableSize ∧ a = p.heap.length ∧ v = .literal (.integer (Int32.ofInt (i - integerBias)))
  kept : ∀ (op : PoolOp) a, op.entry p = some a → op.entry r.2 = some a
  named : ∀ b, r.2.Named b → p.Named b
  returned : r.1 = p.heap.length

/-- What a call does. -/
inductive CallStep (p : ObjectPool) : PoolCall → Prop
  | named (op : PoolOp) (x : Addr × ObjectPool) : op.apply p = (some x.1, x.2) → ¬ op.Tabled → NamedStep p x →
      CallStep p (.request op)
  | value (call : PoolCall) (a : Addr) (q : ObjectPool) (v : Value) : call.apply p = (some a, q) →
      (∀ op, call = .request op → op.Promised → op.Tabled) → ValueStep p v (a, q) →
      (∀ op, call = .request op → op.Tabled → op.entry q = some a) → CallStep p call
  | hit (op : PoolOp) (a : Addr) : op.apply p = (some a, p) → op.Tabled → op.entry p = some a → CallStep p (.request op)
  | clear : CallStep p (.request .clear)

/-- An entry of a table that was written, or one that was there before. -/
theorem update_some {α β : Type} [DecidableEq α] {f : α → Option β} {k i : α} {x y : β}
    (h : Function.update f k (some x) i = some y) : f i = some y ∨ i = k ∧ y = x := by
  by_cases hi : i = k
  · subst hi
    rw [Function.update_self] at h
    exact .inr ⟨rfl, (Option.some.inj h).symm⟩
  · rw [Function.update_of_ne hi] at h
    exact .inl h

theorem namedStep_getOrCreate (s : PoolSlot) {ptr : Option Addr} {set : Addr → ObjectPool → ObjectPool}
    (hptr : ptr = p.slot s)
    (hset : ∀ a q, q = (p.allocate v).2 → (set a q).heap = q.heap ∧ (set a q).values = q.values ∧
      (set a q).strToValue = q.strToValue ∧ (set a q).intTable = q.intTable ∧
      (set a q).slot = Function.update q.slot s (some a)) : NamedStep p (p.getOrCreate ptr v set) := by
  unfold getOrCreate
  cases ptr with
  | some a => exact ⟨List.prefix_refl _, rfl, rfl, rfl, fun b hb => .inl hb, s, hptr.symm⟩
  | none =>
    obtain ⟨hheap, hvalues, hstr, hint, hslot⟩ := hset (p.allocate v).1 (p.allocate v).2 rfl
    have hnew : (set (p.allocate v).1 (p.allocate v).2).heap = p.heap ++ [v] := hheap
    refine ⟨?_, hvalues, hstr, hint, ?_, s, ?_⟩
    · dsimp only
      rw [hnew]
      exact List.prefix_append _ _
    · rintro b ⟨t, ht⟩
      dsimp only at ht ⊢
      rw [hslot] at ht
      rcases update_some ht with ht | ⟨rfl, rfl⟩
      · left
        exact ⟨t, ht⟩
      · right
        refine ⟨rfl, ?_⟩
        rw [hnew, List.length_append]
        exact Nat.lt_succ_self _
    · dsimp only
      rw [hslot, Function.update_self]

theorem valueStep_createValue (v : Value) : ValueStep p v (p.createValue v) := by
  refine ⟨rfl, rfl, fun s a ha => .inl ha, fun i a ha => .inl ha, ?_, fun b hb => hb, rfl⟩
  intro op a ha
  unfold PoolOp.entry at ha ⊢
  split at ha <;> exact ha

/-- A request whose object stays out of the tables. -/
theorem callStep_created {op : PoolOp} {v : Value}
    (happly : PoolCall.apply p (.request op) = (some p.heap.length, (p.createValue v).2))
    (hpromised : op.Promised → op.Tabled) (hnot : ¬ op.Tabled) : CallStep p (.request op) := by
  refine .value _ _ _ _ happly ?_ (valueStep_createValue v) ?_
  · intro op' hop
    cases hop
    exact hpromised
  · intro op' hop h
    cases hop
    exact absurd h hnot

theorem integerIndex_eq (value : Int32) :
    integerIndex value = if -100 ≤ value.toInt ∧ value.toInt < 400 then some (value.toInt + 100).toNat else none := by
  unfold integerIndex integerBias integerTableSize
  split
  · by_cases h : -100 ≤ value.toInt ∧ value.toInt < 400
    · rw [if_pos h, if_pos (by push_cast; omega)]
    · rw [if_neg h, if_neg (by push_cast; omega)]
  · rw [if_neg (by omega)]

/-- A request for a string. -/
theorem callStep_string (s : StdString) : CallStep p (.request (.get (.string s))) := by
  by_cases hs : s.length ≤ maxStringLenInTable
  · cases hentry : p.strToValue s with
    | some a =>
      have happly : PoolOp.apply p (.get (.string s)) = (some a, p) := by
        simp [PoolOp.apply, getLiteral, getOrCreateStringValue, hs, hentry]
      exact .hit _ a happly hs hentry
    | none =>
      have happly : PoolCall.apply p (.request (.get (.string s))) = (some p.heap.length,
          { (p.createValue (.literal (.string s))).2 with
            strToValue := Function.update p.strToValue s (some p.heap.length) }) := by
        simp [PoolCall.apply, PoolOp.apply, getLiteral, getOrCreateStringValue, hs, hentry, createValue, allocate]
      have hstep := valueStep_createValue (p := p) (.literal (.string s))
      refine .value _ _ _ _ happly (fun op hop _ => by cases hop; exact hs)
        ⟨hstep.heap, hstep.values, ?_, hstep.intTable, ?_, hstep.named, rfl⟩ ?_
      · intro t a ha
        rcases update_some ha with ha | ⟨rfl, rfl⟩
        · exact .inl ha
        · exact .inr ⟨hs, rfl, rfl⟩
      · intro op a ha
        unfold PoolOp.entry at ha ⊢
        split at ha
        · rename_i t
          have hts : t ≠ s := by
            intro hts
            rw [hts, hentry] at ha
            cases ha
          exact (Function.update_of_ne hts _ _).trans ha
        · exact ha
        · exact ha
      · intro op hop _
        cases hop
        exact Function.update_self _ _ _
  · have happly : PoolCall.apply p (.request (.get (.string s))) =
        (some p.heap.length, (p.createValue (.literal (.string s))).2) := by
      simp [PoolCall.apply, PoolOp.apply, getLiteral, getOrCreateStringValue, hs, createValue, allocate]
    exact callStep_created happly id hs

/-- A request for an integer. -/
theorem callStep_integer (value : Int32) : CallStep p (.request (.get (.integer value))) := by
  have hindex := integerIndex_eq value
  by_cases hv : -100 ≤ value.toInt ∧ value.toInt < 400
  · rw [if_pos hv] at hindex
    have hlt : (value.toInt + 100).toNat < integerTableSize := by
      unfold integerTableSize
      omega
    have hcast : Int32.ofInt ((value.toInt + 100).toNat - integerBias) = value := by
      unfold integerBias
      rw [Int.toNat_of_nonneg (by omega), add_sub_cancel_right, Int32.ofInt_toInt]
    cases hentry : p.intTable (value.toInt + 100).toNat with
    | some a =>
      have happly : PoolOp.apply p (.get (.integer value)) = (some a, p) := by
        simp [PoolOp.apply, getLiteral, getOrCreateIntegerValue, hindex, hentry]
      exact .hit _ a happly hv hentry
    | none =>
      have happly : PoolCall.apply p (.request (.get (.integer value))) = (some p.heap.length,
          { (p.createValue (.literal (.integer value))).2 with
            intTable := Function.update p.intTable (value.toInt + 100).toNat (some p.heap.length) }) := by
        simp [PoolCall.apply, PoolOp.apply, getLiteral, getOrCreateIntegerValue, hindex, hentry, createValue, allocate]
      have hstep := valueStep_createValue (p := p) (.literal (.integer value))
      refine .value _ _ _ _ happly (fun op hop _ => by cases hop; exact hv)
        ⟨hstep.heap, hstep.values, hstep.strToValue, ?_, ?_, hstep.named, rfl⟩ ?_
      · intro i a ha
        rcases update_some ha with ha | ⟨rfl, rfl⟩
        · exact .inl ha
        · exact .inr ⟨hlt, rfl, by rw [hcast]⟩
      · intro op a ha
        unfold PoolOp.entry at ha ⊢
        split at ha
        · exact ha
        · rename_i i
          have hi : (i.toInt + 100).toNat ≠ (value.toInt + 100).toNat := by
            intro hi
            rw [hi, hentry] at ha
            cases ha
          exact (Function.update_of_ne hi _ _).trans ha
        · exact ha
      · intro op hop _
        cases hop
        exact Function.update_self _ _ _
  · rw [if_neg hv] at hindex
    have happly : PoolCall.apply p (.request (.get (.integer value))) =
        (some p.heap.length, (p.createValue (.literal (.integer value))).2) := by
      simp [PoolCall.apply, PoolOp.apply, getLiteral, getOrCreateIntegerValue, hindex, createValue, allocate]
    exact callStep_created happly id hv

/-- A request for a floating-point number. -/
theorem callStep_float (x : Double) : CallStep p (.request (.get (.float x))) := by
  by_cases hnan : x.isNaN = true
  · refine .named _ (p.getOrCreateFloatValue x) rfl id ?_
    unfold getOrCreateFloatValue
    rw [if_pos hnan]
    refine namedStep_getOrCreate .nan rfl fun a q _ => ⟨rfl, rfl, rfl, rfl, ?_⟩
    funext t
    cases t <;> rfl
  · by_cases hinf : x.isInf = true
    · refine .named _ (p.getOrCreateFloatValue x) rfl id ?_
      unfold getOrCreateFloatValue
      rw [if_neg hnan, if_pos hinf]
      split
      all_goals
        refine namedStep_getOrCreate .inf rfl fun a q _ => ⟨rfl, rfl, rfl, rfl, ?_⟩
        funext t
        cases t <;> rfl
    · have happly : PoolCall.apply p (.request (.get (.float x))) =
          (some p.heap.length, (p.createValue (.literal (.float x))).2) := by
        simp [PoolCall.apply, PoolOp.apply, getLiteral, getOrCreateFloatValue, hnan, hinf, createValue, allocate]
      exact callStep_created happly (fun h => absurd h (by simp [PoolOp.Promised, hnan, hinf])) id

/-- A request for a placeholder. The slots that the table gains are null. -/
theorem callStep_placeholder (index : ℕ) : CallStep p (.request (.getPlaceholder index)) := by
  refine .named _ (p.getPlaceholderValue index) rfl id ?_
  unfold getPlaceholderValue
  extract_lets table q
  have hlen : index < table.length := by
    unfold table
    split
    · simp
      omega
    · omega
  have hget : ∀ i : ℕ, table[i]?.join = p.placeholderValues[i]?.join := by
    intro i
    unfold table
    split
    · rw [List.getElem?_append]
      split
      · rfl
      · rename_i hi
        rw [List.getElem?_replicate, List.getElem?_eq_none (by omega)]
        split <;> rfl
    · rfl
  have hslot : q.slot = p.slot := by
    funext t
    cases t with
    | placeholderValues i => exact hget i
    | _ => rfl
  have hstep : NamedStep q (q.getOrCreate table[index]?.join (.placeholder index) fun a p =>
      { p with placeholderValues := p.placeholderValues.set index (some a) }) := by
    refine namedStep_getOrCreate (.placeholderValues index) rfl ?_
    rintro a _ rfl
    refine ⟨rfl, rfl, rfl, rfl, ?_⟩
    funext t
    cases t with
    | placeholderValues i =>
      show (table.set index (some a))[i]?.join = _
      rw [Function.update_apply, List.getElem?_set]
      by_cases hi : i = index
      · subst hi
        simp [hlen]
      · rw [if_neg (Ne.symm hi), if_neg (by simpa using hi)]
        rfl
    | _ => rfl
  refine ⟨hstep.heap, hstep.values, hstep.strToValue, hstep.intTable, ?_, hstep.returned⟩
  intro b hb
  apply (hstep.named b hb).imp_left
  rintro ⟨t, ht⟩
  exact ⟨t, hslot ▸ ht⟩

theorem callStep_createArray : CallStep p (.request .createArray) := by
  refine .named _ p.createArrayValue rfl id ?_
  have hstep : NamedStep p
    (p.getOrCreate none (.array []) fun a p => { p with arrayValues := p.arrayValues ++ [a] }) := by
    refine namedStep_getOrCreate (.arrayValues p.arrayValues.length) (List.getElem?_eq_none (le_refl _)).symm ?_
    rintro a _ rfl
    refine ⟨rfl, rfl, rfl, rfl, ?_⟩
    funext t
    cases t with
    | arrayValues i =>
      show (p.arrayValues ++ [a])[i]? = _
      rw [Function.update_apply]
      by_cases hi : i = p.arrayValues.length
      · subst hi
        simp
      · rw [if_neg (by simpa using hi)]
        show _ = p.arrayValues[i]?
        by_cases hlt : i < p.arrayValues.length
        · rw [List.getElem?_append_left hlt]
        · rw [List.getElem?_eq_none (by simp; omega), List.getElem?_eq_none (by omega)]
    | _ => rfl
  exact hstep

/-- **What a call does.** -/
theorem callStep (p : ObjectPool) (call : PoolCall) : CallStep p call := by
  have hslot : ∀ {s : PoolSlot} {a : Addr} {q q' : ObjectPool}, (∀ t, q'.slot t = Function.update q.slot s (some a) t) →
      q'.slot = Function.update q.slot s (some a) := fun h => funext h
  cases call with
  | createValue v =>
    exact .value _ _ _ v rfl (fun op hop => by cases hop) (valueStep_createValue v) fun op hop => by cases hop
  | request op =>
    cases op with
    | clear => exact .clear
    | createArray => exact callStep_createArray
    | getPlaceholder index => exact callStep_placeholder index
    | get l =>
      cases l with
      | string s => exact callStep_string s
      | integer i => exact callStep_integer i
      | float x => exact callStep_float x
      | undefined =>
        refine .named _ p.getUndefinedValue rfl id ?_
        exact namedStep_getOrCreate .undef rfl fun a q _ => ⟨rfl, rfl, rfl, rfl, hslot fun t => by cases t <;> rfl⟩
      | null =>
        refine .named _ p.getNullValue rfl id ?_
        exact namedStep_getOrCreate .null rfl fun a q _ => ⟨rfl, rfl, rfl, rfl, hslot fun t => by cases t <;> rfl⟩
      | boolean b =>
        refine .named _ (p.getBooleanValue b) rfl id ?_
        refine namedStep_getOrCreate (.bool b) rfl fun a q _ => ⟨rfl, rfl, rfl, rfl, hslot fun t => ?_⟩
        cases t <;> simp [slot, Function.update_apply]
      | function funcId =>
        refine .named _ (p.getFunctionValue funcId) rfl id ?_
        refine namedStep_getOrCreate (.funcValues funcId) rfl fun a q _ => ⟨rfl, rfl, rfl, rfl, hslot fun t => ?_⟩
        cases t <;> simp [slot, Function.update_apply]

/-! ## Owners -/

/-- The owner of an object is a pointer of its own: `clear` does not reach the object. -/
structure Outlives (r : PoolRun) (a : Addr) : Prop where
  lt : a < r.pool.heap.length
  values : a ∉ r.pool.values
  destroyed : a ∉ r.destroyed

/-- **The owners, and the entries of the tables.** -/
structure Owned (r : PoolRun) : Prop where
  named : ∀ a, r.pool.Named a → Outlives r a
  values : ∀ a ∈ r.pool.values, a < r.pool.heap.length ∧ a ∉ r.destroyed
  destroyed : ∀ a ∈ r.destroyed, a < r.pool.heap.length
  strToValue : ∀ s a, r.pool.strToValue s = some a → s.length ≤ maxStringLenInTable ∧ a ∈ r.pool.values ∧
    r.pool.heap[a]? = some (.literal (.string s))
  intTable : ∀ i a, r.pool.intTable i = some a → i < integerTableSize ∧ a ∈ r.pool.values ∧
    r.pool.heap[a]? = some (.literal (.integer (Int32.ofInt (i - integerBias))))

theorem Owned.new : Owned .new where
  named := by
    rintro a ⟨s, hs⟩
    cases s with
    | placeholderValues i =>
      have hmem := List.mem_of_getElem? (Option.join_eq_some_iff.1 hs)
      simp [PoolRun.new, ObjectPool.new] at hmem
    | _ => cases hs
  values := fun a ha => by cases ha
  destroyed := fun a ha => by cases ha
  strToValue := fun s a ha => by cases ha
  intTable := fun i a ha => by cases ha

theorem step_of_apply (h : call.apply r.pool = (some a, q)) : r.step call = ⟨q, r.destroyed⟩ := by
  have hdestroys : call.destroys r.pool = [] := by
    unfold PoolCall.destroys
    split
    · cases h
    · rfl
  unfold PoolRun.step
  rw [hdestroys, h, List.append_nil]

theorem step_of_request (h : op.apply r.pool = (some a, q)) : r.step (.request op) = ⟨q, r.destroyed⟩ :=
  step_of_apply h

theorem Outlives.step (h : Outlives r a) (call : PoolCall) : Outlives (r.step call) a := by
  obtain ⟨hlt, hvalues, hdestroyed⟩ := h
  cases callStep r.pool call with
  | named op x happly _ hstep =>
    rw [step_of_request happly]
    exact ⟨hlt.trans_le hstep.heap.length_le, hstep.values ▸ hvalues, hdestroyed⟩
  | value _ c q v happly _ hstep _ =>
    rw [step_of_apply happly]
    refine ⟨?_, ?_, hdestroyed⟩
    · have hheap : q.heap = r.pool.heap ++ [v] := hstep.heap
      simp only [hheap, List.length_append]
      exact Nat.lt_add_right _ hlt
    · have heq : q.values = r.pool.values ++ [r.pool.heap.length] := hstep.values
      have hne : a ≠ r.pool.heap.length := Nat.ne_of_lt hlt
      simp [heq, hvalues, hne]
  | hit op c happly _ _ =>
    rw [step_of_request happly]
    exact ⟨hlt, hvalues, hdestroyed⟩
  | clear =>
    refine ⟨hlt, List.not_mem_nil, ?_⟩
    show a ∉ r.destroyed ++ r.pool.values
    simp [hvalues, hdestroyed]

/-- **A call keeps the owners in order.** -/
theorem Owned.step (h : Owned r) (call : PoolCall) : Owned (r.step call) := by
  have hkept := fun {a} (ha : r.pool.Named a) => (h.named a ha).step call
  cases callStep r.pool call with
  | named op x happly _ hstep =>
    rw [step_of_request happly] at hkept ⊢
    have hgrow := hstep.heap.length_le
    refine ⟨?_, ?_, fun a ha => (h.destroyed a ha).trans_le hgrow, ?_, ?_⟩
    · -- an object that has just got its pointer is new
      intro a ha
      rcases hstep.named a ha with hold | ⟨rfl, hlt⟩
      · exact hkept hold
      · refine ⟨hlt, ?_, fun hmem => lt_irrefl _ (h.destroyed _ hmem)⟩
        rw [hstep.values]
        exact fun hmem => lt_irrefl _ (h.values _ hmem).1
    · intro a ha
      rw [hstep.values] at ha
      exact ⟨(h.values a ha).1.trans_le hgrow, (h.values a ha).2⟩
    · intro s a ha
      rw [hstep.strToValue] at ha
      obtain ⟨hs, hmem, hget⟩ := h.strToValue s a ha
      exact ⟨hs, hstep.values ▸ hmem, ObjectGraph.getElem?_grows hstep.heap hget⟩
    · intro i a ha
      rw [hstep.intTable] at ha
      obtain ⟨hi, hmem, hget⟩ := h.intTable i a ha
      exact ⟨hi, hstep.values ▸ hmem, ObjectGraph.getElem?_grows hstep.heap hget⟩
  | value _ c q v happly _ hstep _ =>
    rw [step_of_apply happly] at hkept ⊢
    have hheap : q.heap = r.pool.heap ++ [v] := hstep.heap
    have hvalues : q.values = r.pool.values ++ [r.pool.heap.length] := hstep.values
    have hgrows : r.pool.heap <+: q.heap := hheap ▸ List.prefix_append _ _
    have hlt : r.pool.heap.length < q.heap.length := by simp [hheap]
    have hnew : r.pool.heap.length ∈ q.values := by simp [hvalues]
    have hget : q.heap[r.pool.heap.length]? = some v := by simp [hheap]
    refine ⟨fun a ha => hkept (hstep.named a ha), ?_, ?_, ?_, ?_⟩
    · intro a ha
      dsimp only at ha ⊢
      rw [hvalues, List.mem_append, List.mem_singleton] at ha
      rcases ha with ha | rfl
      · exact ⟨(h.values a ha).1.trans hlt, (h.values a ha).2⟩
      · exact ⟨hlt, fun hmem => lt_irrefl _ (h.destroyed _ hmem)⟩
    · intro a ha
      exact (h.destroyed a ha).trans hlt
    · intro s a ha
      rcases hstep.strToValue s a ha with ha | ⟨hs, rfl, rfl⟩
      · obtain ⟨hs, hmem, hold⟩ := h.strToValue s a ha
        exact ⟨hs, by simp [hvalues, hmem], ObjectGraph.getElem?_grows hgrows hold⟩
      · exact ⟨hs, hnew, hget⟩
    · intro i a ha
      rcases hstep.intTable i a ha with ha | ⟨hi, rfl, rfl⟩
      · obtain ⟨hi, hmem, hold⟩ := h.intTable i a ha
        exact ⟨hi, by simp [hvalues, hmem], ObjectGraph.getElem?_grows hgrows hold⟩
      · exact ⟨hi, hnew, hget⟩
  | hit op c happly _ _ =>
    rw [step_of_request happly]
    exact h
  | clear =>
    refine ⟨fun a ha => hkept ha, fun a ha => (by cases ha), ?_, fun s a ha => (by cases ha), fun i a ha =>
      (by cases ha)⟩
    intro a ha
    rcases List.mem_append.1 ha with ha | ha
    · exact h.destroyed a ha
    · exact (h.values a ha).1

theorem Owned.run (h : Owned r) (calls : List PoolCall) : Owned (r.run calls) := by
  induction calls generalizing r with
  | nil => exact h
  | cons call calls ih => exact ih (h.step call)

theorem Outlives.run (h : Outlives r a) (calls : List PoolCall) : Outlives (r.run calls) a := by
  induction calls generalizing r with
  | nil => exact h
  | cons call calls ih => exact ih (h.step call)

/-- The objects stay as they are. -/
theorem step_heap (r : PoolRun) (call : PoolCall) : r.pool.heap <+: (r.step call).pool.heap := by
  cases callStep r.pool call with
  | named op x happly _ hstep =>
    rw [step_of_request happly]
    exact hstep.heap
  | value _ c q v happly _ hstep _ =>
    rw [step_of_apply happly]
    have hheap : q.heap = r.pool.heap ++ [v] := hstep.heap
    exact hheap ▸ List.prefix_append _ _
  | hit op c happly _ _ =>
    have heap : (r.step (.request op)).pool.heap = r.pool.heap := by rw [step_of_request happly]
    exact heap ▸ List.prefix_refl _
  | clear => exact List.prefix_refl _

theorem run_heap (r : PoolRun) (calls : List PoolCall) : r.pool.heap <+: (r.run calls).pool.heap := by
  induction calls generalizing r with
  | nil => exact List.prefix_refl _
  | cons call calls ih => exact (step_heap r call).trans (ih _)

theorem run_append (r : PoolRun) (before after : List PoolCall) : r.run (before ++ after) = (r.run before).run after :=
  List.foldl_append

/-! ## What `clear` keeps -/

theorem destroyed_run (h : a ∈ r.destroyed) (calls : List PoolCall) : a ∈ (r.run calls).destroyed := by
  induction calls generalizing r with
  | nil => exact h
  | cons call calls ih => exact ih (List.mem_append_left _ h)

/-- Only `clear` takes an object from `_values`. -/
theorem values_step (h : a ∈ r.pool.values) (call : PoolCall) :
    a ∈ (r.step call).pool.values ∨ call = .request .clear := by
  cases callStep r.pool call with
  | named op x happly _ hstep =>
    rw [step_of_request happly, hstep.values]
    exact .inl h
  | value _ c q v happly _ hstep _ =>
    rw [step_of_apply happly]
    have hvalues : q.values = r.pool.values ++ [r.pool.heap.length] := hstep.values
    left
    simp [hvalues, h]
  | hit op c happly _ _ =>
    rw [step_of_request happly]
    exact .inl h
  | clear => exact .inr rfl

/-- **What `_values` owns, `clear` destroys.** -/
theorem destroyed_of_clear (h : a ∈ r.pool.values) (calls : List PoolCall) (hclear : .request .clear ∈ calls) :
    a ∈ (r.run calls).destroyed := by
  induction calls generalizing r with
  | nil => cases hclear
  | cons call calls ih =>
    rcases values_step h call with hvalues | rfl
    · rcases List.mem_cons.1 hclear with rfl | hclear
      · cases hvalues
      · exact ih hvalues hclear
    · exact destroyed_run (List.mem_append_right _ h) calls

/-- Every pool has its owners in order. -/
theorem owned (calls : List PoolCall) : Owned (PoolRun.new.run calls) := Owned.new.run calls

theorem PoolOp.Tabled.promised (h : op.Tabled) : op.Promised := by
  unfold PoolOp.Promised
  split
  all_goals first
    | exact h
    | exact h.elim

/-- What is returned is the entry, new or not. -/
theorem entry_apply (h : op.Tabled) : op.entry (op.apply p).2 = (op.apply p).1 := by
  cases callStep p (.request op) with
  | named _ x happly hnot _ => exact absurd h hnot
  | value _ a q v happly _ _ hentry =>
    have heq : op.apply p = (some a, q) := happly
    rw [heq]
    exact hentry op rfl h
  | hit _ a happly _ hentry =>
    rw [happly]
    exact hentry
  | clear => exact h.elim

theorem apply_of_entry (h : op.Tabled) (hentry : op.entry p = some a) : (op.apply p).1 = some a := by
  have hkept : op.entry (op.apply p).2 = some a := by
    cases callStep p (.request op) with
    | named _ x happly hnot _ => exact absurd h hnot
    | value _ b q v happly _ hstep _ =>
      have heq : op.apply p = (some b, q) := happly
      rw [heq]
      exact hstep.kept op a hentry
    | hit _ b happly _ _ =>
      rw [happly]
      exact hentry
    | clear => exact h.elim
  rw [← entry_apply h, hkept]

theorem Owned.entry (h : Owned r) (hentry : op.entry r.pool = some a) : a ∈ r.pool.values := by
  unfold PoolOp.entry at hentry
  split at hentry
  · exact (h.strToValue _ a hentry).2.1
  · exact (h.intTable _ a hentry).2.1
  · cases hentry

/-- **`clear` keeps its promises just if nothing that has a place in a table was asked for before.** -/
theorem keepsPromises_iff (calls : List PoolCall) : KeepsPromises calls ↔ NoneTabled calls := by
  constructor
  · -- `_values` owns an entry of a table, so `clear` destroys it
    intro h before op after hcalls hclear htabled
    obtain ⟨a, v, ha, -, hlive, -⟩ := h before op after hcalls htabled.promised hclear
    have howned : Owned ((PoolRun.new.run before).step (.request op)) := (owned before).step _
    have hmem : a ∈ ((PoolRun.new.run before).step (.request op)).pool.values :=
      howned.entry ((entry_apply htabled).trans ha)
    apply hlive
    rw [hcalls, run_append]
    exact destroyed_of_clear hmem after hclear
  · -- what is promised and has no place in a table has a pointer of its own
    intro h before op after hcalls hpromised hclear
    have hnot := h before op after hcalls hclear
    have hrun : PoolRun.new.run calls = ((PoolRun.new.run before).step (.request op)).run after := by
      rw [hcalls, run_append]
      rfl
    have howned : Owned ((PoolRun.new.run before).step (.request op)) := (owned before).step _
    rw [hrun, run_append]
    show ∃ a v, _ ∧ ((PoolRun.new.run before).step (.request op)).Designates a v ∧ _
    cases callStep (PoolRun.new.run before).pool (.request op) with
    | named _ x happly _ hstep =>
      have hpool : ((PoolRun.new.run before).step (.request op)).pool = x.2 := by
        rw [step_of_request happly]
      have hkept := howned.named x.1 (hpool ▸ hstep.returned)
      have hget := List.getElem?_eq_getElem hkept.lt
      refine ⟨x.1, _, by rw [happly], ⟨hkept.destroyed, hget⟩, (hkept.run after).destroyed, ?_⟩
      exact ObjectGraph.getElem?_grows (run_heap _ after) hget
    | value _ _ _ _ _ htabled _ _ => exact absurd (htabled op rfl hpromised) hnot
    | hit _ _ _ htabled _ => exact absurd htabled hnot
    | clear => exact hpromised.elim

/-- The empty string is destroyed. -/
theorem emptyString_not_kept : ¬ KeepsPromises [.request (.get (.string [])), .request .clear] := by
  intro h
  obtain ⟨a, v, ha, -, hlive, -⟩ := h [] (.get (.string [])) [.request .clear] rfl (Nat.zero_le _) List.mem_cons_self
  have hzero : (0 : Addr) = a := Option.some.inj ha
  apply hlive
  rw [← hzero]
  exact List.mem_singleton_self 0

/-! ## The tables -/

/-- Only `clear` empties the tables. -/
theorem entry_step (hentry : op.entry r.pool = some a) (hcall : call ≠ .request .clear) :
    op.entry (r.step call).pool = some a := by
  cases callStep r.pool call with
  | named other x happly _ hstep =>
    rw [step_of_request happly]
    unfold PoolOp.entry at hentry ⊢
    rw [hstep.strToValue, hstep.intTable]
    exact hentry
  | value _ b q v happly _ hstep _ =>
    rw [step_of_apply happly]
    exact hstep.kept op a hentry
  | hit other b happly _ _ =>
    rw [step_of_request happly]
    exact hentry
  | clear => exact absurd rfl hcall

theorem entry_run (hentry : op.entry r.pool = some a) (calls : List PoolCall) (hclear : .request .clear ∉ calls) :
    op.entry (r.run calls).pool = some a := by
  induction calls generalizing r with
  | nil => exact hentry
  | cons call calls ih =>
    have hcall : call ≠ .request .clear := fun h => hclear (h ▸ List.mem_cons_self)
    exact ih (entry_step hentry hcall) fun h => hclear (List.mem_cons_of_mem _ h)

/-- **The index is computed without overflow**, and a negative sum is too large a `size_t`. -/
theorem tableIndex_eq (value : Int32) : tableIndex value =
    some (if -100 ≤ value.toInt ∧ value.toInt < 400 then some (value.toInt + 100).toNat else none) := by
  have hmin := value.minValue_le_toInt
  have hmax := value.toInt_le
  have hlo : Int32.minValue.toInt = -2147483648 := rfl
  have hhi : Int32.maxValue.toInt = 2147483647 := rfl
  have hbias : (Int32.ofInt integerBias).toInt = 100 := rfl
  have hlimit : Checked.sub Int32.maxValue (Int32.ofInt integerBias) = some (Int32.ofInt 2147483547) := rfl
  unfold tableIndex
  rw [hlimit]
  show (if value.toInt ≤ 2147483547 then _ else _) = _
  by_cases hle : value.toInt ≤ 2147483547
  · rw [if_pos hle]
    have hsum : Checked.add value (Int32.ofInt integerBias) = some (Int32.ofInt (value.toInt + 100)) := by
      unfold Checked.add Checked.ofInt
      rw [hbias, if_pos (by omega)]
    have hto : (Int32.ofInt (value.toInt + 100)).toInt = value.toInt + 100 :=
      Int32.toInt_ofInt_of_le (by omega) (by omega)
    rw [hsum]
    show some (if ((Int32.ofInt (value.toInt + 100)).toInt % 2 ^ 64).toNat < 500 then _ else _) = _
    rw [hto]
    by_cases hin : -100 ≤ value.toInt ∧ value.toInt < 400
    · have hmod : (value.toInt + 100) % 2 ^ 64 = value.toInt + 100 := Int.emod_eq_of_lt (by omega) (by omega)
      rw [if_pos hin, hmod, if_pos (by omega)]
    · rw [if_neg hin, if_neg (by omega)]
  · rw [if_neg hle, if_neg (by omega)]
    rfl

/-- **The table of integers is used right**, for every integer. -/
theorem indexedRight (p : ObjectPool) (value : Int32) : IndexedRight p value := by
  refine ⟨tableIndex_eq value, ?_, ?_⟩
  · intro hin
    refine ⟨by unfold integerTableSize; omega, ?_⟩
    have htabled : (PoolOp.get (.integer value)).Tabled := hin
    exact entry_apply (p := p) htabled
  · intro hout
    have hindex : integerIndex value = none := by rw [integerIndex_eq, if_neg hout]
    unfold getOrCreateIntegerValue
    rw [hindex]

theorem Owned.tablesLive (h : Owned r) : TablesLive r where
  intTable := fun i a ha => by
    obtain ⟨hi, hmem, hget⟩ := h.intTable i a ha
    exact ⟨hi, hmem, (h.values a hmem).2, hget⟩
  strToValue := fun s a ha => by
    obtain ⟨hs, hmem, hget⟩ := h.strToValue s a ha
    exact ⟨hs, hmem, (h.values a hmem).2, hget⟩

/-- **The tables hold live, canonical entries.** -/
theorem tables_canonical (calls : List PoolCall) :
    TablesLive (PoolRun.new.run calls) ∧ (∀ value, IndexedRight (PoolRun.new.run calls).pool value) ∧
      ∀ (op : PoolOp) between, op.Tabled → .request .clear ∉ between →
        ∃ a, (op.apply (PoolRun.new.run calls).pool).1 = some a ∧
          (op.apply (PoolRun.new.run (calls ++ .request op :: between)).pool).1 = some a := by
  refine ⟨(owned calls).tablesLive, indexedRight _, fun op between htabled hclear => ?_⟩
  have hentry := entry_apply (p := (PoolRun.new.run calls).pool) htabled
  obtain ⟨a, ha⟩ : ∃ a, (op.apply (PoolRun.new.run calls).pool).1 = some a := by
    cases op with
    | clear => exact htabled.elim
    | _ => exact ⟨_, rfl⟩
  refine ⟨a, ha, apply_of_entry htabled ?_⟩
  rw [run_append]
  exact entry_run (r := (PoolRun.new.run calls).step (.request op)) (hentry.trans ha) between hclear

end Caf
