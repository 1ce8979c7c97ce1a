import Caf.Proof.Serialize
import Caf.Proof.StubNumbering

/-!
# The numbers of the serializer

`slotCalls` gives a slot to every array when it is met and to every call when it has returned. These are the numbers
that the serializer writes.

* `slotCalls_walk`: every slot holds what has been made of its referent.
* `slotCalls_serialize`: so do the numbers in the serializer's context.
* `runCafMain_serialize`: without nested arrays, so do the indices of the object list after a run.
-/

namespace Caf

open ObjectGraph Ir

variable {σ H : Type} (L : V8Lib σ H) (functions : ℕ)

/-! ## Tables and slots -/

namespace HandleTable

/-- The slots of `S`, with what has been made of their referents. -/
def pool (made : HandleTable H) (S : List Referent) : List (Option H) := S.map fun r => (made r).join

/-- What has been met is what has a slot in `S`. -/
structure On (made : HandleTable H) (S : List Referent) : Prop where
  nodup : S.Nodup
  met : ∀ r, (made r).isSome ↔ r ∈ S

variable {made : HandleTable H} {S : List Referent} {r : Referent}

theorem on_nil : HandleTable.On (H := H) (fun _ => none) [] := ⟨List.nodup_nil, by simp⟩

@[simp] theorem length_pool (made : HandleTable H) (S : List Referent) : (made.pool S).length = S.length :=
  List.length_map _

theorem pool_get {k : ℕ} (hk : S[k]? = some r) : (made.pool S)[k]?.join = (made r).join := by
  simp [pool, hk]

theorem On.none (h : made.On S) (hr : r ∉ S) : made r = none := by
  have := (h.met r).not.mpr hr
  simpa using this

/-- Something is met, and takes the next slot. -/
theorem On.append (h : made.On S) (hr : r ∉ S) (v : Option H) :
    HandleTable.On (Function.update made r (some v)) (S ++ [r]) := by
  refine ⟨List.nodup_append.mpr ⟨h.nodup, List.nodup_singleton r, fun x hx y hy => ?_⟩, fun x => ?_⟩
  · obtain rfl := List.mem_singleton.mp hy
    exact fun hxy => hr (hxy ▸ hx)
  · by_cases hx : x = r
    · subst hx
      simp
    · simp [h.met x, hx]

theorem pool_append (hr : r ∉ S) (v : Option H) :
    HandleTable.pool (Function.update made r (some v)) (S ++ [r]) = made.pool S ++ [v] := by
  have hsame : S.map (fun x => (Function.update made r (some v) x).join) = made.pool S := by
    refine List.map_congr_left fun x hx => ?_
    have hne : x ≠ r := fun hxr => hr (hxr ▸ hx)
    rw [Function.update_of_ne hne]
  simp [pool, hsame]

/-- What has a slot is made. -/
theorem On.update (h : made.On S) (hr : r ∈ S) (v : Option H) : HandleTable.On (Function.update made r (some v)) S := by
  refine ⟨h.nodup, fun x => ?_⟩
  by_cases hx : x = r
  · subst hx
    simp [hr]
  · rw [Function.update_of_ne hx, h.met x]

theorem pool_set (h : S.Nodup) {k : ℕ} (hk : S[k]? = some r) (v : Option H) :
    (made.pool S).set k v = HandleTable.pool (Function.update made r (some v)) S := by
  obtain ⟨hlt, hget⟩ := List.getElem?_eq_some_iff.mp hk
  refine List.ext_getElem (by simp) fun j h₁ h₂ => ?_
  have hj : j < S.length := by simpa using h₂
  by_cases hjk : j = k
  · subst hjk
    simp [pool, hget]
  · have hne : S[j] ≠ r := fun hr => hjk ((List.Nodup.getElem_inj_iff h).mp (hr.trans hget.symm))
    rw [List.getElem_set_ne (Ne.symm hjk)]
    simp [pool, Function.update_of_ne hne]

end HandleTable

/-! ## Walks -/

variable {L functions} {g : Graph Literal} {S S' : List Referent} {made : HandleTable H} {v8 : σ}

/-- **Every slot holds what has been made of its referent**, when a walk is made. -/
theorem slotValues_walk {as : List Addr} {F : Forest Literal} (h : Walk g S as F S') :
    ∀ {made : HandleTable H} {v8 : σ} {x : List (Option H) × List (Option H) × σ}, made.On S →
      slotValues L functions F (made.pool S) v8 = .ok x →
        ∃ made', MakesObjects L functions g made v8 as x.1 made' x.2.2 ∧ made'.On S' ∧ x.2.1 = made'.pool S' := by
  induction h with
  | nil =>
    intro made v8 x hmade hx
    cases hx
    exact ⟨made, .nil, hmade, rfl⟩
  | leaf hg _ ih =>
    intro made v8 x hmade hx
    obtain ⟨y, hy, hx⟩ := of_bind_ok hx
    obtain ⟨z, hz, hx⟩ := of_bind_ok hx
    cases hx
    obtain ⟨made', hrest, hon, hpool⟩ := ih hmade hz
    exact ⟨made', .leaf hg hy hrest, hon, hpool⟩
  | result hg hk _ ih =>
    intro made v8 x hmade hx
    obtain ⟨z, hz, hx⟩ := of_bind_ok hx
    cases hx
    obtain ⟨made', hrest, hon, hpool⟩ := ih hmade hz
    rw [HandleTable.pool_get hk]
    exact ⟨made', .result hg hrest, hon, hpool⟩
  | seen hg hk _ ih =>
    intro made v8 x hmade hx
    obtain ⟨z, hz, hx⟩ := of_bind_ok hx
    cases hx
    obtain ⟨made', hrest, hon, hpool⟩ := ih hmade hz
    rw [HandleTable.pool_get hk]
    exact ⟨made', .seen hg ((hmade.met _).mpr (List.mem_of_getElem? hk)) hrest, hon, hpool⟩
  | @node S a es F₁ S₁ as F₂ S' hg hn hw₁ hw₂ ih₁ ih₂ =>
    intro made v8 x hmade hx
    obtain ⟨y, hy, hx⟩ := of_bind_ok hx
    obtain ⟨m, hm, hx⟩ := of_bind_ok hx
    obtain ⟨z, hz, hx⟩ := of_bind_ok hx
    cases hx
    rw [← HandleTable.pool_append hn none] at hy
    obtain ⟨made₁, hsub, hon₁, hpool₁⟩ := ih₁ (hmade.append hn none) hy
    -- the slot of the array is still there, and is filled
    have hslot : S₁[(made.pool S).length]? = some (.node a) := by
      rw [HandleTable.length_pool]
      exact getElem?_grows hw₁.prefix_slots (by simp)
    rw [hw₁.length_eq] at hm
    rw [hpool₁, HandleTable.pool_set hon₁.nodup hslot] at hz
    obtain ⟨made', hrest, hon, hpool⟩ := ih₂ (hon₁.update (List.mem_of_getElem? hslot) _) hz
    exact ⟨made', .node hg (hmade.none hn) hsub hm hrest, hon, hpool⟩

/-- **Every slot holds what has been made of its referent**, when calls are made. -/
theorem slotCalls_walk {i : ℕ} {steps : List (Step CallOp (List Addr))} {Fs : List (Step CallOp (Forest Literal))}
    (h : WalkSteps g i S steps Fs S') (hi : ResultsBelow i S) :
    ∀ {made : HandleTable H} {v8 : σ} {x : List (Option H) × σ}, made.On S →
      slotCalls L functions (Fs.map stubStep) (made.pool S) v8 = .ok x →
        ∃ made', MakesSteps L functions g i made v8 steps made' x.2 ∧ made'.On S' ∧ x.1 = made'.pool S' := by
  induction h with
  | nil =>
    intro made v8 x hmade hx
    cases hx
    exact ⟨made, .nil, hmade, rfl⟩
  | @cons i S op as bs F₁ S₁ F₂ S₂ steps Fs S' hw₁ hw₂ _ ih =>
    intro made v8 x hmade hx
    obtain ⟨w, hw, hx⟩ := of_bind_ok hx
    obtain ⟨y, hy, hw⟩ := of_bind_ok hw
    obtain ⟨z, hz, hw⟩ := of_bind_ok hw
    obtain ⟨ret, hret, hw⟩ := of_bind_ok hw
    cases hw
    obtain ⟨made₁, hhead, hon₁, hpool₁⟩ := slotValues_walk hw₁ hmade hy
    rw [hpool₁] at hz
    obtain ⟨made₂, hargs, hon₂, hpool₂⟩ := slotValues_walk hw₂ hon₁ hz
    -- the result of this call is not referred to yet, so it takes a new slot
    have hi₂ := (hi.walk hw₁).walk hw₂
    have hnew : .result i ∉ S₂ := fun hmem => Nat.lt_irrefl i ((hi₂ i).mp hmem)
    have hlen : F₂.length = bs.length := hw₂.length_eq
    simp only [stubStep, hlen] at hret
    rw [hpool₂, ← HandleTable.pool_append hnew] at hx
    obtain ⟨made', hrest, hon, hpool⟩ := ih hi₂.succ (hon₂.append hnew _) hx
    exact ⟨made', .cons hhead hargs hret hrest, hon, hpool⟩

/-! ## Test cases -/

variable {heap : Heap} {tc : TestCase} {Fs : List (Step CallOp (Forest Literal))} {t : TestCaseSerializer}

/-- Where the serializer has a number for an array or a call, `pool` has what has been made of it. -/
structure SerializationContext.Locates (c : SerializationContext) (made : HandleTable H) (pool : List (Option H)) :
    Prop where
  length : pool.length = c.indexAlloc
  value : ∀ {a k}, c.valueIndexes a = some k → pool[k]? = some (made (.node a)).join
  ret : ∀ {i k}, c.retValueIndexes i = some k → pool[k]? = some (made (.result i)).join

theorem SerializationContext.Numbers.locates {c : SerializationContext} (h : c.Numbers S) (made : HandleTable H) :
    c.Locates made (made.pool S) := by
  have hget : ∀ {r : Referent} {k : ℕ}, S[k]? = some r → (made.pool S)[k]? = some (made r).join := by
    intro r k hk
    simp [HandleTable.pool, hk]
  exact ⟨by simp [h.next], fun {a k} hk => hget ((h.value a k).mp hk), fun {i k} hk => hget ((h.ret i k).mp hk)⟩

/-- **The slots are numbered as the serializer numbers them**: after the calls of a test case have been made, there is
what has been made of an array or of a call where the serializer refers to it. -/
theorem slotCalls_serialize (hwalk : WalkSteps heap.graph 0 [] tc.steps Fs S)
    (hserialize : TestCaseSerializer.serialize heap tc = .ok t) {x : List (Option H) × σ}
    (hx : slotCalls L functions (Fs.map stubStep) [] v8 = .ok x) :
    ∃ made, MakesSteps L functions heap.graph 0 (fun _ => none) v8 tc.steps made x.2 ∧ t.context.Locates made x.1 := by
  obtain ⟨c, tr, hs, hc, -⟩ := serialize_walk hwalk
  rw [hs] at hserialize
  cases hserialize
  obtain ⟨made, hmakes, -, hpool⟩ := slotCalls_walk hwalk ResultsBelow.nil HandleTable.on_nil hx
  refine ⟨made, hmakes, ?_⟩
  rw [hpool]
  exact hc.locates made

/-- **Without nested arrays, the object list has the numbering of the serializer** after a run. -/
theorem runCafMain_serialize {names : List StdString} (hnames : names.length < 2 ^ 31)
    (hwalk : WalkSteps heap.graph 0 [] tc.steps Fs S) (hserialize : TestCaseSerializer.serialize heap tc = .ok t)
    (hlen : Fs.length < 2 ^ 31) (hFs : ∀ st ∈ Fs, FitsStubStep names.length (stubStep st))
    (hflat : ∀ st ∈ Fs, FlatForest st.head ∧ FlatForest st.args) (rest : List UInt8) :
    ∃ n, ∀ fuel s, n ≤ fuel →
      runCafMain L names fuel ⟨encodeStubInput (Fs.map stubStep) ++ rest, [], v8⟩ = .ok s →
        ∃ made, MakesSteps L names.length heap.graph 0 (fun _ => none) v8 tc.steps made s.v8 ∧
          t.context.Locates made s.pool := by
  have hFs' : ∀ st ∈ Fs.map stubStep, FitsStubStep names.length st := by
    simpa using hFs
  have hflat' : ∀ st ∈ Fs.map stubStep, FlatForest st.head ∧ FlatForest st.args := by
    simpa [stubStep] using hflat
  -- what the calls make is what a run leaves, once the bound is large enough
  obtain ⟨n, hn⟩ := (exists_run_encode_iff L hnames (by simpa using hlen) hFs' rest v8 fun r => ∀ s, r = .ok s →
      ∃ made, MakesSteps L names.length heap.graph 0 (fun _ => none) v8 tc.steps made s.v8 ∧
        t.context.Locates made s.pool).mpr fun s hs => by
    have hslots := slotCalls_eq L names.length hflat' ⟨rest, [], v8⟩
    rw [hs] at hslots
    exact slotCalls_serialize hwalk hserialize hslots
  exact ⟨n, fun fuel s hfuel hs => hn fuel hfuel s hs⟩

end Caf
