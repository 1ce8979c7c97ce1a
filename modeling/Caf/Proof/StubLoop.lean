import Caf.Proof.StubCode

/-!
# The loop that reads values into an array

`createMallocValuesLoop` emits the same loop for the elements of an array and for the arguments of a call. It calls
`caf_dispatch_malloc_value_of_type` for every index and stores the value.

* `runInsts_loopBody`: one round.
* `loop_returns`: the loop.
-/

namespace Caf

open Ir LittleEndian CAFCodeGeneratorForNodejs

variable {σ H : Type}

/-- `callbackfunc_candidates`, after `__caf_dispatch_callbackfuncarr`. -/
def CallbackArray (functions : ℕ) (mem : Memory Symbol H) : Prop :=
  ∃ data, mem[0]? = some (.words functions data) ∧ ∀ i < functions, data i = .ptr (.function (.api i))

/-- What is allocated comes behind the array. -/
theorem CallbackArray.append {functions : ℕ} {mem : Memory Symbol H} (h : CallbackArray functions mem)
    (l : Memory Symbol H) : CallbackArray functions (mem ++ l) := by
  obtain ⟨data, hmem, hdata⟩ := h
  exact ⟨data, getElem?_append_of_some hmem _, hdata⟩

/-- **A function is loaded from the array**, which has no others. -/
theorem CallbackArray.load {functions : ℕ} {mem : Memory Symbol H} (h : CallbackArray functions mem) (id : Int32) :
    mem.load .i64 (.object 0 (8 * id.toInt)) =
      if 0 ≤ id ∧ id.toInt < functions then .ok (.ptr (.function (.api id.toNatClampNeg)))
      else .error .undefined := by
  obtain ⟨data, hmem, hdata⟩ := h
  rw [Memory.load, hmem]
  by_cases hid : 0 ≤ id ∧ id.toInt < functions
  · have hnat : (id.toNatClampNeg : ℤ) = id.toInt := Int.toNat_of_nonneg (Int32.le_iff_toInt_le.mp hid.1)
    have hlt : id.toNatClampNeg < functions := by omega
    rw [if_pos hid, ← hnat]
    exact (Object.load_words hlt rfl).trans (congrArg Except.ok (hdata _ hlt))
  · rw [if_neg hid]
    exact Object.load_words_outside (fun h => hid ⟨Int32.le_iff_toInt_le.mpr h.1, h.2⟩) .i64

/-- A call of `caf_dispatch_malloc_value_of_type` reads a value, and leaves the memory as it is. -/
def DispatchReads (L : V8Lib σ H) (names : List StdString) (read : StubReader σ H (Option H)) : Prop :=
  ∀ mem s, CallbackArray names.length mem → Settles
    (fun fuel =>
      (stubProgram L names).call ((stubProgram L names).runBlock fuel) .dispatchMallocValueOfType [] ⟨mem, s⟩)
    (read s >>= fun (v, s) => .ok (StubVal.ofValue v, ⟨mem, s⟩))

def loopCondInsts (k cur count body loopEnd : ℕ) : List (Inst Symbol) :=
  [⟨k, .load .i32 (.reg cur)⟩, ⟨k + 1, .icmp .slt (.reg k) (.reg count)⟩, ⟨k + 2, .condBr (.reg (k + 1)) body loopEnd⟩]

/-- The value is stored, and the index goes up. -/
def loopStoreInsts (k cur array cond : ℕ) : List (Inst Symbol) :=
  [⟨k + 5, .bitCast (.reg (k + 4))⟩, ⟨k + 6, .gep .pointer (.reg array) (.reg (k + 3))⟩,
    ⟨k + 7, .store (.reg (k + 5)) (.reg (k + 6))⟩, ⟨k + 8, .add (.reg (k + 3)) (.i32 1)⟩,
    ⟨k + 9, .store (.reg (k + 8)) (.reg cur)⟩, ⟨k + 10, .br cond⟩]

def loopBodyInsts (k cur array cond : ℕ) : List (Inst Symbol) :=
  [⟨k + 3, .load .i32 (.reg cur)⟩, ⟨k + 4, .call .dispatchMallocValueOfType []⟩] ++ loopStoreInsts k cur array cond

/-- Where the loop is in a function, and its registers, which were set before it. -/
structure LoopAt (fn : Ir.Function Symbol) (k cur count array cond body loopEnd : ℕ) : Prop where
  condBlock : ∃ name, fn.blocks[cond]? = some ⟨name, loopCondInsts k cur count body loopEnd⟩
  bodyBlock : ∃ name, fn.blocks[body]? = some ⟨name, loopBodyInsts k cur array cond⟩
  cur_lt : cur < k
  count_lt : count < k
  array_lt : array < k

/-- The variables of the loop: the index is in the object `c`, and the array is the object `a`. -/
structure LoopVars (cur count array c a : ℕ) (n : Int32) (f : Frame Symbol H) : Prop where
  cur : f.eval (.reg cur) = .ok (.ptr (.object c 0))
  count : f.eval (.reg count) = .ok (.i32 n)
  array : f.eval (.reg array) = .ok (.ptr (.object a 0))

theorem LoopVars.agree {k cur count array c a : ℕ} {n : Int32} {f g : Frame Symbol H}
    (h : LoopVars cur count array c a n f) (hcur : cur < k) (hcount : count < k) (harray : array < k)
    (hfg : Frame.AgreeBelow k f g) : LoopVars cur count array c a n g :=
  ⟨(hfg.eval_reg hcur).trans h.cur, (hfg.eval_reg hcount).trans h.count, (hfg.eval_reg harray).trans h.array⟩

/-- The memory between two rounds. -/
structure LoopMemory (c a : ℕ) (n : Int32) (i : ℕ) (data : ℕ → StubVal H) (mem : Memory Symbol H) : Prop where
  cur : mem[c]? = some (intCell (Int32.ofNat i))
  array : mem[a]? = some (.words n.toUInt32.toNat data)
  ne : c ≠ a

/-- One more value is stored. -/
def LoopMemory.next (c a : ℕ) (n : Int32) (i : ℕ) (data : ℕ → StubVal H) (v : StubVal H) (mem : Memory Symbol H) :
    Memory Symbol H :=
  (mem.set a (.words n.toUInt32.toNat (Function.update data i v))).set c (intCell (Int32.ofNat (i + 1)))

section Loop

variable (L : V8Lib σ H) (names : List StdString) {fn : Ir.Function Symbol}
  {k cur count array cond body loopEnd c a : ℕ} {n : Int32}

theorem LoopMemory.step {i : ℕ} {data : ℕ → StubVal H} {mem : Memory Symbol H} (h : LoopMemory c a n i data mem)
    (v : StubVal H) : LoopMemory c a n (i + 1) (Function.update data i v) (LoopMemory.next c a n i data v mem) := by
  have hc := (List.getElem?_eq_some_iff.mp h.cur).1
  have ha := (List.getElem?_eq_some_iff.mp h.array).1
  refine ⟨?_, ?_, h.ne⟩
  · rw [LoopMemory.next, List.getElem?_set_self (by simpa using hc)]
  · rw [LoopMemory.next, List.getElem?_set_ne h.ne, List.getElem?_set_self ha]

theorem LoopMemory.next_ne {i j : ℕ} {data : ℕ → StubVal H} {mem : Memory Symbol H} (v : StubVal H) (hc : j ≠ c)
    (ha : j ≠ a) : (LoopMemory.next c a n i data v mem)[j]? = mem[j]? := by
  rw [LoopMemory.next, List.getElem?_set_ne hc.symm, List.getElem?_set_ne ha.symm]

theorem load_cur {i : ℕ} {data : ℕ → StubVal H} {mem : Memory Symbol H} (h : LoopMemory c a n i data mem) :
    mem.load .i32 (.object c 0) = .ok (.i32 (Int32.ofNat i)) := by
  simp only [Memory.load, h.cur, load_intCell]

/-- The registers after a round. -/
def loopFrame (k a i : ℕ) (f : Frame Symbol H) (v : StubVal H) : Frame Symbol H :=
  ((((((f.set (k + 3) (.i32 (Int32.ofNat i))).set (k + 4) v).set (k + 5) v).set (k + 6)
    (.ptr (.object a (8 * (i : ℤ))))).set (k + 7) .undefined).set (k + 8) (.i32 (Int32.ofNat i + 1))).set (k + 9)
    .undefined

theorem agreeBelow_loopFrame (k a i : ℕ) (f : Frame Symbol H) (v : StubVal H) :
    Frame.AgreeBelow k f (loopFrame k a i f v) := by
  intro r hr
  simp [loopFrame, Frame.set, Function.update_of_ne (show r ≠ _ from Nat.ne_of_lt (Nat.lt_add_right _ hr))]

/-- The value is stored. -/
theorem store_element {i : ℕ} {data : ℕ → StubVal H} {mem : Memory Symbol H} (h : LoopMemory c a n i data mem)
    (hi : i < n.toNatClampNeg) (p : Ptr Symbol H) :
    mem.store (.object a (8 * (i : ℤ))) (.ptr p) =
      .ok (mem.set a (.words n.toUInt32.toNat (Function.update data i (.ptr p)))) := by
  have hn : 0 ≤ n := by
    have := (Int32.toNatClampNeg_pos_iff n).mp (by omega)
    exact Int32.le_of_lt this
  have hcount : i < n.toUInt32.toNat := by rwa [Int32.toNat_toUInt32_of_le hn]
  simp [Memory.store, Val.bytes, Memory.modify, h.array, Object.storeWord_words hcount, Except.map]

/-- The index is stored. -/
theorem store_index {i : ℕ} {data : ℕ → StubVal H} {mem : Memory Symbol H} (h : LoopMemory c a n i data mem)
    (v : StubVal H) :
    Memory.store (mem.set a (.words n.toUInt32.toNat (Function.update data i v))) (.object c 0)
      (.i32 (Int32.ofNat i + 1)) = .ok (LoopMemory.next c a n i data v mem) := by
  have hget : (mem.set a (.words n.toUInt32.toNat (Function.update data i v)))[c]? =
      some (intCell (Int32.ofNat i)) := by
    rw [List.getElem?_set_ne h.ne.symm, h.cur]
  simp only [Memory.store, Memory.write, Val.bytes, Memory.modify, hget, store_intCell, Except.map, LoopMemory.next]
  rw [Int32.ofNat_add]
  rfl

/-- A round up to the call. -/
theorem runInsts_loopBody {i : ℕ} {data : ℕ → StubVal H} {f : Frame Symbol H} {mem : Memory Symbol H}
    (s : StubProcess σ H) (enter : Enter Symbol H (StubProcess σ H)) (hvars : LoopVars cur count array c a n f)
    (hmem : LoopMemory c a n i data mem) :
    (stubProgram L names).runInsts enter fn (loopBodyInsts k cur array cond) f ⟨mem, s⟩ =
      (stubProgram L names).call enter .dispatchMallocValueOfType [] ⟨mem, s⟩ >>= fun x =>
        (stubProgram L names).runInsts enter fn (loopStoreInsts k cur array cond)
          ((f.set (k + 3) (.i32 (Int32.ofNat i))).set (k + 4) x.1) x.2 := by
  have hargs : ([] : List LlvmValue).mapM (f.set (k + 3) (.i32 (Int32.ofNat i))).eval = .ok [] := List.mapM_nil
  rw [← Program.runInsts_call _ _ _ _ _ _ _ _ hargs]
  simp only [loopBodyInsts, List.cons_append, Program.runInsts, Op.perform, Frame.address, pure, Except.pure, ok_bind,
    hvars.cur, load_cur hmem]
  rfl

/-- **The rest of a round**: the value is stored, and the index goes up. -/
theorem runInsts_loopStore {i : ℕ} {data : ℕ → StubVal H} {f : Frame Symbol H} {mem : Memory Symbol H}
    (s : StubProcess σ H) (enter : Enter Symbol H (StubProcess σ H)) (hvars : LoopVars cur count array c a n f)
    (hmem : LoopMemory c a n i data mem) (hi : i < n.toNatClampNeg) (hcur : cur < k) (harray : array < k)
    (v : Option H) :
    (stubProgram L names).runInsts enter fn (loopStoreInsts k cur array cond)
        ((f.set (k + 3) (.i32 (Int32.ofNat i))).set (k + 4) (StubVal.ofValue v)) ⟨mem, s⟩ =
      enter fn cond (loopFrame k a i f (StubVal.ofValue v))
        ⟨LoopMemory.next c a n i data (StubVal.ofValue v) mem, s⟩ := by
  have hi' : (Int32.ofNat i).toInt = i := Int32.toInt_ofNat_of_lt (hi.trans n.toNatClampNeg_lt)
  have helement : (Ptr.object a 0 : Ptr Symbol H).element .pointer (Int32.ofNat i) = .ok (.object a (8 * (i : ℤ))) := by
    simp [Ptr.element, hi', Ty.size]
  obtain ⟨p, hp⟩ : ∃ p, StubVal.ofValue v = .ptr p := by
    cases v <;> exact ⟨_, rfl⟩
  have hcur' := hvars.cur
  have harray' := hvars.array
  rw [hp]
  simp (disch := omega) only [loopStoreInsts, Program.runInsts, Op.perform, Frame.address, Frame.number, pure,
    Except.pure, ok_bind, hcur', harray', Frame.eval_set_self, Frame.eval_set_ne, helement, store_element hmem hi,
    store_index hmem, Frame.eval_i32]
  rfl

theorem holds_slt (i : ℕ) (hi : i ≤ n.toNatClampNeg) :
    Comparison.slt.holds (Int32.ofNat i) n = decide (i < n.toNatClampNeg) := by
  have hi' : (Int32.ofNat i).toInt = i := Int32.toInt_ofNat_of_lt (hi.trans_lt n.toNatClampNeg_lt)
  have hn : n.toNatClampNeg = n.toInt.toNat := rfl
  simp only [Comparison.holds, Int32.lt_iff_toInt_lt, hi', decide_eq_decide]
  omega

/-- The registers behind the head of the loop. -/
def condFrame (k i : ℕ) (n : Int32) (f : Frame Symbol H) : Frame Symbol H :=
  (f.set k (.i32 (Int32.ofNat i))).set (k + 1) (.bool (decide (i < n.toNatClampNeg)))

theorem agreeBelow_condFrame (k i : ℕ) (n : Int32) (f : Frame Symbol H) : Frame.AgreeBelow k f (condFrame k i n f) :=
  ((Frame.AgreeBelow.refl k f).set le_rfl _).set (Nat.le_succ k) _

/-- The head of the loop. -/
theorem runInsts_loopCond {i : ℕ} {data : ℕ → StubVal H} {f : Frame Symbol H} {mem : Memory Symbol H}
    (s : StubProcess σ H) (enter : Enter Symbol H (StubProcess σ H)) (hvars : LoopVars cur count array c a n f)
    (hmem : LoopMemory c a n i data mem) (hi : i ≤ n.toNatClampNeg) (hcount : count < k) :
    (stubProgram L names).runInsts enter fn (loopCondInsts k cur count body loopEnd) f ⟨mem, s⟩ =
      enter fn (if i < n.toNatClampNeg then body else loopEnd)
        (condFrame k i n f) ⟨mem, s⟩ := by
  have hcount' := hvars.count
  simp (disch := omega) only [loopCondInsts, Program.runInsts, Op.perform, Frame.address, Frame.number, pure,
    Except.pure, ok_bind, hvars.cur, hcount', Frame.eval_set_self, Frame.eval_set_ne, load_cur hmem, holds_slt i hi,
    decide_eq_true_eq]
  rfl

/-- **The loop reads as many values as the count says**, and stores them one after another. -/
theorem loop_returns {base : Memory Symbol H} {read : StubReader σ H (Option H)} (hread : DispatchReads L names read)
    (hloop : LoopAt fn k cur count array cond body loopEnd) (hc : c ≠ 0) (ha : a ≠ 0) (todo : ℕ) :
    ∀ {i : ℕ} {data : ℕ → StubVal H} {f : Frame Symbol H} {mem : Memory Symbol H} (s : StubProcess σ H)
      {r : List (Option H) → StubReader σ H (StubVal H)}, i + todo = n.toNatClampNeg →
      CallbackArray names.length mem → LoopVars cur count array c a n f → LoopMemory c a n i data mem →
      (∀ vs f' mem' s', vs.length = todo → Frame.AgreeBelow k f f' → (∀ j, j ≠ c → j ≠ a → mem'[j]? = mem[j]?) →
        mem'[a]? = some (.words n.toUInt32.toNat (writeWords data i (vs.map StubVal.ofValue))) →
        Returns base (fun fuel => (stubProgram L names).runBlock fuel fn loopEnd f' ⟨mem', s'⟩) (r vs s')) →
      Returns base (fun fuel => (stubProgram L names).runBlock fuel fn cond f ⟨mem, s⟩)
        (readValues read todo s >>= fun (vs, s) => r vs s) := by
  obtain ⟨_, hcond⟩ := hloop.condBlock
  obtain ⟨_, hbody⟩ := hloop.bodyBlock
  induction todo with
  | zero =>
    intro i data f mem s r hi _ hvars hmem hend
    have hmem' : mem[a]? =
        some (.words n.toUInt32.toNat (writeWords data i (([] : List (Option H)).map StubVal.ofValue))) := by
      rw [List.map_nil, writeWords_nil, hmem.array]
    refine Returns.runBlock hcond (Returns.of_eq (hend [] (condFrame k i n f) mem s rfl (agreeBelow_condFrame k i n f)
      (fun _ _ _ => rfl) hmem') fun fuel => ?_)
    rw [runInsts_loopCond L names s _ hvars hmem (by omega) hloop.count_lt, if_neg (by omega)]
  | succ todo ih =>
    intro i data f mem s r hi hcallback hvars hmem hend
    have hread' : readValues read (todo + 1) s >>= (fun (vs, s) => r vs s) =
        read s >>= fun (v, s) => readValues read todo s >>= fun (vs, s) => r (v :: vs) s := by
      simp only [readValues, bind_assoc, pure_bind]
    have hvars' := hvars.agree hloop.cur_lt hloop.count_lt hloop.array_lt (agreeBelow_condFrame k i n f)
    rw [hread']
    -- the head of the loop, and the call
    refine Returns.runBlock hcond (Returns.of_eq (Returns.runBlock (f := condFrame k i n f) (m := ⟨mem, s⟩) hbody
      (Returns.of_eq (Returns.bind (hread mem s hcallback) fun x hx => ?_) fun fuel =>
        runInsts_loopBody L names s _ hvars' hmem)) fun fuel => ?_)
    rotate_left
    · rw [runInsts_loopCond L names s _ hvars hmem (by omega) hloop.count_lt, if_pos (by omega)]
    -- the value is stored, and the loop goes on
    obtain ⟨v, s'⟩ := x
    have hcallback' : CallbackArray names.length (LoopMemory.next c a n i data (StubVal.ofValue v) mem) := by
      obtain ⟨d, hd⟩ := hcallback
      exact ⟨d, by rw [LoopMemory.next_ne _ hc.symm ha.symm]; exact hd⟩
    refine Returns.of_eq (ih (r := fun vs => r (v :: vs)) s' (by omega) hcallback'
      (hvars'.agree hloop.cur_lt hloop.count_lt hloop.array_lt (agreeBelow_loopFrame k a i _ _)) (hmem.step _)
      fun vs f' mem' s' hlen hagree hsame hget => ?_) fun fuel =>
        runInsts_loopStore L names s' _ hvars' hmem (by omega) hloop.cur_lt hloop.array_lt v
    refine hend (v :: vs) f' mem' s' (by simp [hlen]) (((agreeBelow_condFrame k i n f).trans
      (agreeBelow_loopFrame k a i _ _)).trans hagree) (fun j hjc hja => ?_) ?_
    · rw [hsame j hjc hja, LoopMemory.next_ne _ hjc hja]
    · rw [hget, writeWords_cons, List.map_cons]

/-- **The loop with a new array and a new index**: the objects before them are as they were, and the array holds the
values. -/
theorem loop_reads {base l : Memory Symbol H} {read : StubReader σ H (Option H)}
    {r : List (Option H) → StubReader σ H (StubVal H)} {f : Frame Symbol H} (s : StubProcess σ H)
    (hread : DispatchReads L names read) (hloop : LoopAt fn k cur count array cond body loopEnd)
    (hcallback : CallbackArray names.length base)
    (hvars : LoopVars cur count array ((base ++ l).length + 1) (base ++ l).length n f)
    (hend : ∀ vs f' mem' s', Frame.AgreeBelow k f f' → mem'.take base.length = base →
      (∀ j < (base ++ l).length, mem'[j]? = (base ++ l)[j]?) →
      mem'.readWords (.object (base ++ l).length 0) n.toNatClampNeg = .ok (vs.map StubVal.ofValue) →
      Returns base (fun fuel => (stubProgram L names).runBlock fuel fn loopEnd f' ⟨mem', s'⟩) (r vs s')) :
    Returns base
      (fun fuel => (stubProgram L names).runBlock fuel fn cond f
        ⟨base ++ l ++ [.words n.toUInt32.toNat fun _ => .undefined, intCell 0], s⟩)
      (readValues read n.toNatClampNeg s >>= fun (vs, s) => r vs s) := by
  have hpos : 0 < base.length := by
    obtain ⟨_, hbase, -⟩ := hcallback
    exact (List.getElem?_eq_some_iff.mp hbase).1
  have hlen : base.length ≤ (base ++ l).length := by simp
  have hcallback' := (hcallback.append l).append [.words n.toUInt32.toNat fun _ => .undefined, intCell 0]
  have hmem : LoopMemory ((base ++ l).length + 1) (base ++ l).length n 0 (fun _ => .undefined)
      (base ++ l ++ [.words n.toUInt32.toNat fun _ => .undefined, intCell 0]) :=
    ⟨get_append (base ++ l) _ 1, get_append (base ++ l) _ 0, by omega⟩
  refine loop_returns L names hread hloop (by omega) (by omega) n.toNatClampNeg s (Nat.zero_add _) hcallback' hvars hmem
    fun vs f' mem' s' hvs hagree hsame hget => ?_
  have hold : ∀ j < (base ++ l).length, mem'[j]? = (base ++ l)[j]? := by
    intro j hj
    rw [hsame j (by omega) (by omega), List.getElem?_append_left hj]
  refine hend vs f' mem' s' hagree ?_ hold ?_
  · refine List.ext_getElem? fun j => ?_
    by_cases hj : j < base.length
    · rw [List.getElem?_take_of_lt hj, hold j (by omega), List.getElem?_append_left hj]
    · rw [List.getElem?_eq_none (by simp; omega), List.getElem?_eq_none (by omega)]
  · have hwords := map_writeWords (fun _ => Val.undefined) (vs.map (StubVal.ofValue (H := H)))
    rw [List.length_map, hvs] at hwords
    rw [Memory.readWords_zero hget (toNatClampNeg_le n), hwords]

/-- The index of a loop is made. -/
theorem runInsts_newIndex (enter : Enter Symbol H (StubProcess σ H)) (k cond : ℕ) (f : Frame Symbol H)
    (m : StubMachine σ H) :
    (stubProgram L names).runInsts enter fn
        [⟨k, .alloca .i32 (.i32 1)⟩, ⟨k + 1, .store (.i32 0) (.reg k)⟩, ⟨k + 2, .br cond⟩] f m =
      enter fn cond ((f.set k (.ptr (.object m.memory.length 0))).set (k + 1) .undefined)
        ⟨m.memory ++ [intCell 0], m.host⟩ := by
  have hone : (Int32.toUInt32 1).toNat = 1 := rfl
  have hstore : Memory.store (m.memory ++ [.new .i32 1]) (.object m.memory.length 0) (.i32 0) =
      .ok (m.memory ++ [intCell 0]) := by
    simp only [Memory.store, Val.bytes, Memory.write, Memory.modify_last, store_new_intCell, Except.map]
  simp only [Program.runInsts, Op.perform, Frame.number, Frame.address, pure, Except.pure, ok_bind, Frame.eval_i32,
    Frame.eval_set_self, hone, hstore]

end Loop

end Caf
