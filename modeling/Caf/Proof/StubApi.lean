import Caf.Proof.StubMalloc

/-!
# The function that calls the API functions

`__caf_dispatch_api` goes to the block for a function id, which reads the receiver and the arguments and calls the API
function.

* `getElem?_dispatchBlocks`, `lookup_apiCases`: the blocks of an API function, and where the `switch` goes.
* `settles_dispatchApi`: a call of the function does what `readCall` says.
-/

namespace Caf

open Ir LittleEndian CAFCodeGeneratorForNodejs

/-! ## The blocks of an API function -/

theorem getElem?_callApisBlocks {names : List StdString} {i : ℕ} {name : StdString} (hname : names[i]? = some name)
    {t : ℕ} (ht : t < 4) (caseCounter j k : ℕ) :
    (callApisBlocks caseCounter names j k)[4 * i + t]? =
      (callApiBlocks name (caseCounter + i) (j + 4 * i) (k + 42 * i))[t]? := by
  induction names generalizing i caseCounter j k with
  | nil => simp at hname
  | cons first names ih =>
    cases i with
    | zero =>
      obtain rfl : first = name := by simpa using hname
      rw [callApisBlocks, Nat.mul_zero, Nat.zero_add, List.getElem?_append_left (by simpa using ht)]
      rfl
    | succ i =>
      rw [callApisBlocks, List.getElem?_append_right (by simp; omega), length_callApiBlocks,
        show 4 * (i + 1) + t - 4 = 4 * i + t by omega, ih (by simpa using hname)]
      congr 2 <;> omega

/-- **Where the blocks of an API function are.** -/
theorem getElem?_dispatchBlocks {names : List StdString} {i : ℕ} {name : StdString} (hname : names[i]? = some name)
    {t : ℕ} (ht : t < 4) :
    (dispatchBlocks names)[1 + 4 * i + t]? = (callApiBlocks name i (1 + 4 * i) (42 * i))[t]? := by
  have hi : i < names.length := (List.getElem?_eq_some_iff.mp hname).1
  have hne : names ≠ [] := by
    rintro rfl
    simp at hi
  have hget := getElem?_callApisBlocks hname ht 0 1 0
  have hlen := length_callApisBlocks names 0 1 0
  rw [dispatchBlocks, if_neg hne, show 1 + 4 * i + t = (4 * i + t) + 1 by omega,
    List.getElem?_cons_succ, List.getElem?_append_left (by omega), hget]
  simp

/-- **Where the `switch` goes.** -/
theorem lookup_apiCases (id : Int32) : ∀ (n caseCounter j : ℕ), caseCounter + n ≤ 2 ^ 31 →
    (apiCases caseCounter n j).lookup id =
      if caseCounter ≤ id.toInt ∧ id.toInt < caseCounter + n then some (j + 4 * (id.toNatClampNeg - caseCounter))
      else none := by
  intro n
  induction n with
  | zero =>
    intro caseCounter j _
    rw [if_neg (by omega)]
    rfl
  | succ n ih =>
    intro caseCounter j hn
    have hcase : (Int32.ofNat caseCounter).toInt = caseCounter := Int32.toInt_ofNat_of_lt (by omega)
    have hnat : id.toNatClampNeg = id.toInt.toNat := rfl
    by_cases h : id = Int32.ofNat caseCounter
    · have hid : id.toInt = caseCounter := by rw [h, hcase]
      rw [apiCases, List.lookup_cons, beq_iff_eq.mpr h, if_pos (by omega)]
      simp only [Option.some.injEq]
      omega
    · have hid : id.toInt ≠ caseCounter := fun heq => h (Int32.toInt_inj.mp (heq.trans hcase.symm))
      rw [apiCases, List.lookup_cons, beq_false_of_ne h]
      simp only
      rw [ih (caseCounter + 1) (j + 4) (by omega)]
      by_cases hlt : caseCounter < id.toInt ∧ id.toInt < caseCounter + 1 + n
      · rw [if_pos (by omega), if_pos (by omega)]
        congr 1
        omega
      · rw [if_neg (by omega), if_neg (by omega)]

/-! ## A call -/

section Call

variable {σ H : Type} (L : V8Lib σ H) (names : List StdString)

/-- `__caf_dispatch_api`. -/
def dispatchFn : Ir.Function Symbol := ⟨dispatchBlocks names⟩

variable {names} {i : ℕ} {name : StdString}

theorem loopAt_dispatchFn (hname : names[i]? = some name) :
    LoopAt (dispatchFn names) (42 * i + 21) (42 * i + 18) (42 * i + 9) (42 * i + 15) (1 + 4 * i + 1) (1 + 4 * i + 2)
      (1 + 4 * i + 3) :=
  ⟨⟨_, getElem?_dispatchBlocks hname (t := 1) (by omega)⟩, ⟨_, getElem?_dispatchBlocks hname (t := 2) (by omega)⟩,
    by omega, by omega, by omega⟩

/-- What comes before the loop over the arguments, after the receiver has been read. -/
def argsStartInsts (j k : ℕ) : List (Inst Symbol) :=
  [⟨k + 14, .alloca .pointer (.i32 6)⟩, ⟨k + 15, .alloca .pointer (.reg (k + 9))⟩,
    ⟨k + 16, .gep .pointer (.reg (k + 14)) (.i32 0)⟩, ⟨k + 17, .store (.reg (k + 5)) (.reg (k + 16))⟩] ++
  [⟨k + 18, .alloca .i32 (.i32 1)⟩, ⟨k + 19, .store (.i32 0) (.reg (k + 18))⟩, ⟨k + 20, .br (j + 1)⟩]

/-- The implicit arguments, of which the first is the receiver. -/
def implicitArgs (v : Option H) : Object Symbol H :=
  .words 6 (Function.update (fun _ => .undefined) 0 (StubVal.ofValue v))

/-- The registers before the loop over the arguments. -/
def argsFrame (k : ℕ) (f : Frame Symbol H) (mem : Memory Symbol H) : Frame Symbol H :=
  (((((f.set (k + 14) (.ptr (.object mem.length 0))).set (k + 15) (.ptr (.object (mem.length + 1) 0))).set (k + 16)
    (.ptr (.object mem.length 0))).set (k + 17) .undefined).set (k + 18) (.ptr (.object (mem.length + 2) 0))).set
    (k + 19) .undefined

theorem runInsts_argsStart (enter : Enter Symbol H (StubProcess σ H)) (fn : Ir.Function Symbol) (j k : ℕ)
    {f : Frame Symbol H} {n : Int32} {v : Option H} (m : StubMachine σ H)
    (hcount : f.eval (.reg (k + 9)) = .ok (.i32 n)) (hthis : f.eval (.reg (k + 5)) = .ok (StubVal.ofValue v)) :
    (stubProgram L names).runInsts enter fn (argsStartInsts j k) f m =
      enter fn (j + 1) (argsFrame k f m.memory)
        ⟨m.memory ++ [implicitArgs v] ++ [.words n.toUInt32.toNat fun _ => .undefined, intCell 0], m.host⟩ := by
  have hsix : (Int32.toUInt32 6).toNat = 6 := rfl
  have hzero : (Int32.toInt 0) = 0 := rfl
  obtain ⟨p, hp⟩ : ∃ p, StubVal.ofValue v = .ptr p := by
    cases v <;> exact ⟨_, rfl⟩
  have hstore : Memory.store (m.memory ++ [.new .pointer 6] ++ [.new .pointer n.toUInt32.toNat])
      (.object m.memory.length 0) (.ptr p) =
      .ok (m.memory ++ [implicitArgs v] ++ [.new .pointer n.toUInt32.toNat]) := by
    have hget : (m.memory ++ [.new .pointer 6] ++ [.new .pointer n.toUInt32.toNat])[m.memory.length]? =
        some (.words 6 fun _ => .undefined) := by
      rw [List.append_assoc]
      exact get_append m.memory _ 0
    have hset : (m.memory ++ [Object.new .pointer 6] ++ [Object.new .pointer n.toUInt32.toNat]).set m.memory.length
        (implicitArgs v) = m.memory ++ [implicitArgs v] ++ [Object.new .pointer n.toUInt32.toNat] := by
      rw [List.append_assoc, List.append_assoc]
      exact set_append m.memory _ 0 _
    have hword : (Object.words 6 fun _ => .undefined : Object Symbol H).storeWord (.ptr p) 0 =
        .ok (implicitArgs v) := by
      rw [implicitArgs, hp]
      exact Object.storeWord_words (i := 0) (by omega) _
    simp only [Memory.store, Val.bytes, Memory.modify, hget, hword, Except.map]
    exact congrArg Except.ok hset
  have helement : (Ptr.object m.memory.length 0 : Ptr Symbol H).element .pointer 0 =
      .ok (.object m.memory.length 0) := by
    simp [Ptr.element, hzero]
  rw [hp] at hthis
  have hfirst : ∀ rest, (stubProgram L names).runInsts enter fn ([⟨k + 14, .alloca .pointer (.i32 6)⟩,
        ⟨k + 15, .alloca .pointer (.reg (k + 9))⟩, ⟨k + 16, .gep .pointer (.reg (k + 14)) (.i32 0)⟩,
        ⟨k + 17, .store (.reg (k + 5)) (.reg (k + 16))⟩] ++ rest) f m =
      (stubProgram L names).runInsts enter fn rest
        ((((f.set (k + 14) (.ptr (.object m.memory.length 0))).set (k + 15)
          (.ptr (.object (m.memory.length + 1) 0))).set (k + 16) (.ptr (.object m.memory.length 0))).set (k + 17)
          .undefined)
        ⟨m.memory ++ [implicitArgs v] ++ [.new .pointer n.toUInt32.toNat], m.host⟩ := by
    intro rest
    simp (disch := omega) only [List.cons_append, List.nil_append, Program.runInsts, Op.perform, Frame.number,
      Frame.address, pure, Except.pure, ok_bind, Frame.eval_i32, Frame.eval_set_self, Frame.eval_set_ne, hcount, hthis,
      hsix, helement, hstore, List.length_append, List.length_singleton]
  rw [argsStartInsts, hfirst, runInsts_newIndex]
  simp [argsFrame]
  rfl

/-- What comes after the loop over the arguments. -/
def argsEndInsts (index k : ℕ) : List (Inst Symbol) :=
  [⟨k + 32, .call .createFunctionCallbackInfo [.reg (k + 14), .reg (k + 15), .reg (k + 9)]⟩,
    ⟨k + 33, .call (.api index) [.reg (k + 32)]⟩, ⟨k + 34, .call .getRetValue [.reg (k + 32)]⟩] ++
  (printfInsts (k + 35) (text "retType:\tsave to object list.\n") [] ++
  [⟨k + 39, .ptrToInt (.reg (k + 34))⟩, ⟨k + 40, .call .saveToObjectList [.reg (k + 39)]⟩, ⟨k + 41, .ret none⟩])

/-- **The API function is called.** -/
theorem runInsts_argsEnd (enter : Enter Symbol H (StubProcess σ H)) (fn : Ir.Function Symbol) (index k : ℕ)
    {f : Frame Symbol H} {mem : Memory Symbol H} {n : Int32} {t a : ℕ} {v : Option H} {vs : List (Option H)}
    (s : StubProcess σ H) (hthis : f.eval (.reg (k + 14)) = .ok (.ptr (.object t 0)))
    (hargs : f.eval (.reg (k + 15)) = .ok (.ptr (.object a 0))) (hcount : f.eval (.reg (k + 9)) = .ok (.i32 n))
    (himplicit : mem[t]? = some (implicitArgs v))
    (hwords : mem.readWords (.object a 0) n.toNatClampNeg = .ok (vs.map StubVal.ofValue)) :
    (stubProgram L names).runInsts enter fn (argsEndInsts index k) f ⟨mem, s⟩ =
      callApi L index v vs n s >>= fun s =>
        .ok (.undefined, ⟨mem ++ [.cell (getString (text "retType:\tsave to object list.\n"))], s⟩) := by
  have hload : mem.load .pointer (.object t 0) = .ok (StubVal.ofValue v) := by
    simp only [Memory.load, himplicit, implicitArgs]
    exact Object.load_words (i := 0) (by omega) rfl
  have hvalue : StubVal.value (StubVal.ofValue v) = .ok v := by
    cases v <;> rfl
  have hregs : [.reg (k + 14), .reg (k + 15), (.reg (k + 9) : LlvmValue)].mapM f.eval =
      .ok [.ptr (.object t 0), .ptr (.object a 0), .i32 n] := by
    simp [List.mapM_cons, hthis, hargs, hcount, pure, Except.pure, ok_bind]
  have hinfo : callHost L .createFunctionCallbackInfo [.ptr (.object t 0), .ptr (.object a 0), .i32 n] ⟨mem, s⟩ =
      giveHandle ⟨mem, s⟩ (L.createFunctionCallbackInfo v vs n) := by
    simp [callHost, hload, hvalue, hwords, mapM_value, ok_bind]
  -- the arguments are packed
  rw [argsEndInsts, List.cons_append, Program.runInsts_call _ _ _ _ _ _ _ _ hregs, call_host L names _ (by decide)
    (by decide) (by decide) (by decide), hinfo]
  simp only [giveHandle, callApi, StubProcess.give, StubProcess.act, bind_assoc]
  refine bind_congr fun info => ?_
  -- the function is called
  have hregInfo := f.eval_set_self (k + 32) (.ptr (.handle info.1))
  refine (Program.runInsts_call _ _ _ _ _ _ _ _ (Frame.mapM_eval _ hregInfo)).trans ?_
  simp only [call_host, ne_eq, reduceCtorEq, not_false_eq_true, callHost, StubVal.handle, giveVoid, ok_bind, bind_assoc]
  refine bind_congr fun v8 => ?_
  -- what it returns is saved
  have hregRet := (Frame.eval_set_ne _ (Nat.ne_of_lt (Nat.lt_succ_self (k + 32))) .undefined).trans hregInfo
  refine (Program.runInsts_call _ _ _ _ _ _ _ _ (Frame.mapM_eval _ hregRet)).trans ?_
  simp only [call_host, ne_eq, reduceCtorEq, not_false_eq_true, callHost, StubVal.handle, giveHandle, ok_bind,
    bind_assoc]
  refine bind_congr fun ret => ?_
  refine (runInsts_printf _ _ _ _ _ _ _ _ _ (by simp)).trans ?_
  simp [printfFrame, Program.runInsts, Op.perform, Frame.address, pure, Except.pure, ok_bind, call_host, callHost,
    StubVal.handle]

/-- What comes between the receiver and the loop over the arguments. -/
def receiverInsts (j k : ℕ) : List (Inst Symbol) :=
  ⟨k + 5, .bitCast (.reg (k + 4))⟩ :: (readInsts .i32 .inputIntTo (k + 6) ++
    (printfInsts (k + 10) (text "args_count = %d\n") [.reg (k + 9)] ++ argsStartInsts j k))

/-- The objects before the loop over the arguments. -/
def receiverObjects (v : Option H) (s : StubProcess σ H) : Memory Symbol H :=
  [intCell s.readInt.1, .cell (getString (text "args_count = %d\n")), implicitArgs v]

variable (names) in
/-- **The number of the arguments is read**, and the array for them is made. -/
theorem runInsts_receiver (fn : Ir.Function Symbol) (j k : ℕ) (f : Frame Symbol H)
    (v : Option H) (mem : Memory Symbol H) (s : StubProcess σ H) :
    ∃ f', LoopVars (k + 18) (k + 9) (k + 15) ((mem ++ receiverObjects v s).length + 1)
        (mem ++ receiverObjects v s).length s.readInt.1 f' ∧
      f'.eval (.reg (k + 14)) = .ok (.ptr (.object (mem.length + 2) 0)) ∧
      ∀ enter, (stubProgram L names).runInsts enter fn (receiverInsts j k) (f.set (k + 4) (StubVal.ofValue v))
          ⟨mem, s⟩ =
        enter fn (j + 1) f'
          ⟨mem ++ receiverObjects v s ++ [.words s.readInt.1.toUInt32.toNat fun _ => .undefined, intCell 0],
            s.readInt.2⟩ := by
  obtain ⟨p, hp⟩ : ∃ p, StubVal.ofValue v = .ptr p := by
    cases v <;> exact ⟨_, rfl⟩
  set m₁ : StubMachine σ H := ⟨mem, s⟩ with hm₁
  set f₁ := (f.set (k + 4) (StubVal.ofValue v)).set (k + 5) (StubVal.ofValue v) with hf₁
  set f₂ := printfFrame (k + 10) (readFrame (k + 6) f₁ m₁ (.i32 s.readInt.1))
    (⟨mem ++ [intCell s.readInt.1], s.readInt.2⟩ : StubMachine σ H) with hf₂
  set mem₂ := mem ++ [intCell s.readInt.1] ++ [.cell (getString (text "args_count = %d\n"))] with hmem₂
  have hcount : f₂.eval (.reg (k + 9)) = .ok (.i32 s.readInt.1) := eval_printRead _ _ _ _ _
  have hthis : f₂.eval (.reg (k + 5)) = .ok (StubVal.ofValue v) := by simp [hf₂, hf₁, printfFrame, readFrame]
  refine ⟨argsFrame k f₂ mem₂, ⟨?_, ?_, ?_⟩, ?_, fun enter => ?_⟩
  · simp [argsFrame, hmem₂, receiverObjects]
  · simp [argsFrame, hcount]
  · simp [argsFrame, hmem₂, receiverObjects]
  · simp [argsFrame, hmem₂]
  · have hbitCast : ∀ rest, (stubProgram L names).runInsts enter fn (⟨k + 5, .bitCast (.reg (k + 4))⟩ :: rest)
        (f.set (k + 4) (StubVal.ofValue v)) m₁ = (stubProgram L names).runInsts enter fn rest f₁ m₁ := by
      intro rest
      simp [Program.runInsts, Op.perform, Frame.address, ok_bind, pure, Except.pure, hp, hf₁]
    rw [receiverInsts, hbitCast, runInsts_readInt, runInsts_printRead,
      runInsts_argsStart L enter fn j k (n := s.readInt.1) (v := v) ⟨mem₂, s.readInt.2⟩ hcount hthis]
    simp [hmem₂, receiverObjects]

/-- The first block of the case for an API function. -/
theorem getElem?_callApiBlocks_zero (j k : ℕ) :
    (callApiBlocks name i j k)[0]? = some ⟨"invoke.case." ++ toString i, printfInsts k (name ++ text "\n") [] ++
      (⟨k + 4, .call .dispatchMallocValueOfType []⟩ :: receiverInsts j k)⟩ := by
  simp [callApiBlocks, receiverInsts, argsStartInsts]

/-- **The case for an API function** reads the receiver and the arguments, and calls it. -/
theorem returns_callApi {base : Memory Symbol H} (s : StubProcess σ H) {read : StubReader σ H (Option H)}
    (hread : DispatchReads L names read) (hname : names[i]? = some name) (hcallback : CallbackArray names.length base)
    (f : Frame Symbol H) :
    Returns base (fun fuel => (stubProgram L names).runBlock fuel (dispatchFn names) (1 + 4 * i) f ⟨base, s⟩)
      (read s >>= fun x =>
        readValues read x.2.readInt.1.toNatClampNeg x.2.readInt.2 >>= fun (vs, s') =>
          callApi L i x.1 vs x.2.readInt.1 s' >>= fun s' => .ok (.undefined, s')) := by
  obtain ⟨_, hblock⟩ : ∃ blockName, (dispatchFn names).blocks[1 + 4 * i]? = some ⟨blockName,
      printfInsts (42 * i) (name ++ text "\n") [] ++
      (⟨42 * i + 4, .call .dispatchMallocValueOfType []⟩ :: receiverInsts (1 + 4 * i) (42 * i))⟩ :=
    ⟨_, (getElem?_dispatchBlocks hname (t := 0) (by omega)).trans (getElem?_callApiBlocks_zero _ _)⟩
  obtain ⟨_, hend⟩ : ∃ blockName,
      (dispatchFn names).blocks[1 + 4 * i + 3]? = some ⟨blockName, argsEndInsts i (42 * i)⟩ :=
    ⟨_, getElem?_dispatchBlocks hname (t := 3) (by omega)⟩
  generalize hcell : (.cell (getString (name ++ text "\n")) : Object Symbol H) = cell at *
  have hargs : ∀ g : Frame Symbol H, ([] : List LlvmValue).mapM g.eval = .ok [] := fun _ => List.mapM_nil
  -- the receiver, the arguments and the call
  have hrest : ∀ x, read s = .ok x → Returns base (fun fuel => (stubProgram L names).runInsts
      ((stubProgram L names).runBlock fuel) (dispatchFn names) (receiverInsts (1 + 4 * i) (42 * i))
      ((printfFrame (42 * i) f ⟨base, s⟩).set (42 * i + 4) (StubVal.ofValue x.1)) ⟨base ++ [cell], x.2⟩)
      (readValues read x.2.readInt.1.toNatClampNeg x.2.readInt.2 >>= fun (vs, s') =>
        callApi L i x.1 vs x.2.readInt.1 s' >>= fun s' => .ok (.undefined, s')) := by
    rintro ⟨v, s₁⟩ -
    obtain ⟨f', hvars, hthis, hstart⟩ := runInsts_receiver L names (dispatchFn names) (1 + 4 * i) (42 * i)
      (printfFrame (42 * i) f ⟨base, s⟩) v (base ++ [cell]) s₁
    have hmem : base ++ [cell] ++ receiverObjects v s₁ = base ++ (cell :: receiverObjects v s₁) := by simp
    rw [hmem] at hvars hstart
    have hloop := loop_reads L names (r := fun vs s' => callApi L i v vs s₁.readInt.1 s' >>= fun s' =>
        .ok (.undefined, s'))
      s₁.readInt.2 hread (loopAt_dispatchFn hname) hcallback hvars fun vs f'' mem' s' hagree hbase hold hwords => by
        have hvars' := hvars.agree (k := 42 * i + 21) (by omega) (by omega) (by omega) hagree
        have hthis' := (hagree.eval_reg (r := 42 * i + 14) (by omega)).trans hthis
        have himplicit : mem'[(base ++ [cell]).length + 2]? = some (implicitArgs v) := by
          rw [hold _ (by simp [receiverObjects]), ← hmem, get_append]
          rfl
        have hlen : base.length ≤ mem'.length := by
          have := congrArg List.length hbase
          simp only [List.length_take] at this
          omega
        refine Returns.block (w := mem' ++ [.cell (getString (text "retType:\tsave to object list.\n"))]) hend
          (fun enter => ?_) ?_
        · rw [runInsts_argsEnd L enter _ i (42 * i) s' hthis' hvars'.array hvars'.count himplicit hwords, bind_assoc]
          rfl
        · rw [List.take_append_of_le_length hlen, hbase]
    exact Returns.of_eq hloop fun fuel => hstart _
  have hcall : Returns base (fun fuel => (stubProgram L names).call ((stubProgram L names).runBlock fuel)
      .dispatchMallocValueOfType [] ⟨base ++ [cell], s⟩ >>= fun x => (stubProgram L names).runInsts
        ((stubProgram L names).runBlock fuel) (dispatchFn names) (receiverInsts (1 + 4 * i) (42 * i))
        ((printfFrame (42 * i) f ⟨base, s⟩).set (42 * i + 4) x.1) x.2) _ :=
    Returns.bind (hread _ s (hcallback.append [cell])) fun x hx => hrest x hx
  refine Returns.runBlock hblock (Returns.of_eq hcall fun fuel => ?_)
  rw [runInsts_printf _ _ _ _ _ _ _ _ _ (by simp), Program.runInsts_call _ _ _ _ _ _ _ _ (hargs _), hcell]

theorem lookup_dispatchApi : (stubProgram L names).functions.lookup .dispatchApi = some (dispatchFn names) := by
  rw [dispatchFn, ← build_createDispatchFunctionForApi]
  rfl

/-- The `switch` goes to the block of the API function, or to the end. -/
theorem runInsts_switch (hnames : names.length ≤ 2 ^ 31) (enter : Enter Symbol H (StubProcess σ H)) (id : Int32)
    (m : StubMachine σ H) :
    (stubProgram L names).runInsts enter (dispatchFn names)
        [⟨42 * names.length, .switch (.arg 0) (4 * names.length + 1) (apiCases 0 names.length 1)⟩] (.new [.i32 id]) m =
      enter (dispatchFn names)
        (if 0 ≤ id.toInt ∧ id.toInt < names.length then 1 + 4 * id.toNatClampNeg else 4 * names.length + 1)
        (.new [.i32 id]) m := by
  have hlookup := lookup_apiCases id names.length 0 1 (by omega)
  simp only [Nat.cast_zero, Int.zero_add, Nat.sub_zero] at hlookup
  have hnumber : (Frame.new [.i32 id] : Frame Symbol H).number (.arg 0) = .ok id := rfl
  simp only [Program.runInsts, hnumber, ok_bind, hlookup]
  split <;> rfl

theorem dispatchBlocks_of_ne_nil (hne : names ≠ []) :
    dispatchBlocks names = ⟨"caf.dispatch.entry",
        [⟨42 * names.length, .switch (.arg 0) (4 * names.length + 1) (apiCases 0 names.length 1)⟩]⟩ ::
      (callApisBlocks 0 names 1 0 ++
        [⟨"api.invoke.defualt", [⟨42 * names.length + 1, .br (4 * names.length + 2)⟩]⟩,
          ⟨"api.invoke.end", [⟨42 * names.length + 2, .ret none⟩]⟩]) := by
  rw [dispatchBlocks, if_neg hne]

/-- What is not known goes to the end. -/
theorem returns_default {base : Memory Symbol H} (hne : names ≠ []) (f : Frame Symbol H) (s : StubProcess σ H) :
    Returns base (fun fuel => (stubProgram L names).runBlock fuel (dispatchFn names) (4 * names.length + 1) f ⟨base, s⟩)
      (.ok (.undefined, s)) := by
  have hlen := length_callApisBlocks names 0 1 0
  have hdefault : (dispatchFn names).blocks[4 * names.length + 1]? =
      some ⟨"api.invoke.defualt", [⟨42 * names.length + 1, .br (4 * names.length + 2)⟩]⟩ := by
    rw [dispatchFn, dispatchBlocks_of_ne_nil hne, List.getElem?_cons_succ, ← hlen]
    exact List.getElem?_append_right le_rfl |>.trans (by simp)
  have hend : (dispatchFn names).blocks[4 * names.length + 2]? =
      some ⟨"api.invoke.end", [⟨42 * names.length + 2, .ret none⟩]⟩ := by
    rw [dispatchFn, dispatchBlocks_of_ne_nil hne, List.getElem?_cons_succ, ← hlen]
    exact List.getElem?_append_right (Nat.le_succ _) |>.trans (by simp)
  have hreturn : Returns base
      (fun fuel => (stubProgram L names).runBlock fuel (dispatchFn names) (4 * names.length + 2) f ⟨base, s⟩)
      (.ok (.undefined, s)) := Returns.block (w := base) hend (fun _ => rfl) (List.take_length)
  exact Returns.runBlock hdefault (Returns.of_eq hreturn fun _ => rfl)

/-- **A call of `__caf_dispatch_api`** does what `readCall` says, and leaves the memory as it is. -/
theorem settles_dispatchApi (hnames : names.length ≤ 2 ^ 31) (id : Int32) (mem : Memory Symbol H) (s : StubProcess σ H)
    (hcallback : CallbackArray names.length mem) :
    Settles
      (fun fuel => (stubProgram L names).call ((stubProgram L names).runBlock fuel) .dispatchApi [.i32 id] ⟨mem, s⟩)
      (readCall L names.length id s >>= fun s => .ok (.undefined, ⟨mem, s⟩)) := by
  have hreads : DispatchReads L names (readInput L names.length) := fun mem s h => reads_readStubValue L names _ mem s h
  have hentry : Returns mem
      (fun fuel => (stubProgram L names).runBlock fuel (dispatchFn names) 0 (.new [.i32 id]) ⟨mem, s⟩)
      (readCall L names.length id s >>= fun s => .ok (.undefined, s)) := by
    by_cases hempty : names = []
    · -- without API functions, the entry returns
      subst hempty
      have hread : readCall L ([] : List StdString).length id s = .ok s := by
        rw [readCall, if_neg (by simp [Int32.le_iff_toInt_le])]
      rw [hread]
      exact Returns.block (w := mem) rfl (fun _ => rfl) List.take_length
    have hblock : (dispatchFn names).blocks[0]? = some ⟨"caf.dispatch.entry",
        [⟨42 * names.length, .switch (.arg 0) (4 * names.length + 1) (apiCases 0 names.length 1)⟩]⟩ := by
      rw [dispatchFn, dispatchBlocks_of_ne_nil hempty]
      rfl
    by_cases hid : 0 ≤ id.toInt ∧ id.toInt < names.length
    · have hlt : id.toNatClampNeg < names.length := by
        have : id.toNatClampNeg = id.toInt.toNat := rfl
        omega
      have hread : readCall L names.length id s >>= (fun s => .ok (.undefined, s)) =
          (readInput L names.length s >>= fun x =>
            readValues (readInput L names.length) x.2.readInt.1.toNatClampNeg x.2.readInt.2 >>= fun (vs, s') =>
              callApi L id.toNatClampNeg x.1 vs x.2.readInt.1 s' >>= fun s' =>
                Except.ok ((Val.undefined : StubVal H), s')) := by
        rw [readCall, if_pos ⟨Int32.le_iff_toInt_le.mpr hid.1, hid.2⟩]
        simp only [bind_assoc]
      rw [hread]
      refine Returns.runBlock hblock (Returns.of_eq (returns_callApi L s hreads (List.getElem?_eq_getElem hlt) hcallback
        (.new [.i32 id])) fun fuel => ?_)
      rw [runInsts_switch L hnames, if_pos hid]
    · have hread : readCall L names.length id s = .ok s := by
        rw [readCall]
        refine if_neg fun h => ?_
        have hpos := Int32.le_iff_toInt_le.mp h.1
        exact hid ⟨hpos, h.2⟩
      rw [hread]
      refine Returns.runBlock hblock (Returns.of_eq (returns_default L hempty (.new [.i32 id]) s) fun fuel => ?_)
      rw [runInsts_switch L hnames, if_neg hid]
  have hsettles := Returns.call (lookup_dispatchApi L) hentry
  rw [bind_assoc] at hsettles
  exact hsettles

end Call

end Caf
