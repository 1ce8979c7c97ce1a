import Caf.Proof.StubApi

/-!
# The main function

`__caf_main` fills the array of the API functions, reads the number of calls, and calls `__caf_dispatch_api` for each.

* `settles_callbackFuncArr`: the array is filled.
* `returns_mainLoop`: the loop over the calls.
* `settles_runCafMain`: **a run of the generated program does what `readTestCase` says**.
-/

namespace Caf

open Ir LittleEndian CAFCodeGeneratorForNodejs

variable {σ H : Type} (L : V8Lib σ H) {names : List StdString}

/-! ## The array of the API functions -/

/-- The addresses of the API functions from `i` to `i + n`. -/
def storeCandidates (i n : ℕ) (data : ℕ → StubVal H) : ℕ → StubVal H := fun j =>
  if i ≤ j ∧ j < i + n then .ptr (.function (.api j)) else data j

theorem storeCandidates_succ (i n : ℕ) (data : ℕ → StubVal H) :
    storeCandidates (i + 1) n (Function.update data i (.ptr (.function (.api i)))) =
      storeCandidates i (n + 1) data := by
  funext j
  by_cases hj : j = i
  · subst hj
    simp [storeCandidates]
  · simp only [storeCandidates, Function.update_of_ne hj]
    congr 1
    simp only [eq_iff_iff]
    omega

variable (names) in
/-- The addresses are stored one after another. -/
theorem runInsts_candidates (enter : Enter Symbol H (StubProcess σ H)) (fn : Ir.Function Symbol)
    (rest : List (Inst Symbol)) (count n : ℕ) (hcount : count < 2 ^ 31) (s : StubProcess σ H) :
    ∀ (i : ℕ) (f : Frame Symbol H) (mem : Memory Symbol H) (data : ℕ → StubVal H), i + n = count →
      mem[0]? = some (.words count data) →
      ∃ f', (stubProgram L names).runInsts enter fn ((List.range' i n).flatMap candidateInsts ++ rest) f ⟨mem, s⟩ =
        (stubProgram L names).runInsts enter fn rest f' ⟨mem.set 0 (.words count (storeCandidates i n data)), s⟩ := by
  induction n with
  | zero =>
    intro i f mem data _ hmem
    have hdata : storeCandidates i 0 data = data := by
      funext j
      rw [storeCandidates, if_neg (by omega)]
    exact ⟨f, by rw [hdata, set_eq_self hmem]; rfl⟩
  | succ n ih =>
    intro i f mem data hi hmem
    have hint : (Int32.ofNat i).toInt = i := Int32.toInt_ofNat_of_lt (by omega)
    have helement : (Ptr.object 0 0 : Ptr Symbol H).element .i64 (Int32.ofNat i) = .ok (.object 0 (8 * (i : ℤ))) := by
      simp [Ptr.element, hint, Ty.size]
    have hstore : mem.store (.object 0 (8 * (i : ℤ))) (.ptr (.function (.api i))) =
        .ok (mem.set 0 (.words count (Function.update data i (.ptr (.function (.api i)))))) := by
      simp [Memory.store, Val.bytes, Memory.modify, hmem, Object.storeWord_words (show i < count by omega), Except.map]
    have hpos : 0 < mem.length := (List.getElem?_eq_some_iff.mp hmem).1
    obtain ⟨f', hf'⟩ := ih (i + 1) (((f.set (3 * i) (.ptr (.function (.api i)))).set (3 * i + 1)
      (.ptr (.object 0 (8 * (i : ℤ))))).set (3 * i + 2) .undefined) _ _ (by omega) (List.getElem?_set_self hpos)
    refine ⟨f', ?_⟩
    rw [List.set_set, storeCandidates_succ] at hf'
    rw [← hf', List.range'_succ, List.flatMap_cons, List.append_assoc, candidateInsts]
    simp (disch := omega) only [List.cons_append, List.nil_append, Program.runInsts, Op.perform, Frame.address,
      Frame.number, Frame.eval_function, Frame.eval_global, Frame.eval_i32, pure, Except.pure, ok_bind, helement,
      Frame.eval_set_self, Frame.eval_set_ne, hstore]

/-- `__caf_dispatch_callbackfuncarr`. -/
def candidatesFn (candidates : ℕ) : Ir.Function Symbol := ⟨candidateBlocks candidates⟩

/-- **The array is filled.** -/
theorem settles_callbackFuncArr (hnames : names.length < 2 ^ 31) {mem : Memory Symbol H} {data : ℕ → StubVal H}
    (s : StubProcess σ H) (hmem : mem[0]? = some (.words names.length data)) :
    Settles
      (fun fuel =>
        (stubProgram L names).call ((stubProgram L names).runBlock fuel) .dispatchCallbackFuncArr [] ⟨mem, s⟩)
      (.ok (.undefined, ⟨mem.set 0 (.words names.length (storeCandidates 0 names.length data)), s⟩)) := by
  have hfn : (stubProgram L names).functions.lookup .dispatchCallbackFuncArr = some (candidatesFn names.length) := by
    rw [candidatesFn, ← build_generateCallbackFunctionCandidateArray]
    rfl
  have hentry : (candidatesFn names.length).blocks[0]? = some ⟨"entry",
      (List.range' 0 names.length).flatMap candidateInsts ++ [⟨3 * names.length, .br 1⟩]⟩ := by
    rw [candidatesFn, candidateBlocks, List.range_eq_range']
    rfl
  have hend : (candidatesFn names.length).blocks[1]? = some ⟨"end", [⟨3 * names.length + 1, .ret none⟩]⟩ := rfl
  have hlen : ∀ o, (mem.set 0 o).take mem.length = mem.set 0 o := fun o => List.take_of_length_le (by simp)
  refine fun _ => ⟨2, fun fuel hfuel => ?_⟩
  obtain ⟨fuel, rfl⟩ : ∃ k, fuel = k + 2 := ⟨fuel - 2, by omega⟩
  obtain ⟨f', hf'⟩ := runInsts_candidates L names ((stubProgram L names).runBlock (fuel + 1))
    (candidatesFn names.length) [⟨3 * names.length, .br 1⟩] names.length names.length hnames s 0 (.new []) mem data
    (Nat.zero_add _) hmem
  have hreturn : (stubProgram L names).runInsts ((stubProgram L names).runBlock (fuel + 1)) (candidatesFn names.length)
      [⟨3 * names.length, .br 1⟩] f' ⟨mem.set 0 (.words names.length (storeCandidates 0 names.length data)), s⟩ =
        .ok (.undefined, ⟨mem.set 0 (.words names.length (storeCandidates 0 names.length data)), s⟩) := by
    simp only [Program.runInsts, Program.runBlock, hend]
    rfl
  have hrun : (stubProgram L names).runBlock (fuel + 2) (candidatesFn names.length) 0 (.new []) ⟨mem, s⟩ =
      .ok (.undefined, ⟨mem.set 0 (.words names.length (storeCandidates 0 names.length data)), s⟩) := by
    rw [Program.runBlock]
    simp only [hentry]
    rw [hf', hreturn]
  simp only [Program.call, hfn, hrun, ok_bind, hlen]
  rfl

/-! ## The loop over the calls -/

/-- `__caf_main`. -/
def mainFn : Ir.Function Symbol := ⟨mainBlocks⟩

/-- Between two calls: the number of calls that are left is in the object `c`. -/
structure MainLoop (names : List StdString) (c : ℕ) (n : Int32) (f : Frame Symbol H) (mem : Memory Symbol H) :
    Prop where
  address : f.eval (.reg 5) = .ok (.ptr (.object c 0))
  size : mem[c]? = some (intCell n)
  callback : CallbackArray names.length mem
  ne : c ≠ 0

theorem MainLoop.load {c : ℕ} {n : Int32} {f : Frame Symbol H} {mem : Memory Symbol H} (h : MainLoop names c n f mem) :
    mem.load .i32 (.object c 0) = .ok (.i32 n) := by
  simp only [Memory.load, h.size, load_intCell]

/-- The head of the loop. -/
theorem runInsts_mainCond (enter : Enter Symbol H (StubProcess σ H)) {c : ℕ} {n : Int32} {f : Frame Symbol H}
    {mem : Memory Symbol H} (s : StubProcess σ H) (h : MainLoop names c n f mem) :
    (stubProgram L names).runInsts enter mainFn
        [⟨9, .load .i32 (.reg 5)⟩, ⟨10, .icmp .sgt (.reg 9) (.i32 0)⟩, ⟨11, .condBr (.reg 10) 2 3⟩] f ⟨mem, s⟩ =
      enter mainFn (if 0 < n then 2 else 3) ((f.set 9 (.i32 n)).set 10 (.bool (decide (0 < n)))) ⟨mem, s⟩ := by
  simp only [Program.runInsts, Op.perform, Frame.address, Frame.number, pure, Except.pure, ok_bind, h.address, h.load,
    Frame.eval_set_self, Frame.eval_i32, Comparison.holds, decide_eq_true_eq]

/-- The body of the loop. -/
def mainBodyInsts : List (Inst Symbol) :=
  ⟨12, .load .i32 (.reg 5)⟩ :: printfInsts 13 (text "testcase num = %d\n") [.reg 12] ++
    [⟨17, .sub (.reg 12) (.i32 1)⟩, ⟨18, .store (.reg 17) (.reg 5)⟩] ++ readInsts .i32 .inputIntTo 19 ++
    printfInsts 23 (text "api_id = %d\n") [.reg 22] ++
    [⟨27, .call .dispatchApi [.reg 22]⟩, ⟨28, .br 1⟩]

/-- The memory at the call. -/
def mainMemory (c : ℕ) (n : Int32) (mem : Memory Symbol H) (s : StubProcess σ H) : Memory Symbol H :=
  (mem ++ [Object.cell (getString (text "testcase num = %d\n"))]).set c (intCell (n - 1)) ++ [intCell s.readInt.1] ++
    [.cell (getString (text "api_id = %d\n"))]

/-- **One call**: the number of calls goes down, and the function id is read. -/
theorem runInsts_mainBody {c : ℕ} {n : Int32} {f : Frame Symbol H} {mem : Memory Symbol H} (s : StubProcess σ H)
    (h : MainLoop names c n f mem) :
    ∃ f' : Frame Symbol H, MainLoop names c (n - 1) f' (mainMemory c n mem s) ∧ (∀ enter,
      (stubProgram L names).runInsts enter mainFn mainBodyInsts f ⟨mem, s⟩ =
        (stubProgram L names).call enter .dispatchApi [.i32 s.readInt.1] ⟨mainMemory c n mem s, s.readInt.2⟩ >>=
          fun x => enter mainFn 1 (f'.set 27 x.1) x.2) := by
  set f₁ := f.set 12 (.i32 n) with hf₁
  set f₂ := printfFrame 13 f₁ (⟨mem, s⟩ : StubMachine σ H) with hf₂
  set f₃ := (f₂.set 17 (.i32 (n - 1))).set 18 .undefined with hf₃
  set mem₃ := (mem ++ [Object.cell (getString (text "testcase num = %d\n"))]).set c (intCell (n - 1)) with hmem₃
  set f₄ := readFrame 19 f₃ (⟨mem₃, s⟩ : StubMachine σ H) (.i32 s.readInt.1) with hf₄
  set mem₄ := mem₃ ++ [intCell s.readInt.1] with hmem₄
  set f₅ := printfFrame 23 f₄ (⟨mem₄, s.readInt.2⟩ : StubMachine σ H) with hf₅
  obtain ⟨hlt, -⟩ := List.getElem?_eq_some_iff.mp h.size
  have hget : (mem ++ [Object.cell (getString (text "testcase num = %d\n"))])[c]? = some (intCell n) :=
    getElem?_append_of_some h.size _
  have haddress : f₂.eval (.reg 5) = .ok (.ptr (.object c 0)) := by simp [hf₂, hf₁, printfFrame, h.address]
  have hnumber : f₂.eval (.reg 12) = .ok (.i32 n) := by simp [hf₂, hf₁, printfFrame]
  have hid : f₅.eval (.reg 22) = .ok (.i32 s.readInt.1) := eval_printRead _ _ _ _ _
  have hstore : Memory.store (mem ++ [Object.cell (getString (text "testcase num = %d\n"))]) (.object c 0)
      (.i32 (n - 1)) = .ok mem₃ := by
    simp only [Memory.store, Memory.write, Val.bytes, Memory.modify, hget, store_intCell, Except.map, hmem₃]
  refine ⟨f₅, ⟨?_, ?_, ?_, h.ne⟩, fun enter => ?_⟩
  · simp [hf₅, hf₄, hf₃, printfFrame, readFrame, haddress]
  · have hset : mem₃[c]? = some (intCell (n - 1)) := List.getElem?_set_self (by simp; omega)
    exact getElem?_append_of_some (getElem?_append_of_some hset _) _
  · obtain ⟨data, hbase, hdata⟩ := h.callback
    have hbase' : mem₃[0]? = some (.words names.length data) := by
      rw [hmem₃, List.getElem?_set_ne h.ne]
      exact getElem?_append_of_some hbase _
    exact ⟨data, getElem?_append_of_some (getElem?_append_of_some hbase' _) _, hdata⟩
  · have hfirst : ∀ rest, (stubProgram L names).runInsts enter mainFn
        (⟨12, .load .i32 (.reg 5)⟩ :: rest) f ⟨mem, s⟩ =
        (stubProgram L names).runInsts enter mainFn rest f₁ ⟨mem, s⟩ := by
      intro rest
      simp only [Program.runInsts, Op.perform, Frame.address, pure, Except.pure, ok_bind, h.address, h.load]
      rfl
    have hsub : ∀ rest, (stubProgram L names).runInsts enter mainFn
        ([⟨17, .sub (.reg 12) (.i32 1)⟩, ⟨18, .store (.reg 17) (.reg 5)⟩] ++ rest) f₂
          ⟨mem ++ [Object.cell (getString (text "testcase num = %d\n"))], s⟩ =
        (stubProgram L names).runInsts enter mainFn rest f₃ ⟨mem₃, s⟩ := by
      intro rest
      simp (disch := omega) only [List.cons_append, List.nil_append, Program.runInsts, Op.perform, Frame.address,
        Frame.number, pure, Except.pure, ok_bind, Frame.eval_set_self, Frame.eval_set_ne, Frame.eval_i32, haddress,
        hnumber, hstore, hf₃]
    rw [mainBodyInsts, List.cons_append, List.cons_append, List.cons_append, List.cons_append, hfirst,
      List.append_assoc, List.append_assoc, List.append_assoc, runInsts_printf _ _ _ _ _ _ _ _ _ (by simp [hf₁]), hsub,
      runInsts_readInt, runInsts_printRead, Program.runInsts_call _ _ _ _ _ _ _ _ (Frame.mapM_eval _ hid)]
    rfl

theorem toNatClampNeg_sub_one {n : Int32} {todo : ℕ} (h : n.toNatClampNeg = todo + 1) :
    (n - 1).toNatClampNeg = todo := by
  have hone : (1 : Int32).toInt = 1 := rfl
  have hn : n.toNatClampNeg = n.toInt.toNat := rfl
  have hle := n.toInt_lt
  have hsub : (n - 1).toInt = n.toInt - 1 := by
    rw [Int32.toInt_sub, hone]
    exact Int.bmod_eq_of_le (by omega) (by omega)
  have hn' : (n - 1).toNatClampNeg = (n - 1).toInt.toNat := rfl
  omega

/-- **The loop over the calls.** -/
theorem returns_mainLoop (hnames : names.length ≤ 2 ^ 31) (todo : ℕ) :
    ∀ {c : ℕ} {n : Int32} {f : Frame Symbol H} {mem : Memory Symbol H} (s : StubProcess σ H), n.toNatClampNeg = todo →
      MainLoop names c n f mem →
      Returns [] (fun fuel => (stubProgram L names).runBlock fuel mainFn 1 f ⟨mem, s⟩)
        (readCalls L names.length todo s >>= fun s => .ok (.undefined, s)) := by
  have hcond : mainFn.blocks[1]? = some ⟨"main.while.cond",
      [⟨9, .load .i32 (.reg 5)⟩, ⟨10, .icmp .sgt (.reg 9) (.i32 0)⟩, ⟨11, .condBr (.reg 10) 2 3⟩]⟩ := rfl
  have hbody : mainFn.blocks[2]? = some ⟨"main.while.body", mainBodyInsts⟩ := rfl
  have hend : mainFn.blocks[3]? = some ⟨"main.end", [⟨29, .ret none⟩]⟩ := rfl
  have hpos : ∀ n : Int32, 0 < n ↔ 0 < n.toNatClampNeg := fun n => (Int32.toNatClampNeg_pos_iff n).symm
  induction todo with
  | zero =>
    intro c n f mem s hn hloop
    have hreturn : Returns [] (fun fuel => (stubProgram L names).runBlock fuel mainFn 3
        ((f.set 9 (.i32 n)).set 10 (.bool (decide (0 < n)))) ⟨mem, s⟩) (.ok (.undefined, s)) :=
      Returns.runBlock hend (Returns.of_eq (Returns.ok (m := ⟨mem, s⟩) .undefined rfl) fun _ => rfl)
    refine Returns.runBlock hcond (Returns.of_eq hreturn fun fuel => ?_)
    rw [runInsts_mainCond L _ s hloop, if_neg (by rw [hpos, hn]; exact Nat.lt_irrefl 0)]
  | succ todo ih =>
    intro c n f mem s hn hloop
    have hloop' : MainLoop names c n ((f.set 9 (.i32 n)).set 10 (.bool (decide (0 < n)))) mem :=
      ⟨by simp [hloop.address], hloop.size, hloop.callback, hloop.ne⟩
    obtain ⟨f', hnext, hrun⟩ := runInsts_mainBody L s hloop'
    have hread : readCalls L names.length (todo + 1) s >>= (fun s => .ok (.undefined, s)) =
        readCall L names.length s.readInt.1 s.readInt.2 >>= fun s' =>
          readCalls L names.length todo s' >>= fun s => Except.ok ((Val.undefined : StubVal H), s) := by
      simp only [readCalls, bind_assoc]
    have hcall : Returns [] (fun fuel => (stubProgram L names).call ((stubProgram L names).runBlock fuel) .dispatchApi
        [.i32 s.readInt.1] ⟨mainMemory c n mem s, s.readInt.2⟩ >>= fun x =>
          (stubProgram L names).runBlock fuel mainFn 1 (f'.set 27 x.1) x.2) _ :=
      Returns.bind (settles_dispatchApi L hnames s.readInt.1 _ s.readInt.2 hnext.callback) fun s' _ =>
        ih s' (toNatClampNeg_sub_one hn)
          ⟨by rw [Frame.eval_set_ne _ (by omega), hnext.address], hnext.size, hnext.callback, hnext.ne⟩
    rw [hread]
    refine Returns.runBlock hcond (Returns.of_eq (Returns.runBlock hbody (Returns.of_eq hcall fun fuel => hrun _))
      fun fuel => ?_)
    rw [runInsts_mainCond L _ s hloop, if_pos (by rw [hpos, hn]; exact Nat.succ_pos todo)]

/-! ## The program -/

/-- The start of `__caf_main`. -/
def mainEntryInsts : List (Inst Symbol) :=
  printfInsts 0 (text "__caf_main runnning...\n\n") [] ++
    [⟨4, .call .dispatchCallbackFuncArr []⟩, ⟨5, .alloca .i32 (.i32 1)⟩, ⟨6, .bitCast (.reg 5)⟩,
      ⟨7, .call .inputIntTo [.reg 6]⟩, ⟨8, .br 1⟩]

/-- The start of `__caf_main`, after the array has been filled. -/
theorem runInsts_mainSize (enter : Enter Symbol H (StubProcess σ H)) (f : Frame Symbol H) (mem : Memory Symbol H)
    (s : StubProcess σ H) :
    (stubProgram L names).runInsts enter mainFn [⟨5, .alloca .i32 (.i32 1)⟩, ⟨6, .bitCast (.reg 5)⟩,
        ⟨7, .call .inputIntTo [.reg 6]⟩, ⟨8, .br 1⟩] f ⟨mem, s⟩ =
      enter mainFn 1 (((f.set 5 (.ptr (.object mem.length 0))).set 6 (.ptr (.object mem.length 0))).set 7 .undefined)
        ⟨mem ++ [intCell s.readInt.1], s.readInt.2⟩ := by
  have hone : (Int32.toUInt32 1).toNat = 1 := rfl
  simp [Program.runInsts, Op.perform, Frame.number, Frame.address, pure, Except.pure, ok_bind, call_host,
    inputIntTo_last, hone]

/-- `__caf_main` returns what `readTestCase` says. -/
theorem returns_cafMain (hnames : names.length < 2 ^ 31) (s : StubProcess σ H) :
    Returns [] (fun fuel => (stubProgram L names).runBlock fuel mainFn 0 (.new []) (StubMachine.start names s))
      (readTestCase L names.length s >>= fun s => .ok (.undefined, s)) := by
  set cell : Object Symbol H := .cell (getString (text "__caf_main runnning...\n\n")) with hcell
  set mem : Memory Symbol H := [.words names.length fun _ => .i64 0, cell] with hmem
  set mem' := mem.set 0 (.words names.length (storeCandidates 0 names.length fun _ => .i64 0)) with hmem'
  set f := printfFrame 0 (.new []) (StubMachine.start names s) with hf
  have hentry : mainFn.blocks[0]? = some ⟨"main.entry", mainEntryInsts⟩ := rfl
  have hget : ∀ o, (mem' ++ [o])[0]? = some (.words names.length (storeCandidates 0 names.length fun _ => .i64 0)) :=
    fun _ => rfl
  have hcallback : CallbackArray names.length (mem' ++ [intCell s.readInt.1]) := by
    refine ⟨_, hget _, fun i hi => ?_⟩
    rw [storeCandidates, if_pos (by omega)]
  have harray : Settles (fun fuel => (stubProgram L names).call ((stubProgram L names).runBlock fuel)
      .dispatchCallbackFuncArr [] ⟨mem, s⟩) (Except.ok () >>= fun _ => .ok (Val.undefined, ⟨mem', s⟩)) :=
    settles_callbackFuncArr L hnames s rfl
  have hloop : MainLoop names 2 s.readInt.1 ((((f.set 4 .undefined).set 5 (.ptr (.object 2 0))).set 6
      (.ptr (.object 2 0))).set 7 .undefined) (mem' ++ [intCell s.readInt.1]) :=
    ⟨by simp, rfl, hcallback, by omega⟩
  have hcall : Returns [] (fun fuel => (stubProgram L names).call ((stubProgram L names).runBlock fuel)
      .dispatchCallbackFuncArr [] ⟨mem, s⟩ >>= fun x => (stubProgram L names).runInsts
        ((stubProgram L names).runBlock fuel) mainFn [⟨5, .alloca .i32 (.i32 1)⟩, ⟨6, .bitCast (.reg 5)⟩,
          ⟨7, .call .inputIntTo [.reg 6]⟩, ⟨8, .br 1⟩] (f.set 4 x.1) x.2)
      (Except.ok () >>= fun _ => readTestCase L names.length s >>= fun s => .ok (.undefined, s)) := by
    refine Returns.bind harray fun _ _ => ?_
    exact Returns.of_eq (returns_mainLoop L hnames.le _ s.readInt.2 rfl hloop) fun fuel =>
      runInsts_mainSize L _ _ mem' s
  refine Returns.runBlock hentry (Returns.of_eq hcall fun fuel => ?_)
  rw [mainEntryInsts, runInsts_printf _ _ _ _ _ _ _ _ _ (by simp),
    Program.runInsts_call _ _ _ _ _ [] _ _ List.mapM_nil]
  rfl

/-- **A run of the generated program** does what `readTestCase` says. -/
theorem settles_runCafMain (hnames : names.length < 2 ^ 31) (s : StubProcess σ H) :
    Settles (fun fuel => runCafMain L names fuel s) (readTestCase L names.length s) := by
  have hfn : (stubProgram L names).functions.lookup .cafMain = some mainFn := by
    rw [mainFn, ← build_createCafMain]
    rfl
  have hhost := (returns_cafMain L hnames s).host
  rw [bind_assoc] at hhost
  have hread : readTestCase L names.length s >>= (fun s =>
      (Except.ok ((Val.undefined : StubVal H), s)) >>= fun (_, x) => .ok x) = readTestCase L names.length s :=
    bind_pure (readTestCase L names.length s)
  rw [hread] at hhost
  refine Settles.of_eq hhost fun fuel => ?_
  simp only [runCafMain, Program.call, hfn, bind_assoc]
  rfl

end Caf
