import Caf.Proof.StubBlocks

/-!
# The function that makes the values

`caf_dispatch_malloc_value_of_type` reads a kind and goes to the block for it, which reads the value.

* `caseReads_integer` and the like: the cases, wherever their blocks are.
* `reads_readStubValue`: a call of the function reads a value as `readStubValue` says.
-/

namespace Caf

open Ir LittleEndian CAFCodeGeneratorForNodejs

variable {σ H : Type} (L : V8Lib σ H) (names : List StdString) {base : Memory Symbol H}

/-- From its first block on, a case reads a value. -/
def CaseReads (c : MallocCase) (read : StubReader σ H (Option H)) : Prop :=
  ∀ (fn : Ir.Function Symbol) (j k : ℕ) (base l : Memory Symbol H) (f : Frame Symbol H) (s : StubProcess σ H),
    BlocksAt fn j (c j k) → CallbackArray names.length base →
      Returns base (fun fuel => (stubProgram L names).runBlock fuel fn j f ⟨base ++ l, s⟩)
        (read s >>= fun (v, s) => .ok (StubVal.ofValue v, s))

/-! ## Blocks -/

/-- **A case without a loop**: it is enough to run its instructions. -/
theorem caseReads_of_insts {c : MallocCode} {read : StubReader σ H (Option H)}
    (h : ∀ (fn : Ir.Function Symbol) (k : ℕ) (base l : Memory Symbol H) (f : Frame Symbol H) (s : StubProcess σ H),
      CallbackArray names.length base → ∃ w : Memory Symbol H, w.take base.length = base ∧ ∀ enter k',
        (stubProgram L names).runInsts enter fn (c.insts k ++ returnInsts k' (c.value k)) f ⟨base ++ l, s⟩ =
          read s >>= fun (v, s) => .ok (StubVal.ofValue v, ⟨w, s⟩)) (name : String) :
    CaseReads L names (c.blocks name) read := by
  intro fn j k base l f s hblocks hcallback
  obtain ⟨w, hw, hrun⟩ := h fn k base l f s hcallback
  refine Returns.block (hblocks.get (i := 0) rfl) (fun enter => (hrun enter _).trans ?_) hw
  rw [bind_assoc]
  rfl

variable {enter : Enter Symbol H (StubProcess σ H)} {fn : Ir.Function Symbol} {f : Frame Symbol H}

theorem runInsts_return {value : LlvmValue} {v : Option H} (m : StubMachine σ H) (k : ℕ)
    (h : f.eval value = .ok (StubVal.ofValue v)) :
    (stubProgram L names).runInsts enter fn (returnInsts k value) f m = .ok (StubVal.ofValue v, m) := by
  obtain ⟨p, hp⟩ : ∃ p, StubVal.ofValue v = .ptr p := by
    cases v <;> exact ⟨_, rfl⟩
  rw [hp] at h ⊢
  simp [returnInsts, Program.runInsts, Op.perform, Frame.address, pure, Except.pure, ok_bind, h]

/-- A value is made and returned. -/
theorem runInsts_create {callee : Symbol} {args : List LlvmValue} {vs : List (StubVal H)}
    {create : σ → Option (H × σ)} {m : StubMachine σ H} (k k' : ℕ) (hargs : args.mapM f.eval = .ok vs)
    (hcreate : (stubProgram L names).call enter callee vs m = giveHandle m create) :
    (stubProgram L names).runInsts enter fn (⟨k, .call callee args⟩ :: returnInsts k' (.reg k)) f m =
      createValue create m.host >>= fun (v, s) => .ok (StubVal.ofValue v, ⟨m.memory, s⟩) := by
  rw [Program.runInsts_call _ _ _ _ _ _ _ _ hargs, hcreate]
  -- if the library does not return, neither does the block
  simp only [giveHandle, createValue, StubProcess.give, bind_assoc]
  refine bind_congr fun x => ?_
  exact runInsts_return L names (v := some x.1) _ k' (Frame.eval_set_self _ _ _)

/-- **A value is made, shown and returned.** -/
theorem runInsts_createShown {callee callee' : Symbol} {arg : LlvmValue} {v : StubVal H} {create : σ → Option (H × σ)}
    {showValue : H → σ → Option σ} {m : StubMachine σ H} (k k' : ℕ) (harg : f.eval arg = .ok v)
    (hcreate : (stubProgram L names).call enter callee [v] m = giveHandle m create)
    (hshow : ∀ h m, (stubProgram L names).call enter callee' [.ptr (.handle h)] m = giveVoid m (showValue h)) :
    (stubProgram L names).runInsts enter fn (createShownInsts k callee callee' arg ++ returnInsts k' (.reg k)) f m =
      createAndShow create showValue m.host >>= fun (v, s) => .ok (StubVal.ofValue v, ⟨m.memory, s⟩) := by
  rw [createShownInsts, List.cons_append, Program.runInsts_call _ _ _ _ _ _ _ _ (f.mapM_eval harg), hcreate]
  simp only [giveHandle, createAndShow, StubProcess.give, StubProcess.act, bind_assoc]
  refine bind_congr fun x => ?_
  have hshown := Frame.mapM_eval _ (f.eval_set_self k (.ptr (.handle x.1)))
  refine (Program.runInsts_call _ _ _ _ _ _ _ _ hshown).trans ?_
  rw [hshow]
  simp only [giveVoid, bind_assoc]
  refine bind_congr fun v8 => ?_
  exact runInsts_return L names (v := some x.1) _ k' ((Frame.eval_set_ne _ (Nat.ne_of_lt (Nat.lt_succ_self k)) _).trans
    (Frame.eval_set_self _ _ _))

/-! ## Literals -/

theorem caseReads_undefined (name : String) :
    CaseReads L names (mallocUndefined.blocks name) (createValue L.createUndefined) := by
  refine caseReads_of_insts L names (fun fn k base l f s _ => ⟨base ++ l, by simp, fun enter k' => ?_⟩) name
  exact runInsts_create L names k k' List.mapM_nil (by simp [call_host, callHost])

theorem caseReads_null (name : String) : CaseReads L names (mallocNull.blocks name) (createValue L.createNull) := by
  refine caseReads_of_insts L names (fun fn k base l f s _ => ⟨base ++ l, by simp, fun enter k' => ?_⟩) name
  exact runInsts_create L names k k' List.mapM_nil (by simp [call_host, callHost])

theorem caseReads_integer (name : String) : CaseReads L names (mallocInteger.blocks name) fun s =>
    createAndShow (L.createInteger s.readInt.1) L.showInteger s.readInt.2 := by
  refine caseReads_of_insts L names (fun fn k base l f s _ => ⟨base ++ l ++ [intCell s.readInt.1] ++
    [.cell (getString (text "input integer = %d\n"))], by simp, fun enter k' => ?_⟩) name
  simp only [mallocInteger, List.append_assoc _ _ (returnInsts _ _)]
  rw [List.append_assoc, runInsts_readInt, runInsts_printRead]
  exact runInsts_createShown L names _ k' (v := .i32 s.readInt.1) (by simp) (by simp [call_host, callHost])
    (by simp [call_host, callHost, StubVal.handle, ok_bind])

theorem caseReads_float (name : String) : CaseReads L names (mallocFloatingPointer.blocks name) fun s =>
    createAndShow (L.createNumber s.readDouble.1) L.showNumber s.readDouble.2 := by
  refine caseReads_of_insts L names (fun fn k base l f s _ => ⟨base ++ l ++ [.cell (s.getchars 8).1] ++
    [.cell (getString (text "input double = %lf\n"))], by simp, fun enter k' => ?_⟩) name
  simp only [mallocFloatingPointer, List.append_assoc _ _ (returnInsts _ _)]
  rw [List.append_assoc, runInsts_readDouble, runInsts_printRead]
  exact runInsts_createShown L names _ k' (v := .double s.readDouble.1) (by simp) (by simp [call_host, callHost])
    (by simp [call_host, callHost, StubVal.handle, ok_bind])

theorem caseReads_boolean (name : String) : CaseReads L names (mallocBoolean.blocks name) fun s =>
    createAndShow (L.createBoolean ((s.scan 1).1.head?.join)) L.showBoolean (s.scan 1).2 := by
  refine caseReads_of_insts L names (fun fn k base l f s _ => ⟨base ++ l ++ [scanned 1 s] ++
    [.cell (getString (text "input boolean = %hhx\n"))], by simp, fun enter k' => ?_⟩) name
  have hone : (1 : Int32).toNatClampNeg = 1 := rfl
  have hbyte : (s.scan 1).1.head?.join = (s.input.take 1)[0]? := by
    simp [StubProcess.scan, List.range_succ]
  simp only [mallocBoolean, List.append_assoc _ _ (returnInsts _ _)]
  rw [List.append_assoc, runInsts_scan _ _ _ _ _ _ _ _ (Frame.eval_i32 _ _) (by simp), if_neg (by decide), hone,
    runInsts_printRead, hbyte]
  refine runInsts_createShown L names _ k' (v := .ofByte ((s.input.take 1)[0]?)) (by simp) ?_
    (by simp [call_host, callHost, StubVal.handle, ok_bind])
  cases (s.input.take 1)[0]? <;> simp [call_host, callHost, Val.ofByte]

theorem caseReads_string (name : String) : CaseReads L names (mallocString.blocks name) (readString L) := by
  refine caseReads_of_insts L names (fun fn k base l f s _ => ⟨base ++ l ++ [intCell s.readInt.1] ++
    [.cell (getString (text "input_string_length = %d\n"))] ++ [scanned s.readInt.1 s.readInt.2] ++
    [.cell (getString (text "input value = %d\n"))], by simp, fun enter k' => ?_⟩) name
  simp only [mallocString, List.append_assoc _ _ (returnInsts _ _)]
  rw [List.append_assoc, List.append_assoc, List.append_assoc, runInsts_readInt, runInsts_printRead,
    runInsts_scan _ _ _ _ _ _ _ _ (n := s.readInt.1) (by simp) (by simp)]
  by_cases hn : s.readInt.1 = 0
  · -- the first byte is loaded, and there is none
    have hread : readString L s = .error .undefined := by
      simp only [readString, hn, if_true]
    rw [if_pos hn, hread]
    rfl
  · rw [if_neg hn, runInsts_printRead]
    have hread : readString L s = createAndShow (L.createString ((s.readInt.2.scan s.readInt.1.toNatClampNeg).1 ++
        List.replicate (s.readInt.1.toUInt32.toNat - s.readInt.1.toNatClampNeg) none)) L.showString
        (s.readInt.2.scan s.readInt.1.toNatClampNeg).2 := by
      simp only [readString, hn, if_false]
    rw [hread]
    generalize base ++ l ++ [intCell s.readInt.1] ++ [.cell (getString (text "input_string_length = %d\n"))] = mem
    -- `CreateString` gets the bytes of the allocation, of which the input may have filled fewer
    have hbytes := readBytes_scanned mem [.cell (getString (text "input value = %d\n"))] s.readInt.1 s.readInt.2
    refine runInsts_createShown L names _ k' (v := .ptr (.object mem.length 0)) (by simp [readFrame, printfFrame]) ?_
      (by simp [call_host, callHost, StubVal.handle, ok_bind])
    simp [call_host, callHost, hbytes, ok_bind]

theorem caseReads_function (name : String) :
    CaseReads L names (mallocFunction.blocks name) (readFunction L names.length) := by
  refine caseReads_of_insts L names (fun fn k base l f s hcallback => ⟨base ++ l ++ [intCell s.readInt.1] ++
    [.cell (getString (text "func_id = %d\n"))], by simp, fun enter k' => ?_⟩) name
  have helement : (Ptr.object 0 0 : Ptr Symbol H).element .i64 s.readInt.1 =
      .ok (.object 0 (8 * s.readInt.1.toInt)) := by
    simp [Ptr.element, Ty.size]
  have hload := fun l' => (hcallback.append l').load s.readInt.1
  simp only [mallocFunction, List.append_assoc _ _ (returnInsts _ _)]
  rw [List.append_assoc, runInsts_readInt, runInsts_printRead]
  by_cases hid : 0 ≤ s.readInt.1 ∧ s.readInt.1.toInt < names.length
  · have hread : readFunction L names.length s =
        createValue (L.createFunction s.readInt.1.toNatClampNeg) s.readInt.2 := by
      simp only [readFunction, if_pos hid]
    rw [hread]
    simp only [if_pos hid] at hload
    -- the address of the function is loaded from the array
    set g := printfFrame (k + 4) (readFrame k f ⟨base ++ l, s⟩ (.i32 s.readInt.1))
      (⟨base ++ l ++ [intCell s.readInt.1], s.readInt.2⟩ : StubMachine σ H) with hg
    set g' := ((g.set (k + 8) (.ptr (.object 0 (8 * s.readInt.1.toInt)))).set (k + 9)
      (.ptr (.function (.api s.readInt.1.toNatClampNeg)))).set (k + 10)
      (.ptr (.function (.api s.readInt.1.toNatClampNeg))) with hg'
    have hid' : g.eval (.reg (k + 3)) = .ok (.i32 s.readInt.1) := eval_printRead _ _ _ _ _
    have hstart : ∀ l' rest, (stubProgram L names).runInsts enter fn
        (⟨k + 8, .gep .i64 (.global 0) (.reg (k + 3))⟩ :: ⟨k + 9, .load .i64 (.reg (k + 8))⟩ ::
          ⟨k + 10, .intToPtr (.reg (k + 9))⟩ :: rest) g ⟨base ++ l', s.readInt.2⟩ =
        (stubProgram L names).runInsts enter fn rest g' ⟨base ++ l', s.readInt.2⟩ := by
      intro l' rest
      simp [hg', Program.runInsts, Op.perform, Frame.address, Frame.number, pure, Except.pure, ok_bind, hid', helement,
        hload, Val.toPtr]
    rw [List.append_assoc base l, List.append_assoc base]
    exact (hstart _ _).trans (runInsts_create L names _ k' (Frame.mapM_eval _ (Frame.eval_set_self _ _ _))
      (by simp [call_host, callHost]))
  · -- the load lies outside the array
    have hread : readFunction L names.length s = .error .undefined := by
      simp only [readFunction, if_neg hid]
    rw [hread]
    simp only [if_neg hid] at hload
    simp [Program.runInsts, Op.perform, Frame.address, Frame.number, pure, Except.pure, ok_bind, helement, hload,
      error_bind]

theorem toPtr_getFromObjectList (index : Int32) (s : StubProcess σ H) :
    (getFromObjectList index s).toPtr = .ok (StubVal.ofValue (s.object index)) := by
  by_cases h : 0 ≤ index
  · simp only [getFromObjectList, StubProcess.object, if_pos h]
    cases s.objects[index.toNatClampNeg]? <;> rfl
  · simp only [getFromObjectList, StubProcess.object, if_neg h]
    rfl

theorem caseReads_placeholder (name : String) : CaseReads L names (mallocPlaceholder.blocks name) fun s =>
    .ok (s.readInt.2.object s.readInt.1, s.readInt.2) := by
  refine caseReads_of_insts L names (fun fn k base l f s _ => ⟨base ++ l ++ [intCell s.readInt.1] ++
    [.cell (getString (text "placeholder_index= %d\n"))], by simp, fun enter k' => ?_⟩) name
  have htoPtr := toPtr_getFromObjectList s.readInt.1 s.readInt.2
  simp only [mallocPlaceholder, List.append_assoc _ _ (returnInsts _ _)]
  rw [List.append_assoc, runInsts_readInt, runInsts_printRead]
  rw [List.cons_append, Program.runInsts_call _ _ _ _ _ _ _ _ (Frame.mapM_eval _ (eval_printRead _ _ _ _ _))]
  simp only [call_host, ne_eq, reduceCtorEq, not_false_eq_true, callHost, ok_bind, List.cons_append, List.nil_append,
    Program.runInsts, Op.perform, Frame.eval_set_self, htoPtr, pure, Except.pure]
  exact runInsts_return L names _ k' (Frame.eval_set_self _ _ _)

/-! ## Arrays -/

variable {j k : ℕ}

theorem loopAt_mallocArrayBlocks (h : BlocksAt fn j (mallocArrayBlocks j k)) :
    LoopAt fn (k + 12) (k + 9) (k + 3) (k + 8) (j + 1) (j + 2) (j + 3) :=
  ⟨⟨_, h.get (i := 1) rfl⟩, ⟨_, h.get (i := 2) rfl⟩, by omega, by omega, by omega⟩

theorem mapM_value (vs : List (Option H)) : vs.mapM (StubVal.value ∘ StubVal.ofValue) = .ok vs := by
  refine (mapM_eq_map (g := id) fun v _ => ?_).trans (by rw [List.map_id]; rfl)
  cases v <;> rfl

/-- **The array is made of its elements, and saved.** -/
theorem returns_arrayEnd {base mem : Memory Symbol H} {f : Frame Symbol H} {n : Int32} {a : ℕ} {vs : List (Option H)}
    (s : StubProcess σ H) (hblocks : BlocksAt fn j (mallocArrayBlocks j k))
    (hcount : f.eval (.reg (k + 3)) = .ok (.i32 n)) (harray : f.eval (.reg (k + 8)) = .ok (.ptr (.object a 0)))
    (hbase : mem.take base.length = base)
    (hwords : mem.readWords (.object a 0) n.toNatClampNeg = .ok (vs.map StubVal.ofValue)) :
    Returns base (fun fuel => (stubProgram L names).runBlock fuel fn (j + 3) f ⟨mem, s⟩)
      (s.give (L.createArray vs n) >>= fun (h, s) => .ok (StubVal.ofValue (some h), saveToObjectList h s)) := by
  refine Returns.block (hblocks.get (i := 3) rfl) (fun enter => ?_) hbase
  have hargs : [.reg (k + 8), (.reg (k + 3) : LlvmValue)].mapM f.eval = .ok [.ptr (.object a 0), .i32 n] := by
    simp [List.mapM_cons, hcount, harray, pure, Except.pure, ok_bind]
  rw [List.cons_append, Program.runInsts_call _ _ _ _ _ _ _ _ hargs]
  simp only [call_host, ne_eq, reduceCtorEq, not_false_eq_true, callHost, hwords, ok_bind, List.mapM_map, mapM_value,
    giveHandle, StubProcess.give, bind_assoc]
  refine bind_congr fun x => ?_
  simp only [pure, Except.pure, ok_bind, List.cons_append, List.nil_append, Program.runInsts, Op.perform, Frame.address,
    Frame.eval_set_self, List.mapM_cons, List.mapM_nil, call_host, ne_eq, reduceCtorEq, not_false_eq_true, callHost,
    StubVal.handle]
  exact runInsts_return L names (v := some x.1) _ _ (by simp [StubVal.ofValue])

theorem caseReads_array {read : StubReader σ H (Option H)} (hread : DispatchReads L names read) :
    CaseReads L names mallocArrayBlocks (readArray L read) := by
  intro fn j k base l f s hblocks hcallback
  have hreader : readArray L read s >>= (fun (v, s) => .ok (StubVal.ofValue v, s)) =
      readValues read s.readInt.1.toNatClampNeg s.readInt.2 >>= fun r =>
        r.2.give (L.createArray r.1 s.readInt.1) >>= fun (h, s) =>
          .ok (StubVal.ofValue (some h), saveToObjectList h s) := by
    simp only [readArray, bind_assoc]
    rfl
  rw [hreader]
  -- the registers and the memory before the loop
  set m : StubMachine σ H := ⟨base ++ l ++ [intCell s.readInt.1] ++ [.cell (getString (text "input_arraysize = %d\n"))],
    s.readInt.2⟩ with hm
  set f₁ := printfFrame (k + 4) (readFrame k f ⟨base ++ l, s⟩ (.i32 s.readInt.1))
    (⟨base ++ l ++ [intCell s.readInt.1], s.readInt.2⟩ : StubMachine σ H) with hf₁
  set f₂ := ((f₁.set (k + 8) (.ptr (.object m.memory.length 0))).set (k + 9)
    (.ptr (.object (m.memory.length + 1) 0))).set (k + 10) .undefined with hf₂
  have hmem : m.memory = base ++ (l ++ [intCell s.readInt.1, .cell (getString (text "input_arraysize = %d\n"))]) := by
    simp [hm]
  have hvars : LoopVars (k + 9) (k + 3) (k + 8) (m.memory.length + 1) m.memory.length s.readInt.1 f₂ := by
    constructor <;> simp [hf₂, hf₁, printfFrame, readFrame]
  rw [hmem] at hvars
  have hloop := loop_reads L names (r := fun vs s' => s'.give (L.createArray vs s.readInt.1) >>= fun (h, s') =>
        .ok (StubVal.ofValue (some h), saveToObjectList h s'))
    s.readInt.2 hread (loopAt_mallocArrayBlocks hblocks) hcallback hvars fun vs f' mem' s' hagree hbase _ hwords => by
      have hvars' := hvars.agree (k := k + 12) (by omega) (by omega) (by omega) hagree
      exact returns_arrayEnd L names s' hblocks hvars'.count hvars'.array hbase hwords
  refine Returns.runBlock (hblocks.get (i := 0) rfl) (Returns.of_eq hloop fun fuel => ?_)
  have hnew : (Object.new .pointer s.readInt.1.toUInt32.toNat : Object Symbol H) =
      .words s.readInt.1.toUInt32.toNat fun _ => .undefined := rfl
  have hcount : f₁.eval (.reg (k + 3)) = .ok (.i32 s.readInt.1) := eval_printRead _ _ _ _ _
  -- the room for the elements has the number read from the input as its size, as an unsigned one
  have halloca : ∀ rest, (stubProgram L names).runInsts ((stubProgram L names).runBlock fuel) fn
      (⟨k + 8, .alloca .pointer (.reg (k + 3))⟩ :: rest) f₁ m =
      (stubProgram L names).runInsts ((stubProgram L names).runBlock fuel) fn rest
        (f₁.set (k + 8) (.ptr (.object m.memory.length 0)))
        ⟨m.memory ++ [.words s.readInt.1.toUInt32.toNat fun _ => .undefined], m.host⟩ := by
    intro rest
    simp only [Program.runInsts, Op.perform, Frame.number, hcount, ok_bind, pure, Except.pure, hnew]
  rw [List.append_assoc, runInsts_readInt, runInsts_printRead, halloca,
    runInsts_newIndex]
  simp [hf₂, hm]
  rfl

/-! ## The kind -/

/-- `caf_dispatch_malloc_value_of_type`. -/
def mallocFn : Ir.Function Symbol := ⟨mallocBlocks⟩

/-- The `switch` goes to the case for the kind. -/
theorem lookup_kind (kind : UInt8) :
    (kindCases.lookup (UInt32.ofNat kind.toNat).toInt32).getD (kindStart 0).1 = (kindStart kind.toNat).1 := by
  have hall : ∀ i < 256, (kindCases.lookup (UInt32.ofNat i).toInt32).getD (kindStart 0).1 = (kindStart i).1 := by
    decide +kernel
  exact hall _ kind.toNat_lt

/-- **The case for a kind is where the `switch` says.** -/
theorem blocksAt_mallocFn {kind : ℕ} {c : MallocCase} (hc : mallocCases[kind]? = some c) :
    BlocksAt mallocFn (kindStart kind).1 (c (kindStart kind).1 (kindStart kind).2) := by
  have hlt := (List.getElem?_eq_some_iff.mp hc).1
  have hstart : (caseStarts mallocCases 1 0)[kind]? = some (kindStart kind) := by
    have hlen : (caseStarts mallocCases 1 0).length = mallocCases.length := rfl
    rw [kindStart, List.getElem?_eq_getElem (hlen ▸ hlt)]
    rfl
  exact blocksAt_casesBlocks mallocCases [⟨"caf.malloc.entry", mallocEntryInsts mallocEntryRegister⟩] 1 0 rfl hc hstart

/-- The object of the kind, after its byte has been read. -/
def kindObject (s : StubProcess σ H) : Object Symbol H := .cell [s.readKind.1, 0, 0, 0]

theorem inputBytesTo_kind (mem : Memory Symbol H) (s : StubProcess σ H) :
    callHost L .inputBytesTo [.ptr (.object mem.length 0), .i32 1] ⟨mem ++ [intCell 0], s⟩ =
      .ok (.undefined, ⟨mem ++ [kindObject s], s.readKind.2⟩) := by
  have hone : (1 : Int32).toNatClampNeg = 1 := rfl
  have hcell : (intCell 0 : Object Symbol H) = .bytes 4 fun i => [0, 0, 0, 0][i]? := rfl
  rw [hcell, inputBytesTo_last L mem s (by decide), hone]
  cases hinput : s.input with
  | nil => simp [kindObject, StubProcess.readKind, hinput, writeBytes_nil, StubProcess.scan, Object.cell]
  | cons b input =>
    have hdata : writeBytes (fun i => [0, 0, 0, 0][i]?) 0 [b] = fun i => [b, 0, 0, 0][i]? := by
      funext i
      cases i <;> simp [writeBytes]
    simp [kindObject, StubProcess.readKind, hinput, hdata, StubProcess.scan, Object.cell]

theorem load_kindObject (s : StubProcess σ H) :
    (kindObject s).load .i32 0 = .ok (.i32 (UInt32.ofNat s.readKind.1.toNat).toInt32) := by
  rw [kindObject, Object.load_cell rfl]
  simp [Val.ofNat, ofBytes]

/-- The registers after the kind has been read. -/
def kindFrame (k : ℕ) (f : Frame Symbol H) (mem : Memory Symbol H) (s : StubProcess σ H) : Frame Symbol H :=
  ((((f.set k (.ptr (.object mem.length 0))).set (k + 1) .undefined).set (k + 2) (.ptr (.object mem.length 0))).set
    (k + 3) .undefined).set (k + 4) (.i32 (UInt32.ofNat s.readKind.1.toNat).toInt32)

/-- **The entry goes to the case for the kind.** -/
theorem runInsts_kind (k : ℕ) (f : Frame Symbol H) (mem : Memory Symbol H) (s : StubProcess σ H) :
    (stubProgram L names).runInsts enter fn (mallocEntryInsts k) f ⟨mem, s⟩ =
      enter fn (kindStart s.readKind.1.toNat).1
        (printfFrame (k + 5) (kindFrame k f mem s) ⟨mem ++ [kindObject s], s.readKind.2⟩)
        ⟨mem ++ [kindObject s] ++ [.cell (getString (text "\ninput_kind = %x\n"))], s.readKind.2⟩ := by
  have hone : (Int32.toUInt32 1).toNat = 1 := rfl
  have hstore : Memory.store (mem ++ [.new .i32 1]) (.object mem.length 0) (.i32 0) = .ok (mem ++ [intCell 0]) := by
    simp only [Memory.store, Val.bytes, Memory.write, Memory.modify_last, store_new_intCell, Except.map]
  have hstart : ∀ rest, (stubProgram L names).runInsts enter fn (readKindInsts k ++ rest) f ⟨mem, s⟩ =
      (stubProgram L names).runInsts enter fn rest (kindFrame k f mem s) ⟨mem ++ [kindObject s], s.readKind.2⟩ := by
    intro rest
    simp [readKindInsts, kindFrame, Program.runInsts, Op.perform, Frame.number, Frame.address, pure, Except.pure,
      ok_bind, call_host, inputBytesTo_kind, Memory.load_last, load_kindObject, hone, hstore]
  rw [mallocEntryInsts, hstart, runInsts_printf _ _ _ _ _ _ _ _ _ (by simp [kindFrame])]
  simp [kindFrame, printfFrame, Program.runInsts, Frame.number, pure, Except.pure, ok_bind, ← lookup_kind]

/-- What reads a value of a kind. -/
def readKindOf (read : StubReader σ H (Option H)) : ℕ → StubReader σ H (Option H)
  | 1, s => createValue L.createNull s
  | 2, s => createAndShow (L.createBoolean ((s.scan 1).1.head?.join)) L.showBoolean (s.scan 1).2
  | 3, s => readString L s
  | 4, s => readFunction L names.length s
  | 5, s => createAndShow (L.createInteger s.readInt.1) L.showInteger s.readInt.2
  | 6, s => createAndShow (L.createNumber s.readDouble.1) L.showNumber s.readDouble.2
  | 7, s => readArray L read s
  | 8, s => .ok (s.readInt.2.object s.readInt.1, s.readInt.2)
  | _, s => createValue L.createUndefined s

theorem readStubValue_succ (fuel : ℕ) (s : StubProcess σ H) :
    readStubValue L names.length (fuel + 1) s =
      readKindOf L names (readStubValue L names.length fuel) s.readKind.1.toNat s.readKind.2 := by
  rw [readStubValue]
  obtain ⟨kind, s⟩ := s.readKind
  dsimp only
  generalize kind.toNat = kind
  match kind with
  | 0 | 1 | 2 | 3 | 4 | 5 | 6 | 7 | 8 => rfl
  | _ + 9 => rfl

/-- **Every case reads the value of its kind.** -/
theorem caseReads_kind {read : StubReader σ H (Option H)} (hread : DispatchReads L names read) {kind : ℕ}
    {c : MallocCase} (hc : mallocCases[kind]? = some c) : CaseReads L names c (readKindOf L names read kind) := by
  match kind, hc with
  | 0, rfl => exact caseReads_undefined L names _
  | 1, rfl => exact caseReads_null L names _
  | 2, rfl => exact caseReads_boolean L names _
  | 3, rfl => exact caseReads_string L names _
  | 4, rfl => exact caseReads_function L names _
  | 5, rfl => exact caseReads_integer L names _
  | 6, rfl => exact caseReads_float L names _
  | 7, rfl => exact caseReads_array L names hread
  | 8, rfl => exact caseReads_placeholder L names _

/-- The case that the `switch` goes to reads the value of its kind. -/
theorem returns_kind {read : StubReader σ H (Option H)} (hread : DispatchReads L names read) (kind : ℕ)
    {base l : Memory Symbol H} (f : Frame Symbol H) (s : StubProcess σ H)
    (hcallback : CallbackArray names.length base) :
    Returns base (fun fuel => (stubProgram L names).runBlock fuel mallocFn (kindStart kind).1 f ⟨base ++ l, s⟩)
      (readKindOf L names read kind s >>= fun (v, s) => .ok (StubVal.ofValue v, s)) := by
  rcases Nat.lt_or_ge kind mallocCases.length with h | h
  · have hc := List.getElem?_eq_getElem h
    exact caseReads_kind L names hread hc mallocFn _ _ base l f s (blocksAt_mallocFn hc) hcallback
  · -- a kind that is not known is Undefined
    obtain ⟨d, rfl⟩ : ∃ d, kind = d + 9 := ⟨kind - 9, (Nat.sub_add_cancel h).symm⟩
    have hc : mallocCases[0]? = some (mallocUndefined.blocks "caf.malloc.undefine") := rfl
    have hstart : kindStart (d + 9) = kindStart 0 := rfl
    rw [hstart]
    exact caseReads_kind L names hread hc mallocFn _ _ base l f s (blocksAt_mallocFn hc) hcallback

/-- **A call of `caf_dispatch_malloc_value_of_type` reads a value.** -/
theorem reads_readStubValue (fuel : ℕ) : DispatchReads L names (readStubValue L names.length fuel) := by
  induction fuel with
  | zero => exact fun mem s _ => Settles.outOfFuel _
  | succ fuel ih =>
    intro mem s hcallback
    have hfn : (stubProgram L names).functions.lookup .dispatchMallocValueOfType = some mallocFn := by
      rw [mallocFn, ← build_createDispatchMallocValueOfType]
      rfl
    have hcase := returns_kind L names ih s.readKind.1.toNat
      (l := [kindObject s, .cell (getString (text "\ninput_kind = %x\n"))])
      (printfFrame (mallocEntryRegister + 5) (kindFrame mallocEntryRegister (.new []) mem s)
        ⟨mem ++ [kindObject s], s.readKind.2⟩) s.readKind.2 hcallback
    have hblock : mallocFn.blocks[0]? = some ⟨"caf.malloc.entry", mallocEntryInsts mallocEntryRegister⟩ := rfl
    have hentry : Returns mem (fun fuel => (stubProgram L names).runBlock fuel mallocFn 0 (.new []) ⟨mem, s⟩) _ :=
      Returns.runBlock hblock (Returns.of_eq hcase fun fuel => by
        rw [runInsts_kind, List.append_assoc]
        rfl)
    have hsettles := Returns.call hfn hentry
    rw [bind_assoc, ← readStubValue_succ] at hsettles
    exact hsettles

end Caf
