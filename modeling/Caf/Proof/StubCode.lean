import Caf.Ir.Run
import Caf.Spec.StubReader

/-!
# Straight-line code of the generated functions

What the functions of `caflib.h` leave in memory, and runs of the short sequences that the generator emits again and
again.

* `inputChars_eq`, `scanChars_eq`: a buffer is filled.
* `runInsts_printf`, `runInsts_readInt`: output and a number from the input.
-/

namespace Caf

open Ir LittleEndian CAFCodeGeneratorForNodejs

variable {σ H : Type}

/-! ## Reading into a buffer -/

theorem StubProcess.getchars_succ (n : ℕ) (s : StubProcess σ H) :
    s.getchars (n + 1) = (s.getchar.1 :: (s.getchar.2.getchars n).1, (s.getchar.2.getchars n).2) := by
  cases hinput : s.input with
  | nil => simp [getchars, getchar, hinput, List.range_succ_eq_map, Function.comp_def]
  | cons b input => simp [getchars, getchar, hinput, List.range_succ_eq_map]

theorem length_getchars (n : ℕ) (s : StubProcess σ H) : (s.getchars n).1.length = n := by
  simp [StubProcess.getchars]

theorem write_byte {mem : Memory Symbol H} {id size i : ℕ} {data : ℕ → Option UInt8}
    (hmem : mem[id]? = some (.bytes size data)) (h : i < size) (b : UInt8) :
    mem.write (.object id i) [b] = .ok (mem.set id (.bytes size (writeBytes data i [b]))) := by
  have hstore : (Object.bytes size data : Object Symbol H).store [b] i = .ok (.bytes size (writeBytes data i [b])) := by
    rw [Object.store, if_pos (by simp; omega), Int.toNat_natCast]
  simp [Memory.write, Memory.modify, hmem, hstore, Except.map]

theorem element_i8 {i : ℕ} (h : i < 2 ^ 31) (id : ℕ) :
    (Ptr.object id 0 : Ptr Symbol H).element .i8 (Int32.ofNat i) = .ok (.object id i) := by
  have hi : (Int32.ofNat i).toInt = i := Int32.toInt_ofNat_of_lt h
  simp [Ptr.element, hi, Ty.size]

/-- **`getchar` fills a buffer.** -/
theorem inputChars_eq {id size n : ℕ} :
    ∀ {i : ℕ} {mem : Memory Symbol H} (data : ℕ → Option UInt8) (s : StubProcess σ H),
    mem[id]? = some (.bytes size data) → i + n ≤ size → i + n < 2 ^ 31 →
      inputChars (.object id 0) i n ⟨mem, s⟩ =
        .ok ⟨mem.set id (.bytes size (writeBytes data i (s.getchars n).1)), (s.getchars n).2⟩ := by
  induction n with
  | zero =>
    intro i mem data s hmem _ _
    simp [inputChars, StubProcess.getchars, writeBytes_nil, set_eq_self hmem]
  | succ n ih =>
    intro i mem data s hmem hsize hn
    have hid : id < mem.length := (List.getElem?_eq_some_iff.mp hmem).1
    have hnext := ih (i := i + 1) (writeBytes data i [s.getchar.1]) s.getchar.2
      (List.getElem?_set_self hid) (by omega) (by omega)
    rw [List.set_set, writeBytes_cons] at hnext
    rw [inputChars, StubProcess.getchars_succ]
    simp only [element_i8 (show i < 2 ^ 31 by omega), write_byte hmem (show i < size by omega), ok_bind, hnext]

/-- **`scanf` fills a buffer** as far as there is input. -/
theorem scanChars_eq {id size n : ℕ} :
    ∀ {i : ℕ} {mem : Memory Symbol H} (data : ℕ → Option UInt8) (s : StubProcess σ H),
    mem[id]? = some (.bytes size data) → i + n ≤ size → i + n < 2 ^ 31 →
      scanChars (.object id 0) i n ⟨mem, s⟩ =
        .ok ⟨mem.set id (.bytes size (writeBytes data i (s.input.take n))), (s.scan n).2⟩ := by
  induction n with
  | zero =>
    intro i mem data s hmem _ _
    simp [scanChars, StubProcess.scan, writeBytes_nil, set_eq_self hmem]
  | succ n ih =>
    intro i mem data s hmem hsize hn
    have hid : id < mem.length := (List.getElem?_eq_some_iff.mp hmem).1
    rw [scanChars]
    cases hinput : s.input with
    | nil =>
      have hnext := ih (i := i + 1) data s hmem (by omega) (by omega)
      simp only [hinput, List.take_nil, writeBytes_nil] at hnext ⊢
      rw [hnext]
      simp [StubProcess.scan, hinput]
    | cons b input =>
      have hnext := ih (i := i + 1) (writeBytes data i [b]) { s with input := input }
        (List.getElem?_set_self hid) (by omega) (by omega)
      rw [List.set_set, writeBytes_cons] at hnext
      simp only [element_i8 (show i < 2 ^ 31 by omega), write_byte hmem (show i < size by omega), ok_bind, hnext,
        List.take_succ_cons]
      simp [StubProcess.scan, hinput]

/-! ## Cells -/

/-- An object that holds a number. -/
def intCell (n : Int32) : Object Symbol H := .cell (toBytes 4 n.toUInt32.toNat)

theorem ofNat_toUInt32 (n : Int32) : (UInt32.ofNat n.toUInt32.toNat).toInt32 = n := by
  simp

/-- **The number is read back.** -/
theorem load_intCell (n : Int32) : (intCell n : Object Symbol H).load .i32 0 = .ok (.i32 n) := by
  have hlt : n.toUInt32.toNat < 256 ^ 4 := n.toUInt32.toNat_lt
  rw [intCell, Object.load_cell (length_toBytes 4 _), ofBytes_toBytes_of_lt hlt]
  simp [Val.ofNat]

theorem store_intCell (m n : Int32) :
    (intCell m : Object Symbol H).store (toBytes 4 n.toUInt32.toNat) 0 = .ok (intCell n) :=
  Object.store_cell (by simp)

theorem store_new_intCell (n : Int32) :
    (Object.new .i32 1 : Object Symbol H).store (toBytes 4 n.toUInt32.toNat) 0 = .ok (intCell n) :=
  Object.store_new rfl (length_toBytes 4 _)

/-- What `inputIntTo` leaves. -/
theorem cell_getchars (s : StubProcess σ H) : (.cell (s.getchars 4).1 : Object Symbol H) = intCell s.readInt.1 := by
  have hbytes := toBytes_ofBytes (s.getchars 4).1
  have hlt := ofBytes_lt (s.getchars 4).1
  rw [length_getchars] at hbytes hlt
  have hnat : s.readInt.1.toUInt32.toNat = ofBytes (s.getchars 4).1 := by
    simp only [StubProcess.readInt, UInt32.toUInt32_toInt32, UInt32.toNat_ofNat']
    exact Nat.mod_eq_of_lt hlt
  rw [intCell, hnat, hbytes]

/-! ## Sequences of instructions -/

section Code

variable (L : V8Lib σ H) (names : List StdString) (enter : Enter Symbol H (StubProcess σ H)) (fn : Ir.Function Symbol)

/-- What is not generated is called on the host. -/
theorem call_host {callee : Symbol} (hmain : callee ≠ .cafMain) (hapi : callee ≠ .dispatchApi)
    (hmalloc : callee ≠ .dispatchMallocValueOfType) (harr : callee ≠ .dispatchCallbackFuncArr)
    (args : List (StubVal H)) (m : StubMachine σ H) :
    (stubProgram L names).call enter callee args m = callHost L callee args m := by
  have hlookup : (generateStub names).lookup callee = none := by
    simp [generateStub, List.lookup_cons, beq_false_of_ne, hmain, hapi, hmalloc, harr]
  simp [Program.call, stubProgram, hlookup]

theorem set_last (mem : Memory Symbol H) (o o' : Object Symbol H) : (mem ++ [o]).set mem.length o' = mem ++ [o'] :=
  set_append mem [o] 0 o'

/-- `getchar` fills a new object. -/
theorem inputChars_last (ty : Ty) (hty : ty.isWord = false) (hsize : ty.size < 2 ^ 31) (mem : Memory Symbol H)
    (s : StubProcess σ H) :
    inputChars (.object mem.length 0) 0 ty.size ⟨mem ++ [.new ty 1], s⟩ =
      .ok ⟨mem ++ [.cell (s.getchars ty.size).1], (s.getchars ty.size).2⟩ := by
  have hget : (mem ++ [.new ty 1])[mem.length]? = some (.bytes ty.size fun _ => none) := by
    simp [Object.new, hty]
  rw [inputChars_eq _ s hget (by omega) (by omega), writeBytes_zero _ _ (by simp), set_last, Object.cell,
    length_getchars]

theorem inputIntTo_last (mem : Memory Symbol H) (s : StubProcess σ H) :
    callHost L .inputIntTo [.ptr (.object mem.length 0)] ⟨mem ++ [.new .i32 1], s⟩ =
      .ok (.undefined, ⟨mem ++ [intCell s.readInt.1], s.readInt.2⟩) := by
  have hchars := inputChars_last .i32 rfl (by decide) mem s
  rw [← cell_getchars]
  simp only [callHost, Ty.size] at hchars ⊢
  rw [hchars]
  rfl

theorem inputDoubleTo_last (mem : Memory Symbol H) (s : StubProcess σ H) :
    callHost L .inputDoubleTo [.ptr (.object mem.length 0)] ⟨mem ++ [.new .double 1], s⟩ =
      .ok (.undefined, ⟨mem ++ [.cell (s.getchars 8).1], (s.getchars 8).2⟩) := by
  have hchars := inputChars_last .double rfl (by decide) mem s
  simp only [callHost, Ty.size] at hchars ⊢
  rw [hchars]
  rfl

/-- `scanf` fills the last object. -/
theorem inputBytesTo_last (mem : Memory Symbol H) {count : ℕ} {data : ℕ → Option UInt8} (s : StubProcess σ H)
    {size : Int32} (h : size.toNatClampNeg ≤ count) :
    callHost L .inputBytesTo [.ptr (.object mem.length 0), .i32 size] ⟨mem ++ [.bytes count data], s⟩ =
      .ok (.undefined, ⟨mem ++ [.bytes count (writeBytes data 0 (s.input.take size.toNatClampNeg))],
        (s.scan size.toNatClampNeg).2⟩) := by
  have hget : (mem ++ [.bytes count data])[mem.length]? = some (.bytes count data) := by simp
  have hlt := size.toNatClampNeg_lt
  simp only [callHost, scanChars_eq _ s hget (show 0 + size.toNatClampNeg ≤ count by omega) (by omega), set_last]
  rfl

/-- Room for a value that `callee` reads from the input, and the value. -/
def readInsts (ty : Ty) (callee : Symbol) (k : ℕ) : List (Inst Symbol) :=
  [⟨k, .alloca ty (.i32 1)⟩, ⟨k + 1, .bitCast (.reg k)⟩, ⟨k + 2, .call callee [.reg (k + 1)]⟩,
    ⟨k + 3, .load ty (.reg k)⟩]

/-- The registers after a value has been read. -/
def readFrame (k : ℕ) (f : Frame Symbol H) (m : StubMachine σ H) (v : StubVal H) : Frame Symbol H :=
  (((f.set k (.ptr (.object m.memory.length 0))).set (k + 1) (.ptr (.object m.memory.length 0))).set (k + 2)
    .undefined).set (k + 3) v

/-- **A number is read from the input.** -/
theorem runInsts_readInt (k : ℕ) (rest : List (Inst Symbol)) (f : Frame Symbol H) (m : StubMachine σ H) :
    (stubProgram L names).runInsts enter fn (readInsts .i32 .inputIntTo k ++ rest) f m =
      (stubProgram L names).runInsts enter fn rest (readFrame k f m (.i32 m.host.readInt.1))
        ⟨m.memory ++ [intCell m.host.readInt.1], m.host.readInt.2⟩ := by
  have hone : (Int32.toUInt32 1).toNat = 1 := rfl
  simp [readInsts, readFrame, Program.runInsts, Op.perform, Frame.number, Frame.address, pure, Except.pure, ok_bind,
    call_host, inputIntTo_last, Memory.load_last, load_intCell, hone]

theorem runInsts_readDouble (k : ℕ) (rest : List (Inst Symbol)) (f : Frame Symbol H) (m : StubMachine σ H) :
    (stubProgram L names).runInsts enter fn (readInsts .double .inputDoubleTo k ++ rest) f m =
      (stubProgram L names).runInsts enter fn rest (readFrame k f m (.double m.host.readDouble.1))
        ⟨m.memory ++ [.cell (m.host.getchars 8).1], m.host.readDouble.2⟩ := by
  have hone : (Int32.toUInt32 1).toNat = 1 := rfl
  have hload : (Object.cell (m.host.getchars 8).1 : Object Symbol H).load .double 0 =
      .ok (.double m.host.readDouble.1) :=
    Object.load_cell (length_getchars 8 m.host)
  simp [readInsts, readFrame, Program.runInsts, Op.perform, Frame.number, Frame.address, pure, Except.pure, ok_bind,
    call_host, inputDoubleTo_last, Memory.load_last, hload, hone, StubProcess.readDouble]

/-- Room for bytes that are read from the input, and the first of them. -/
def scanInsts (k : ℕ) (count : LlvmValue) : List (Inst Symbol) :=
  [⟨k, .alloca .i8 count⟩, ⟨k + 1, .bitCast (.reg k)⟩, ⟨k + 2, .call .inputBytesTo [.reg (k + 1), count]⟩,
    ⟨k + 3, .load .i8 (.reg k)⟩]

/-- What `inputBytesTo` leaves. -/
def scanned (n : Int32) (s : StubProcess σ H) : Object Symbol H :=
  .bytes n.toUInt32.toNat fun i => (s.input.take n.toNatClampNeg)[i]?

theorem toNatClampNeg_le (n : Int32) : n.toNatClampNeg ≤ n.toUInt32.toNat := by
  by_cases h : 0 ≤ n
  · rw [Int32.toNat_toUInt32_of_le h]
  · have : n.toNatClampNeg = 0 :=
      Int32.toNatClampNeg_eq_zero_iff.mpr (by simpa using Int32.le_of_lt (Int32.not_le.mp h))
    omega

theorem toNat_toUInt32_pos {n : Int32} (hn : n ≠ 0) : 0 < n.toUInt32.toNat := by
  refine Nat.pos_of_ne_zero fun h => hn ?_
  have hzero : n.toUInt32 = 0 := UInt32.toNat_inj.mp h
  rw [← Int32.toInt32_toUInt32 n, hzero]
  rfl

/-- The first byte is loaded. -/
theorem load_scanned (n : Int32) (s : StubProcess σ H) :
    (scanned n s).load .i8 0 =
      if n = 0 then .error .undefined else .ok (.ofByte ((s.input.take n.toNatClampNeg)[0]?)) := by
  by_cases hn : n = 0
  · have hzero : (Int32.toUInt32 0).toNat = 0 := rfl
    simp [hn, scanned, Object.load, Ty.size, hzero]
  · have hpos := toNat_toUInt32_pos hn
    rw [scanned, Object.load, if_pos (by simp [Ty.size]; omega), if_neg hn, Val.decode_i8]
    rfl

/-- The bytes that `CreateString` is given. -/
theorem readBytes_scanned (mem l : Memory Symbol H) (n : Int32) (s : StubProcess σ H) :
    Memory.readBytes (mem ++ scanned n s :: l) (.object mem.length 0) =
      .ok ((s.scan n.toNatClampNeg).1 ++ List.replicate (n.toUInt32.toNat - n.toNatClampNeg) none) := by
  have hle := toNatClampNeg_le n
  have hget : (mem ++ scanned n s :: l)[mem.length]? = some (scanned n s) := get_append mem (scanned n s :: l) 0
  simp only [Memory.readBytes, hget]
  simp only [scanned, Int.toNat_zero, Nat.sub_zero, Nat.zero_add]
  refine congrArg Except.ok (List.ext_getElem (by simp [StubProcess.scan]; omega) fun i h₁ h₂ => ?_)
  by_cases hi : i < n.toNatClampNeg
  · rw [List.getElem_append_left (by simpa [StubProcess.scan] using hi)]
    simp [StubProcess.scan, List.getElem?_take, hi]
  · rw [List.getElem_append_right (by simpa [StubProcess.scan] using hi)]
    simp [List.getElem?_take, hi]

/-- **Bytes are read from the input**, and the first is loaded, which goes wrong when there is none. -/
theorem runInsts_scan (k : ℕ) {count : LlvmValue} {n : Int32} (rest : List (Inst Symbol)) (f : Frame Symbol H)
    (m : StubMachine σ H) (hcount : f.eval count = .ok (.i32 n)) (hk : ∀ r, count = .reg r → r < k) :
    (stubProgram L names).runInsts enter fn (scanInsts k count ++ rest) f m =
      if n = 0 then .error .undefined
      else (stubProgram L names).runInsts enter fn rest
        (readFrame k f m (.ofByte ((m.host.input.take n.toNatClampNeg)[0]?)))
        ⟨m.memory ++ [scanned n m.host], (m.host.scan n.toNatClampNeg).2⟩ := by
  have hcount' : ((f.set k (.ptr (.object m.memory.length 0))).set (k + 1) (.ptr (.object m.memory.length 0))).eval
      count = .ok (.i32 n) := by
    cases count with
    | reg r =>
      have hr := hk r rfl
      rw [Frame.eval_set_ne _ (by omega), Frame.eval_set_ne _ (by omega), hcount]
    | _ => exact hcount
  have hnew : (Object.new .i8 n.toUInt32.toNat : Object Symbol H) = .bytes n.toUInt32.toNat fun _ => none := by
    simp [Object.new, Ty.isWord, Ty.size]
  have hcall : callHost L .inputBytesTo [.ptr (.object m.memory.length 0), .i32 n]
      ⟨m.memory ++ [.new .i8 n.toUInt32.toNat], m.host⟩ =
        .ok (.undefined, ⟨m.memory ++ [scanned n m.host], (m.host.scan n.toNatClampNeg).2⟩) := by
    rw [hnew, inputBytesTo_last L _ _ (toNatClampNeg_le n), writeBytes_zero _ _ (by simp)]
    rfl
  simp [scanInsts, readFrame, Program.runInsts, Op.perform, Frame.number, Frame.address, pure, Except.pure, ok_bind,
    call_host, hcount, hcount', hcall, Memory.load_last, load_scanned]
  split <;> rfl

/-- What `CreatePrintfCall` inserts. -/
def printfInsts (k : ℕ) (format : StdString) (values : List LlvmValue) : List (Inst Symbol) :=
  [⟨k, .allocaArray .i8 (getString format).length⟩, ⟨k + 1, .storeBytes (getString format) (.reg k)⟩,
    ⟨k + 2, .bitCast (.reg k)⟩, ⟨k + 3, .call .printf (.reg (k + 2) :: values)⟩]

/-- The registers after `printfInsts`. -/
def printfFrame (k : ℕ) (f : Frame Symbol H) (m : StubMachine σ H) : Frame Symbol H :=
  (((f.set k (.ptr (.object m.memory.length 0))).set (k + 1) .undefined).set (k + 2)
    (.ptr (.object m.memory.length 0))).set (k + 3) .undefined

/-- **Something is printed.** -/
theorem runInsts_printf (k : ℕ) (format : StdString) {values : List LlvmValue} (rest : List (Inst Symbol))
    (f : Frame Symbol H) (m : StubMachine σ H) (hvalues : ∀ v ∈ values, ∃ r < k, v = .reg r ∧ ∃ x, f.eval v = .ok x) :
    (stubProgram L names).runInsts enter fn (printfInsts k format values ++ rest) f m =
      (stubProgram L names).runInsts enter fn rest (printfFrame k f m)
        ⟨m.memory ++ [.cell (getString format)], m.host⟩ := by
  set g := ((f.set k (.ptr (.object m.memory.length 0))).set (k + 1) .undefined).set (k + 2)
    (.ptr (.object m.memory.length 0)) with hg
  have hmapM : ∃ vs, values.mapM g.eval = .ok vs := by
    refine exists_mapM fun v hv => ?_
    obtain ⟨r, hr, rfl, x, hx⟩ := hvalues v hv
    refine ⟨x, ?_⟩
    rw [hg, Frame.eval_set_ne _ (by omega), Frame.eval_set_ne _ (by omega), Frame.eval_set_ne _ (by omega), hx]
  obtain ⟨vs, hvs⟩ := hmapM
  simp [printfInsts, printfFrame, Program.runInsts, Op.perform, Frame.address, pure, Except.pure, ok_bind, call_host,
    Memory.write, Memory.modify_last, Object.store_new_array, Except.map, ← hg, hvs, callHost]

/-- What has been read is printed, and is still in its register. -/
@[simp] theorem eval_printRead (k : ℕ) (f : Frame Symbol H) (m m' : StubMachine σ H) (v : StubVal H) :
    (printfFrame (k + 4) (readFrame k f m v) m').eval (.reg (k + 3)) = .ok v := by
  simp [readFrame, printfFrame]

theorem runInsts_printRead (k : ℕ) (format : StdString) (rest : List (Inst Symbol)) (f : Frame Symbol H)
    (m m' : StubMachine σ H) (v : StubVal H) :
    (stubProgram L names).runInsts enter fn (printfInsts (k + 4) format [.reg (k + 3)] ++ rest) (readFrame k f m v) m' =
      (stubProgram L names).runInsts enter fn rest (printfFrame (k + 4) (readFrame k f m v) m')
        ⟨m'.memory ++ [.cell (getString format)], m'.host⟩ :=
  runInsts_printf L names _ _ _ _ _ _ _ (by simp [readFrame])

end Code

end Caf
