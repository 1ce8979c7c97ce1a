import Caf.Ir.Memory
import Mathlib.Tactic.Common

/-!
# Programs in an intermediate representation

A function is a list of blocks of instructions, and every instruction is a register. What is not a function of the
program is done by the host. A function that returns gives up what it has on its stack.

* `runBlock`: a run from the start of a block, with a bound on the number of jumps and calls.
* `Program.runInsts_call`: a call, and what comes after it.
-/

namespace Ir

inductive Operand (N : Type) where
  | reg (r : ℕ)
  | arg (i : ℕ)
  | i8 (b : UInt8)
  | i32 (n : Int32)
  | i64 (n : UInt64)
  | function (name : N)
  | global (id : ℕ)

/-- The comparisons of signed numbers. -/
inductive Comparison where
  | slt | sgt

inductive Op (N : Type) where
  | alloca (ty : Ty) (count : Operand N)
  /-- Room for a value of an array type. -/
  | allocaArray (ty : Ty) (count : ℕ)
  | store (value address : Operand N)
  /-- Store a constant array of bytes. -/
  | storeBytes (bytes : List UInt8) (address : Operand N)
  | load (ty : Ty) (address : Operand N)
  /-- A cast between types of addresses. -/
  | bitCast (value : Operand N)
  | ptrToInt (value : Operand N)
  | intToPtr (value : Operand N)
  /-- The address of the element `index` behind `base`. -/
  | gep (ty : Ty) (base index : Operand N)
  | add (lhs rhs : Operand N)
  | sub (lhs rhs : Operand N)
  | icmp (comparison : Comparison) (lhs rhs : Operand N)
  | call (callee : N) (args : List (Operand N))
  | br (target : ℕ)
  | condBr (condition : Operand N) (ifTrue ifFalse : ℕ)
  | switch (value : Operand N) (default : ℕ) (cases : List (Int32 × ℕ))
  | ret (value : Option (Operand N))

structure Inst (N : Type) where
  result : ℕ
  op : Op N

structure Block (N : Type) where
  name : String
  insts : List (Inst N)

structure Function (N : Type) where
  blocks : List (Block N)

/-- What a function that runs has: its arguments and registers. -/
structure Frame (N H : Type) where
  args : List (Val N H)
  regs : ℕ → Option (Val N H)

/-- The memory, and the state of the host. -/
structure Machine (N H X : Type) where
  memory : Memory N H
  host : X

/-- What a run that returns leaves. -/
abbrev Result (N H X : Type) := Val N H × Machine N H X

/-- How a block of a function is run. -/
abbrev Enter (N H X : Type) := Function N → ℕ → Frame N H → Machine N H X → Except Fault (Result N H X)

structure Program (N H X : Type) where
  functions : List (N × Function N)
  host : N → List (Val N H) → Machine N H X → Except Fault (Result N H X)

variable {N H X : Type}

namespace Frame

/-- A frame at the start of a function. -/
def new (args : List (Val N H)) : Frame N H := ⟨args, fun _ => none⟩

def set (f : Frame N H) (r : ℕ) (v : Val N H) : Frame N H := { f with regs := Function.update f.regs r (some v) }

/-- The value of an operand. -/
def eval (f : Frame N H) : Operand N → Except Fault (Val N H)
  | .reg r =>
    match f.regs r with
    | some v => .ok v
    | none => .error .undefined
  | .arg i =>
    match f.args[i]? with
    | some v => .ok v
    | none => .error .undefined
  | .i8 b => .ok (.i8 b)
  | .i32 n => .ok (.i32 n)
  | .i64 n => .ok (.i64 n)
  | .function name => .ok (.ptr (.function name))
  | .global id => .ok (.ptr (.object id 0))

/-- An operand that must be an address. -/
def address (f : Frame N H) (o : Operand N) : Except Fault (Ptr N H) := do
  match ← f.eval o with
  | .ptr p => return p
  | _ => .error .undefined

/-- An operand that must be a number. -/
def number (f : Frame N H) (o : Operand N) : Except Fault Int32 := do
  match ← f.eval o with
  | .i32 n => return n
  | _ => .error .undefined

end Frame

/-- The address of an element. -/
def Ptr.element (ty : Ty) (p : Ptr N H) (index : Int32) : Except Fault (Ptr N H) :=
  match p with
  | .object id offset => .ok (.object id (offset + ty.size * index.toInt))
  | _ => .error .undefined

def Comparison.holds : Comparison → Int32 → Int32 → Bool
  | slt, a, b => a < b
  | sgt, a, b => b < a

/-- `inttoptr` of a number: only `0` and the addresses are known to be the numbers of addresses. -/
def Val.toPtr : Val N H → Except Fault (Val N H)
  | .ptr p => .ok (.ptr p)
  | .i64 n => if n = 0 then .ok (.ptr .null) else .error .undefined
  | _ => .error .undefined

/-- An instruction that neither calls nor ends a block: its value, and the memory after it. -/
def Op.perform (f : Frame N H) (mem : Memory N H) : Op N → Except Fault (Val N H × Memory N H)
  | .alloca ty count => do
    let n ← f.number count
    return (.ptr (.object mem.length 0), mem ++ [.new ty n.toUInt32.toNat])
  | .allocaArray ty count => .ok (.ptr (.object mem.length 0), mem ++ [.new ty count])
  | .store value address => do
    let v ← f.eval value
    let p ← f.address address
    return (.undefined, ← mem.store p v)
  | .storeBytes bytes address => do
    let p ← f.address address
    return (.undefined, ← mem.write p bytes)
  | .load ty address => do
    let p ← f.address address
    return (← mem.load ty p, mem)
  | .bitCast value => do return (.ptr (← f.address value), mem)
  | .ptrToInt value => do return (.ptr (← f.address value), mem)
  | .intToPtr value => do
    let v ← f.eval value
    return (← v.toPtr, mem)
  | .gep ty base index => do
    let p ← f.address base
    let n ← f.number index
    return (.ptr (← p.element ty n), mem)
  | .add lhs rhs => do return (.i32 ((← f.number lhs) + (← f.number rhs)), mem)
  | .sub lhs rhs => do return (.i32 ((← f.number lhs) - (← f.number rhs)), mem)
  | .icmp comparison lhs rhs => do return (.bool (comparison.holds (← f.number lhs) (← f.number rhs)), mem)
  | _ => .error .undefined

namespace Program

variable [DecidableEq N]

/-- A call. -/
def call (P : Program N H X) (enter : Enter N H X) (callee : N) (args : List (Val N H)) (m : Machine N H X) :
    Except Fault (Result N H X) :=
  match P.functions.lookup callee with
  | some fn => do
    let (v, m') ← enter fn 0 (.new args) m
    return (v, { m' with memory := m'.memory.take m.memory.length })
  | none => P.host callee args m

/-- Run the instructions of a block. -/
def runInsts (P : Program N H X) (enter : Enter N H X) (fn : Function N) :
    List (Inst N) → Frame N H → Machine N H X → Except Fault (Result N H X)
  | [], _, _ => .error .undefined
  | inst :: rest, f, m =>
    match inst.op with
    | .br target => enter fn target f m
    | .condBr condition ifTrue ifFalse => do
      match ← f.eval condition with
      | .bool b => enter fn (if b then ifTrue else ifFalse) f m
      | _ => .error .undefined
    | .switch value default cases => do
      let n ← f.number value
      enter fn ((cases.lookup n).getD default) f m
    | .ret none => return (.undefined, m)
    | .ret (some value) => do return (← f.eval value, m)
    | .call callee args => do
      let vs ← args.mapM f.eval
      let (v, m) ← P.call enter callee vs m
      P.runInsts enter fn rest (f.set inst.result v) m
    | op => do
      let (v, mem) ← op.perform f m.memory
      P.runInsts enter fn rest (f.set inst.result v) { m with memory := mem }

/-- Run a function from the start of a block. -/
def runBlock (P : Program N H X) : ℕ → Function N → ℕ → Frame N H → Machine N H X → Except Fault (Result N H X)
  | 0, _, _, _, _ => .error .outOfFuel
  | fuel + 1, fn, b, f, m =>
    match fn.blocks[b]? with
    | some block => P.runInsts (P.runBlock fuel) fn block.insts f m
    | none => .error .undefined

end Program

/-- A call, and what comes after it. -/
theorem Program.runInsts_call [DecidableEq N] (P : Program N H X) (enter : Enter N H X) (fn : Function N) (r : ℕ)
    (callee : N) {args : List (Operand N)} (vs : List (Val N H)) (rest : List (Inst N)) {f : Frame N H}
    (m : Machine N H X) (hargs : args.mapM f.eval = .ok vs) :
    P.runInsts enter fn (⟨r, .call callee args⟩ :: rest) f m =
      P.call enter callee vs m >>= fun x => P.runInsts enter fn rest (f.set r x.1) x.2 := by
  simp only [Program.runInsts, hargs]
  rfl

/-! ## Blocks -/

/-- A function has the blocks `bs`, from the block `j` on. -/
def BlocksAt (fn : Function N) (j : ℕ) (bs : List (Block N)) : Prop := ∀ i < bs.length, fn.blocks[j + i]? = bs[i]?

namespace BlocksAt

variable {fn : Function N} {j i : ℕ} {bs cs : List (Block N)}

theorem get (h : BlocksAt fn j bs) {b : Block N} (hb : bs[i]? = some b) : fn.blocks[j + i]? = some b := by
  rw [h i (List.getElem?_eq_some_iff.mp hb).1, hb]

theorem append_left (h : BlocksAt fn j (bs ++ cs)) : BlocksAt fn j bs := by
  intro i hi
  rw [h i (by simp; omega), List.getElem?_append_left hi]

theorem append_right (h : BlocksAt fn j (bs ++ cs)) : BlocksAt fn (j + bs.length) cs := by
  intro i hi
  rw [Nat.add_assoc, h (bs.length + i) (by simp; omega), List.getElem?_append_right (by omega),
    Nat.add_sub_cancel_left]

end BlocksAt

/-! ## Operands -/

namespace Frame

variable (f : Frame N H)

@[simp] theorem eval_set_self (r : ℕ) (v : Val N H) : (f.set r v).eval (.reg r) = .ok v := by
  simp [eval, set]

@[simp] theorem eval_set_ne {r r' : ℕ} (h : r ≠ r') (v : Val N H) : (f.set r' v).eval (.reg r) = f.eval (.reg r) := by
  simp [eval, set, h]

/-- The value of one operand. -/
theorem mapM_eval {o : Operand N} {v : Val N H} (h : f.eval o = .ok v) : [o].mapM f.eval = .ok [v] := by
  rw [List.mapM_cons, List.mapM_nil, h]
  rfl

@[simp] theorem eval_set_arg (r i : ℕ) (v : Val N H) : (f.set r v).eval (.arg i) = f.eval (.arg i) := rfl

@[simp] theorem eval_i8 (b : UInt8) : f.eval (.i8 b) = .ok (.i8 b) := rfl

@[simp] theorem eval_i32 (n : Int32) : f.eval (.i32 n) = .ok (.i32 n) := rfl

@[simp] theorem eval_function (name : N) : f.eval (.function name) = .ok (.ptr (.function name)) := rfl

@[simp] theorem eval_global (id : ℕ) : f.eval (.global id) = .ok (.ptr (.object id 0)) := rfl

/-- The registers below `k` are the same. -/
def AgreeBelow (k : ℕ) (f g : Frame N H) : Prop := ∀ r < k, g.regs r = f.regs r

namespace AgreeBelow

variable {f} {g h : Frame N H} {k : ℕ}

theorem refl (k : ℕ) (f : Frame N H) : AgreeBelow k f f := fun _ _ => rfl

theorem trans (hfg : AgreeBelow k f g) (hgh : AgreeBelow k g h) : AgreeBelow k f h := fun r hr =>
  (hgh r hr).trans (hfg r hr)

theorem set (hfg : AgreeBelow k f g) {r : ℕ} (hr : k ≤ r) (v : Val N H) : AgreeBelow k f (g.set r v) := by
  intro r' hr'
  simp only [Frame.set, Function.update_of_ne (show r' ≠ r by omega)]
  exact hfg r' hr'

theorem eval_reg (hfg : AgreeBelow k f g) {r : ℕ} (hr : r < k) : g.eval (.reg r) = f.eval (.reg r) := by
  simp only [Frame.eval, hfg r hr]

end AgreeBelow

end Frame

end Ir
