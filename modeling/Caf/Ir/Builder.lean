import Caf.Ir.Program

/-!
# Builders

A builder makes a function. It has the blocks so far, the block at whose end it inserts, and the number of the next
instruction.

* `BuilderState.emit`: instructions at the end of the block.
* `run_insert`, `run_createBlock`, `run_setInsertPoint`: what a builder does.
-/

namespace Ir

/-- A function under construction. -/
structure BuilderState (N : Type) where
  blocks : List (Block N)
  insertBlock : ℕ
  next : ℕ

abbrev Builder (N : Type) := StateM (BuilderState N)

variable {N : Type}

/-- Nothing has been built. -/
def BuilderState.new : BuilderState N := ⟨[], 0, 0⟩

namespace Builder

/-- The number of a new block. -/
def createBlock (name : String) : Builder N ℕ :=
  modifyGet fun s => (s.blocks.length, { s with blocks := s.blocks ++ [⟨name, []⟩] })

def setInsertPoint (block : ℕ) : Builder N Unit := modify fun s => { s with insertBlock := block }

/-- Insert an instruction. -/
def insert (op : Op N) : Builder N (Operand N) :=
  modifyGet fun s => (.reg s.next,
    { s with
      blocks := s.blocks.modify s.insertBlock fun b => { b with insts := b.insts ++ [⟨s.next, op⟩] }
      next := s.next + 1 })

/-- Build a function. -/
def build (b : Builder N Unit) : Function N := ⟨(b.run .new).2.blocks⟩

def createAlloca (ty : Ty) (count : Operand N) : Builder N (Operand N) := insert (.alloca ty count)

def createStore (value address : Operand N) : Builder N Unit := do discard (insert (.store value address))

def createLoad (ty : Ty) (address : Operand N) : Builder N (Operand N) := insert (.load ty address)

def createBitCast (value : Operand N) : Builder N (Operand N) := insert (.bitCast value)

def createPtrToInt (value : Operand N) : Builder N (Operand N) := insert (.ptrToInt value)

def createIntToPtr (value : Operand N) : Builder N (Operand N) := insert (.intToPtr value)

def createGEP (ty : Ty) (base index : Operand N) : Builder N (Operand N) := insert (.gep ty base index)

def createCall (callee : N) (args : List (Operand N)) : Builder N (Operand N) := insert (.call callee args)

def createBr (target : ℕ) : Builder N Unit := do discard (insert (.br target))

def createCondBr (condition : Operand N) (ifTrue ifFalse : ℕ) : Builder N Unit := do
  discard (insert (.condBr condition ifTrue ifFalse))

def createSwitch (value : Operand N) (default : ℕ) (cases : List (Int32 × ℕ)) : Builder N Unit := do
  discard (insert (.switch value default cases))

def createRet (value : Operand N) : Builder N Unit := do discard (insert (.ret (some value)))

def createRetVoid : Builder N Unit := do discard (insert (.ret none))

end Builder

/-! ## Runs of a builder -/

namespace BuilderState

/-- Instructions at the end of the block. -/
def emit (s : BuilderState N) (insts : List (Inst N)) : BuilderState N :=
  { s with
    blocks := s.blocks.modify s.insertBlock fun b => { b with insts := b.insts ++ insts }
    next := s.next + insts.length }

variable (s : BuilderState N) (is js : List (Inst N))

@[simp] theorem next_emit : (s.emit is).next = s.next + is.length := (rfl)

@[simp] theorem insertBlock_emit : (s.emit is).insertBlock = s.insertBlock := (rfl)

@[simp] theorem emit_emit : (s.emit is).emit js = s.emit (is ++ js) := by
  simp [emit, List.modify_modify_eq, Function.comp_def, Nat.add_assoc]

@[simp] theorem emit_nil : s.emit [] = s := by
  simp only [emit, List.append_nil, List.length_nil, Nat.add_zero]
  rw [show (fun b : Block N => ({ b with insts := b.insts } : Block N)) = id from rfl, List.modify_id]

@[simp] theorem length_blocks_emit : (s.emit is).blocks.length = s.blocks.length := by
  simp [emit]

end BuilderState

theorem modify_append {α : Type} (l r : List α) (i : ℕ) (f : α → α) :
    (l ++ r).modify (l.length + i) f = l ++ r.modify i f := by
  induction l with
  | nil => simp
  | cons a l ih => rw [List.length_cons, Nat.succ_add, List.cons_append, List.modify_succ_cons, ih, List.cons_append]

namespace BuilderState

/-- The blocks before are as they were. -/
@[simp] theorem emit_append (bs cs : List (Block N)) (i k : ℕ) (is : List (Inst N)) :
    (BuilderState.mk (bs ++ cs) (bs.length + i) k).emit is =
      ⟨bs ++ cs.modify i fun b => { b with insts := b.insts ++ is }, bs.length + i, k + is.length⟩ := by
  simp only [emit, modify_append]

@[simp] theorem emit_first (bs : List (Block N)) (b : Block N) (cs : List (Block N)) (k : ℕ) (is : List (Inst N)) :
    (BuilderState.mk (bs ++ b :: cs) bs.length k).emit is =
      ⟨bs ++ { b with insts := b.insts ++ is } :: cs, bs.length, k + is.length⟩ :=
  emit_append bs (b :: cs) 0 k is

@[simp] theorem emit_zero (b : Block N) (cs : List (Block N)) (k : ℕ) (is : List (Inst N)) :
    (BuilderState.mk (b :: cs) 0 k).emit is = ⟨{ b with insts := b.insts ++ is } :: cs, 0, k + is.length⟩ :=
  emit_append [] (b :: cs) 0 k is

@[simp] theorem emit_cons_first (a : Block N) (bs : List (Block N)) (b : Block N) (cs : List (Block N)) (k : ℕ)
    (is : List (Inst N)) :
    (BuilderState.mk (a :: (bs ++ b :: cs)) (bs.length + 1) k).emit is =
      ⟨a :: (bs ++ { b with insts := b.insts ++ is } :: cs), bs.length + 1, k + is.length⟩ :=
  emit_append (a :: bs) (b :: cs) 0 k is

@[simp] theorem emit_cons_second (a : Block N) (bs : List (Block N)) (b c : Block N) (cs : List (Block N)) (k : ℕ)
    (is : List (Inst N)) :
    (BuilderState.mk (a :: (bs ++ b :: c :: cs)) (bs.length + 1 + 1) k).emit is =
      ⟨a :: (bs ++ b :: { c with insts := c.insts ++ is } :: cs), bs.length + 1 + 1, k + is.length⟩ :=
  emit_append (a :: bs) (b :: c :: cs) 1 k is

end BuilderState

namespace Builder

variable (s : BuilderState N)

@[simp] theorem run_insert (op : Op N) : (insert op).run s = pure (.reg s.next, s.emit [⟨s.next, op⟩]) := (rfl)

@[simp] theorem run_discard_insert (op : Op N) :
    (discard (insert op)).run s = pure ((), s.emit [⟨s.next, op⟩]) := (rfl)

@[simp] theorem run_setInsertPoint (b : ℕ) : (setInsertPoint b).run s = pure ((), { s with insertBlock := b }) := (rfl)

@[simp] theorem run_createBlock (name : String) :
    (createBlock name).run s = pure (s.blocks.length, { s with blocks := s.blocks ++ [⟨name, []⟩] }) := (rfl)

end Builder

end Ir
