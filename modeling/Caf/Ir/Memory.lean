import Mathlib.Logic.Function.Basic
import Caf.Bytes.LittleEndian

/-!
# Memory of a program in an intermediate representation

Memory is a list of objects: the globals, and what the functions that are running have on their stacks. An object holds
bytes, or words in which addresses can be stored. An address is an object with an offset in bytes, a function, or a
handle that the host gave out. Whatever is undefined is a `Fault.undefined`.

* `Object.store_new`, `Object.load_cell`: the bytes of a number.
* `Object.load_words`, `Object.storeWord_words`: the words of an array.
* `get_append`, `set_append`: the objects at the end.
-/

namespace Ir

open LittleEndian

/-- The types of the values that are stored and loaded. -/
inductive Ty where
  | i8 | i32 | i64 | double | pointer
  deriving DecidableEq

/-- The size in bytes. -/
def Ty.size : Ty → ℕ
  | i8 => 1
  | i32 => 4
  | i64 => 8
  | double => 8
  | pointer => 8

/-- Addresses are stored in words. -/
def Ty.isWord : Ty → Bool
  | i64 => true
  | pointer => true
  | _ => false

/-- An address. -/
inductive Ptr (N H : Type) where
  | null
  | object (id : ℕ) (offset : ℤ)
  | function (name : N)
  | handle (h : H)

/-- A value of a register. An address that is cast to a number remains an address. -/
inductive Val (N H : Type) where
  | undefined
  | bool (b : Bool)
  | i8 (b : UInt8)
  | i32 (n : Int32)
  | i64 (n : UInt64)
  | double (x : UInt64)
  | ptr (p : Ptr N H)

/-- Why a run does not return. -/
inductive Fault where
  /-- Undefined behaviour, or a function of the host that does not return. -/
  | undefined
  /-- The bound on the run was too small. -/
  | outOfFuel
  deriving DecidableEq

/-- What a function of the host gives back, if it returns. -/
def hostResult {α : Type} : Option α → Except Fault α
  | some a => .ok a
  | none => .error .undefined

inductive Object (N H : Type) where
  | bytes (size : ℕ) (data : ℕ → Option UInt8)
  | words (count : ℕ) (data : ℕ → Val N H)

abbrev Memory (N H : Type) := List (Object N H)

variable {N H : Type}

/-- A new object for `count` values, whose content is undefined. -/
def Object.new (ty : Ty) (count : ℕ) : Object N H :=
  if ty.isWord then .words count fun _ => .undefined else .bytes (count * ty.size) fun _ => none

/-- The number with the given bytes. -/
def Val.ofNat (n : ℕ) : Ty → Val N H
  | .i8 => .i8 (UInt8.ofNat n)
  | .i32 => .i32 (UInt32.ofNat n).toInt32
  | .i64 => .i64 (UInt64.ofNat n)
  | .double => .double (UInt64.ofNat n)
  | .pointer => .undefined

/-- The value of some bytes, which is undefined when one of them is. -/
def Val.decode (ty : Ty) (data : ℕ → Option UInt8) : Val N H :=
  match (List.range ty.size).mapM data with
  | some bs => .ofNat (ofBytes bs) ty
  | none => .undefined

/-- The bytes of a number. -/
def Val.bytes : Val N H → Option (List UInt8)
  | .i8 b => some [b]
  | .i32 n => some (toBytes 4 n.toUInt32.toNat)
  | .double x => some (toBytes 8 x.toNat)
  | _ => none

/-- Exchange the bytes from `offset` on. -/
def writeBytes (data : ℕ → Option UInt8) (offset : ℕ) (bs : List UInt8) : ℕ → Option UInt8 := fun i =>
  if offset ≤ i then (bs[i - offset]?).or (data i) else data i

namespace Object

def load (ty : Ty) (offset : ℤ) : Object N H → Except Fault (Val N H)
  | bytes size data =>
    if 0 ≤ offset ∧ offset + ty.size ≤ size then .ok (.decode ty fun i => data (offset.toNat + i))
    else .error .undefined
  | words count data =>
    if ty.isWord ∧ 0 ≤ offset ∧ offset % 8 = 0 ∧ offset / 8 < count then .ok (data (offset / 8).toNat)
    else .error .undefined

def store (bs : List UInt8) (offset : ℤ) : Object N H → Except Fault (Object N H)
  | bytes size data =>
    if 0 ≤ offset ∧ offset + bs.length ≤ size then .ok (bytes size (writeBytes data offset.toNat bs))
    else .error .undefined
  | words _ _ => .error .undefined

def storeWord (v : Val N H) (offset : ℤ) : Object N H → Except Fault (Object N H)
  | words count data =>
    if 0 ≤ offset ∧ offset % 8 = 0 ∧ offset / 8 < count then
      .ok (words count (Function.update data (offset / 8).toNat v))
    else .error .undefined
  | bytes _ _ => .error .undefined

end Object

namespace Memory

/-- Change the object at an address. -/
def modify (mem : Memory N H) (p : Ptr N H) (f : ℤ → Object N H → Except Fault (Object N H)) :
    Except Fault (Memory N H) :=
  match p with
  | .object id offset =>
    match mem[id]? with
    | some o => (f offset o).map (mem.set id)
    | none => .error .undefined
  | _ => .error .undefined

def load (mem : Memory N H) (ty : Ty) (p : Ptr N H) : Except Fault (Val N H) :=
  match p with
  | .object id offset =>
    match mem[id]? with
    | some o => o.load ty offset
    | none => .error .undefined
  | _ => .error .undefined

/-- Store bytes. -/
def write (mem : Memory N H) (p : Ptr N H) (bs : List UInt8) : Except Fault (Memory N H) :=
  mem.modify p fun offset o => o.store bs offset

/-- Store a value: a number in its bytes, and an address in a word. -/
def store (mem : Memory N H) (p : Ptr N H) (v : Val N H) : Except Fault (Memory N H) :=
  match v.bytes with
  | some bs => mem.write p bs
  | none => mem.modify p fun offset o => o.storeWord v offset

/-- The words from an address on. -/
def readWords (mem : Memory N H) (p : Ptr N H) (count : ℕ) : Except Fault (List (Val N H)) :=
  match p with
  | .object id offset => (List.range count).mapM fun (i : ℕ) => mem.load .pointer (.object id (offset + 8 * (i : ℤ)))
  | _ => .error .undefined

/-- The bytes from an address to the end of its object. -/
def readBytes (mem : Memory N H) (p : Ptr N H) : Except Fault (List (Option UInt8)) :=
  match p with
  | .object id offset =>
    match mem[id]? with
    | some (.bytes size data) => .ok ((List.range (size - offset.toNat)).map fun i => data (offset.toNat + i))
    | _ => .error .undefined
  | _ => .error .undefined

end Memory

/-! ## The objects at the end -/

theorem get_append (mem l : Memory N H) (i : ℕ) : (mem ++ l)[mem.length + i]? = l[i]? := by
  rw [List.getElem?_append_right (by omega), Nat.add_sub_cancel_left]

theorem set_append (mem l : Memory N H) (i : ℕ) (o : Object N H) :
    (mem ++ l).set (mem.length + i) o = mem ++ l.set i o := by
  rw [List.set_append_right _ _ (by omega), Nat.add_sub_cancel_left]

theorem getElem?_append_of_some {α : Type} {mem : List α} {i : ℕ} {o : α} (h : mem[i]? = some o) (l : List α) :
    (mem ++ l)[i]? = some o := by
  rw [List.getElem?_append_left (List.getElem?_eq_some_iff.mp h).1, h]

theorem set_eq_self {mem : Memory N H} {i : ℕ} {o : Object N H} (h : mem[i]? = some o) : mem.set i o = mem := by
  obtain ⟨hi, rfl⟩ := List.getElem?_eq_some_iff.mp h
  exact List.set_getElem_self hi

/-! ## Bytes -/

/-- A sequence of steps that all return. -/
theorem mapM_eq_map {m : Type → Type} [Monad m] [LawfulMonad m] {α β : Type} {f : α → m β} {g : α → β} {l : List α}
    (h : ∀ a ∈ l, f a = pure (g a)) : l.mapM f = pure (l.map g) := by
  induction l with
  | nil => simp
  | cons a l ih => simp [h a, ih fun b hb => h b (by simp [hb])]

/-- An object that holds the given bytes. -/
def Object.cell (bs : List UInt8) : Object N H := .bytes bs.length fun i => bs[i]?

theorem writeBytes_nil (data : ℕ → Option UInt8) (i : ℕ) : writeBytes data i [] = data := by
  funext j
  simp [writeBytes]

theorem writeBytes_zero (data : ℕ → Option UInt8) (bs : List UInt8) (h : ∀ i, bs.length ≤ i → data i = none) :
    writeBytes data 0 bs = fun i => bs[i]? := by
  funext i
  by_cases hi : i < bs.length
  · simp [writeBytes, List.getElem?_eq_getElem hi]
  · simp [writeBytes, List.getElem?_eq_none (not_lt.mp hi), h i (not_lt.mp hi)]

/-- The bytes after the first are written behind it. -/
theorem writeBytes_cons (data : ℕ → Option UInt8) (i : ℕ) (b : UInt8) (bs : List UInt8) :
    writeBytes (writeBytes data i [b]) (i + 1) bs = writeBytes data i (b :: bs) := by
  funext j
  rcases lt_trichotomy j i with h | rfl | h
  · simp [writeBytes, show ¬ i ≤ j by omega, show ¬ i + 1 ≤ j by omega]
  · simp [writeBytes]
  · obtain ⟨d, rfl⟩ : ∃ d, j = i + 1 + d := ⟨j - (i + 1), by omega⟩
    simp [writeBytes, show i ≤ i + 1 + d by omega, show i + 1 + d - i = d + 1 by omega]

/-- A byte that is undefined when it is absent. -/
def Val.ofByte : Option UInt8 → Val N H
  | some b => .i8 b
  | none => .undefined

theorem Val.decode_i8 (data : ℕ → Option UInt8) : (Val.decode .i8 data : Val N H) = .ofByte (data 0) := by
  cases h : data 0 <;> simp [decode, Ty.size, List.range_succ, h, ofNat, ofBytes, ofByte]

namespace Object

/-- Bytes are stored in a new object. -/
theorem store_new {ty : Ty} {bs : List UInt8} (hty : ty.isWord = false) (hlen : bs.length = ty.size) :
    (new ty 1 : Object N H).store bs 0 = .ok (cell bs) := by
  simp [new, hty, store, cell, hlen, writeBytes_zero]

/-- Bytes are exchanged. -/
theorem store_cell {bs bs' : List UInt8} (h : bs'.length = bs.length) :
    (cell bs : Object N H).store bs' 0 = .ok (cell bs') := by
  simp only [store, cell, h, Int.zero_add, le_refl, and_self, if_true, Int.toNat_zero, Except.ok.injEq, bytes.injEq,
    true_and]
  exact writeBytes_zero _ _ fun i hi => List.getElem?_eq_none (by omega)

/-- **A number is read back from its bytes.** -/
theorem load_cell {ty : Ty} {bs : List UInt8} (hlen : bs.length = ty.size) :
    (cell bs : Object N H).load ty 0 = .ok (.ofNat (ofBytes bs) ty) := by
  have hread : (List.range ty.size).mapM (fun i => bs[i]?) = some bs := by
    rw [mapM_eq_map (g := fun i => bs[i]?.getD 0) fun i hi => ?_]
    · refine congrArg some (List.ext_getElem (by simp [hlen]) fun i h₁ h₂ => ?_)
      simp [List.getElem?_eq_getElem h₂]
    · have hlt : i < bs.length := by rw [hlen]; exact List.mem_range.mp hi
      simp [List.getElem?_eq_getElem hlt]
  simp [load, cell, hlen, Val.decode, hread]

/-- A constant is stored in its room. -/
theorem store_new_array (bs : List UInt8) : (new .i8 bs.length : Object N H).store bs 0 = .ok (cell bs) := by
  simp [new, Ty.isWord, Ty.size, store, cell, writeBytes_zero]

/-! ## Words -/

/-- A word is read. -/
theorem load_words {count i : ℕ} {data : ℕ → Val N H} (h : i < count) {ty : Ty} (hty : ty.isWord = true) :
    (words count data).load ty (8 * (i : ℤ)) = .ok (data i) := by
  rw [load, if_pos ⟨hty, by omega, by omega, by omega⟩, show (8 * (i : ℤ) / 8).toNat = i by omega]

/-- A word is exchanged. -/
theorem storeWord_words {count i : ℕ} {data : ℕ → Val N H} (h : i < count) (v : Val N H) :
    (words count data).storeWord v (8 * (i : ℤ)) = .ok (words count (Function.update data i v)) := by
  rw [storeWord, if_pos ⟨by omega, by omega, by omega⟩, show (8 * (i : ℤ) / 8).toNat = i by omega]

/-- A word that is not there is not read. -/
theorem load_words_outside {count : ℕ} {data : ℕ → Val N H} {i : ℤ} (h : ¬ (0 ≤ i ∧ i < count)) (ty : Ty) :
    (words count data).load ty (8 * i) = .error .undefined := by
  have hout : ¬ (ty.isWord ∧ 0 ≤ 8 * i ∧ 8 * i % 8 = 0 ∧ 8 * i / 8 < count) := by omega
  rw [load, if_neg hout]

end Object

/-- Exchange the words from `offset` on. -/
def writeWords (data : ℕ → Val N H) (offset : ℕ) (vs : List (Val N H)) : ℕ → Val N H := fun i =>
  if offset ≤ i then (vs[i - offset]?).getD (data i) else data i

theorem writeWords_nil (data : ℕ → Val N H) (i : ℕ) : writeWords data i [] = data := by
  funext j
  simp [writeWords]

/-- The words after the first are written behind it. -/
theorem writeWords_cons (data : ℕ → Val N H) (i : ℕ) (v : Val N H) (vs : List (Val N H)) :
    writeWords (Function.update data i v) (i + 1) vs = writeWords data i (v :: vs) := by
  funext j
  rcases lt_trichotomy j i with h | rfl | h
  · simp [writeWords, show ¬ i ≤ j by omega, show ¬ i + 1 ≤ j by omega, show j ≠ i by omega]
  · simp [writeWords]
  · obtain ⟨d, rfl⟩ : ∃ d, j = i + 1 + d := ⟨j - (i + 1), by omega⟩
    simp [writeWords, show i ≤ i + 1 + d by omega, show i + 1 + d - i = d + 1 by omega, show i + 1 + d ≠ i by omega]

/-- All words are exchanged. -/
theorem map_writeWords (data : ℕ → Val N H) (vs : List (Val N H)) :
    (List.range vs.length).map (writeWords data 0 vs) = vs := by
  refine List.ext_getElem (by simp) fun i h₁ h₂ => ?_
  simp [writeWords, List.getElem?_eq_getElem h₂]

namespace Memory

theorem load_last (mem : Memory N H) (o : Object N H) (ty : Ty) (offset : ℤ) :
    load (mem ++ [o]) ty (.object mem.length offset) = o.load ty offset := by
  simp [load]

theorem modify_last (mem : Memory N H) (o : Object N H) (offset : ℤ)
    (f : ℤ → Object N H → Except Fault (Object N H)) :
    modify (mem ++ [o]) (.object mem.length offset) f = (f offset o).map fun o' => mem ++ [o'] := by
  simp only [modify, List.getElem?_concat_length]
  congr 1
  funext o'
  simp

/-- The words from the start of an object. -/
theorem readWords_zero {mem : Memory N H} {id count n : ℕ} {data : ℕ → Val N H}
    (hmem : mem[id]? = some (.words count data)) (h : n ≤ count) :
    mem.readWords (.object id 0) n = .ok ((List.range n).map data) := by
  refine mapM_eq_map fun i hi => ?_
  have hlt : i < count := (List.mem_range.mp hi).trans_le h
  simp only [load, hmem, Int.zero_add]
  exact Object.load_words hlt rfl

end Memory

end Ir
