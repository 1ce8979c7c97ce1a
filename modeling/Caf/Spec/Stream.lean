import Caf.Bytes.LittleEndian
import Caf.Spec.Value

/-!
# Streams

`MemoryInputStream::Read` copies what is left of the buffer when less is left than asked
for, so the rest of the local buffer it reads into keeps whatever it held: `junk` supplies
those bytes.

* `readInt_eq` and its companions: reading bytes that are there.
* `readEach_cons`: one more turn of a reading loop.
-/

namespace Caf

open LittleEndian

/-- `for (size_t i = 0; i < n; ++i) push(read());`, with the values that were read. -/
def readEach {S V : Type*} (read : S → Except Error (V × S)) (push : V → S → S) :
    ℕ → S → Except Error (List V × S)
  | 0, s => .ok ([], s)
  | n + 1, s =>
    match read s with
    | .error e => .error e
    | .ok (v, s) =>
      match readEach read push n (push v s) with
      | .error e => .error e
      | .ok (vs, s) => .ok (v :: vs, s)

/-- One turn, and then the others. -/
theorem readEach_succ {S V : Type*} {read : S → Except Error (V × S)} {push : V → S → S} {n : ℕ} {s : S} :
    readEach read push (n + 1) s =
      (read s >>= fun r => readEach read push n (push r.1 r.2) >>= fun r' => .ok (r.1 :: r'.1, r'.2)) := by
  rw [readEach]
  rcases read s with e | ⟨v, s₁⟩
  · rfl
  · simp only [bind, Except.bind]
    rcases readEach read push n (push v s₁) with e | ⟨vs, s₂⟩ <;> rfl

theorem readEach_cons {S V : Type*} {read : S → Except Error (V × S)} {push : V → S → S} {n : ℕ}
    {s s₁ s₂ : S} {v : V} {vs : List V} (h₁ : read s = .ok (v, s₁))
    (h₂ : readEach read push n (push v s₁) = .ok (vs, s₂)) :
    readEach read push (n + 1) s = .ok (v :: vs, s₂) := by
  simp only [readEach, h₁, h₂]

/-- One turn of the loop is one read. -/
theorem readEach_one {S V : Type*} {read : S → Except Error (V × S)} {s s' : S} {vs : List V}
    (h : readEach read (fun _ s => s) 1 s = .ok (vs, s')) : ∃ v, vs = [v] ∧ read s = .ok (v, s') := by
  unfold readEach at h
  split at h
  · cases h
  · rename_i v s₁ hr
    simp only [readEach, Except.ok.injEq, Prod.mk.injEq] at h
    obtain ⟨rfl, rfl⟩ := h
    exact ⟨v, rfl, hr⟩

/-- `MemoryInputStream`, with the bytes that uninitialised local buffers hold. -/
structure MemoryInputStream where
  data : List UInt8
  junk : ℕ → UInt8

namespace MemoryInputStream

/-- `Read` into a fresh local buffer of `size` bytes. -/
def read (s : MemoryInputStream) (size : ℕ) : List UInt8 × MemoryInputStream :=
  let missing := size - s.data.length
  (s.data.take size ++ (List.range missing).map s.junk,
    { data := s.data.drop size, junk := fun i => s.junk (i + missing) })

/-- `ReadInt<Size, T>` for an unsigned `T`. -/
def readInt (s : MemoryInputStream) (size : ℕ) : ℕ × MemoryInputStream :=
  let (data, s) := s.read size
  (ofBytes data, s)

/-- `ReadInt<4, int32_t>`. -/
def readInt32 (s : MemoryInputStream) : Int32 × MemoryInputStream :=
  let (n, s) := s.readInt 4
  ((UInt32.ofNat n).toInt32, s)

/-- `ReadFloat`. -/
def readFloat (s : MemoryInputStream) : Double × MemoryInputStream :=
  let (n, s) := s.readInt 8
  (UInt64.ofNat n, s)

/-- `ReadByte`. -/
def readByte (s : MemoryInputStream) : UInt8 × MemoryInputStream :=
  let (n, s) := s.readInt 1
  (UInt8.ofNat n, s)

/-- `for (size_t i = 0; i < len; ++i) s.push_back(static_cast<char>(_in.ReadByte()));` -/
def readBytes (s : MemoryInputStream) : ℕ → StdString × MemoryInputStream
  | 0 => ([], s)
  | len + 1 =>
    let (b, s) := s.readByte
    let (bs, s) := s.readBytes len
    (b :: bs, s)

variable {s : MemoryInputStream} {rest : List UInt8}

/-- The stream without its first bytes. -/
def after (s : MemoryInputStream) (rest : List UInt8) : MemoryInputStream := { s with data := rest }

@[simp] theorem after_data : (s.after rest).data = rest := rfl

@[simp] theorem after_after (rest' : List UInt8) : (s.after rest).after rest' = s.after rest' := rfl

theorem read_eq {bs : List UInt8} (h : s.data = bs ++ rest) : s.read bs.length = (bs, s.after rest) := by
  have hm : bs.length - (bs ++ rest).length = 0 := by rw [List.length_append]; omega
  simp only [read, hm, h, List.take_left, List.drop_left, List.range_zero, List.map_nil,
    List.append_nil, Nat.add_zero]
  rfl

theorem readInt_eq {w n : ℕ} (h : s.data = toBytes w n ++ rest) :
    s.readInt w = (n % 256 ^ w, s.after rest) := by
  have hr := read_eq h
  rw [length_toBytes] at hr
  simp only [readInt, hr, ofBytes_toBytes]

/-- A `u32` field that holds its number. -/
theorem readInt_four {n : ℕ} (h : s.data = toBytes 4 n ++ rest) (hn : n < 2 ^ 32) :
    s.readInt 4 = (n, s.after rest) := by
  rw [readInt_eq h, Nat.mod_eq_of_lt (show n < 256 ^ 4 from hn)]

theorem readByte_eq {b : UInt8} (h : s.data = b :: rest) : s.readByte = (b, s.after rest) := by
  have hr : s.read 1 = ([b], s.after rest) := read_eq (show s.data = [b] ++ rest from h)
  simp [readByte, readInt, hr, ofBytes]

/-- The kind byte of a value. -/
theorem readByte_kind {kind : ValueKind} (h : s.data = kind.toByte :: rest) :
    s.readByte = (kind.toByte, s.after rest) ∧ ValueKind.ofByte? kind.toByte = some kind :=
  ⟨readByte_eq h, ValueKind.ofByte?_toByte kind⟩

theorem readBytes_eq {bs : StdString} (h : s.data = bs ++ rest) :
    s.readBytes bs.length = (bs, s.after rest) := by
  induction bs generalizing s with
  | nil => simp only [List.nil_append] at h; subst h; rfl
  | cons b bs ih =>
    have h₁ := readByte_eq (show s.data = b :: (bs ++ rest) from h)
    simp only [List.length_cons, readBytes, h₁, ih (show (s.after (bs ++ rest)).data = bs ++ rest from rfl),
      after_after]

theorem readInt32_eq {i : Int32} (h : s.data = toBytes 4 i.toUInt32.toNat ++ rest) :
    s.readInt32 = (i, s.after rest) := by
  have hlt := i.toUInt32.toNat_lt
  simp only [readInt32, readInt_eq h, Nat.mod_eq_of_lt (show i.toUInt32.toNat < 256 ^ 4 from hlt),
    UInt32.ofNat_toNat, Int32.toInt32_toUInt32]

theorem readFloat_eq {x : Double} (h : s.data = toBytes 8 x.toNat ++ rest) :
    s.readFloat = (x, s.after rest) := by
  have hlt := x.toNat_lt
  simp only [readFloat, readInt_eq h, Nat.mod_eq_of_lt (show x.toNat < 256 ^ 8 from hlt),
    UInt64.ofNat_toNat]

/-- No read makes a stream longer, and none takes more than it asks for. -/
theorem read_length (s : MemoryInputStream) (size : ℕ) :
    (s.read size).2.data.length ≤ s.data.length ∧
      s.data.length ≤ (s.read size).2.data.length + size := by
  simp only [read, List.length_drop]
  omega

/-- A read fills its buffer. -/
theorem length_read (s : MemoryInputStream) (size : ℕ) : (s.read size).1.length = size := by
  simp only [read, List.length_append, List.length_take, List.length_map, List.length_range]
  omega

end MemoryInputStream

end Caf
