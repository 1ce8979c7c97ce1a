import Caf.Proof.Replay

/-!
# The endless stream

The deserializer reads the bytes that are there and then those of its local buffers, as if all of them were
in its local buffers. So two streams with the same content make no difference.

* `MemoryInputStream.read_flat`: one read.
* `deserialize_flat`: a test case.
-/

namespace Caf

open TestCaseDeserializer

namespace MemoryInputStream

/-- The bytes that are there, and then those of the local buffers. -/
def content (i : MemoryInputStream) (j : ℕ) : UInt8 := (i.data[j]?).getD (i.junk (j - i.data.length))

/-- The same stream, with all its bytes in the local buffers. -/
def flat (i : MemoryInputStream) : MemoryInputStream := ⟨[], i.content⟩

theorem read_flat (i : MemoryInputStream) (size : ℕ) :
    i.flat.read size = ((i.read size).1, (i.read size).2.flat) := by
  have hbytes : (i.flat.read size).1 = (i.read size).1 := by
    refine List.ext_getElem (by rw [length_read, length_read]) fun j hj hj' => ?_
    rw [length_read] at hj
    simp only [read, flat, List.take_nil, List.nil_append, List.getElem_map, List.getElem_range, content]
    rcases Nat.lt_or_ge j i.data.length with hlt | hge
    · rw [List.getElem_append_left (by rw [List.length_take]; omega), List.getElem_take,
        List.getElem?_eq_getElem hlt, Option.getD_some]
    · rw [List.getElem_append_right (by rw [List.length_take]; omega), List.getElem?_eq_none hge, Option.getD_none,
        List.getElem_map, List.getElem_range, List.length_take]
      congr 1
      omega
  have hrest : (i.flat.read size).2 = (i.read size).2.flat := by
    simp only [read, flat, List.drop_nil, List.length_nil, Nat.sub_zero, MemoryInputStream.mk.injEq, true_and]
    funext j
    simp only [content, List.getElem?_drop, List.length_drop, Nat.add_comm j]
    rcases Nat.lt_or_ge (size + j) i.data.length with hlt | hge
    · rw [List.getElem?_eq_getElem hlt]
      rfl
    · rw [List.getElem?_eq_none hge, Option.getD_none, Option.getD_none]
      congr 1
      omega
  exact Prod.ext hbytes hrest

theorem readInt_flat (i : MemoryInputStream) (size : ℕ) :
    i.flat.readInt size = ((i.readInt size).1, (i.readInt size).2.flat) := by
  simp only [readInt, read_flat]

theorem readByte_flat (i : MemoryInputStream) : i.flat.readByte = (i.readByte.1, i.readByte.2.flat) := by
  simp only [readByte, readInt_flat]

theorem readInt32_flat (i : MemoryInputStream) : i.flat.readInt32 = (i.readInt32.1, i.readInt32.2.flat) := by
  simp only [readInt32, readInt_flat]

theorem readFloat_flat (i : MemoryInputStream) : i.flat.readFloat = (i.readFloat.1, i.readFloat.2.flat) := by
  simp only [readFloat, readInt_flat]

theorem readBytes_flat (i : MemoryInputStream) (len : ℕ) :
    i.flat.readBytes len = ((i.readBytes len).1, (i.readBytes len).2.flat) := by
  induction len generalizing i with
  | zero => rfl
  | succ len ih => simp only [readBytes, readByte_flat, ih]

end MemoryInputStream

namespace TestCaseDeserializer

/-- The deserializer on the endless stream. -/
def flat (s : TestCaseDeserializer) : TestCaseDeserializer := s.withInput s.input.flat

/-- A result on the endless stream. -/
def flatResult {V : Type} (r : Except Error (V × TestCaseDeserializer)) : Except Error (V × TestCaseDeserializer) :=
  r.map fun q => (q.1, q.2.flat)

theorem readEach_flat {V : Type} {read : TestCaseDeserializer → Except Error (V × TestCaseDeserializer)}
    (push : V → TestCaseDeserializer → TestCaseDeserializer) (hread : ∀ s, read s.flat = flatResult (read s))
    (hpush : ∀ v s, push v s.flat = (push v s).flat) (k : ℕ) (s : TestCaseDeserializer) :
    readEach read push k s.flat = flatResult (readEach read push k s) := by
  induction k generalizing s with
  | zero => rfl
  | succ k ih =>
    rw [readEach_succ, readEach_succ, hread]
    rcases read s with e | ⟨v, s'⟩
    · rfl
    · simp only [flatResult, Except.map, bind, Except.bind, hpush, ih]
      rcases readEach read push k (push v s') with e | q <;> rfl

theorem deserializeValue_flat (fuel : ℕ) (s : TestCaseDeserializer) :
    deserializeValue fuel s.flat = flatResult (deserializeValue fuel s) := by
  induction fuel generalizing s with
  | zero => rfl
  | succ fuel ih =>
    have hinput : s.flat.input = s.input.flat := rfl
    rw [deserializeValue, deserializeValue, hinput, MemoryInputStream.readByte_flat]
    rcases s.input.readByte with ⟨kind, input⟩
    dsimp only
    rcases ValueKind.ofByte? kind with - | kind
    · rfl
    cases kind with
    | undefined => rfl
    | null => rfl
    | boolean => simp only [MemoryInputStream.readByte_flat]; rfl
    | string => simp only [MemoryInputStream.readInt_flat, MemoryInputStream.readBytes_flat]; rfl
    | function => simp only [MemoryInputStream.readInt_flat]; rfl
    | integer => simp only [MemoryInputStream.readInt32_flat]; rfl
    | float => simp only [MemoryInputStream.readFloat_flat]; rfl
    | array =>
      simp only [MemoryInputStream.readInt_flat]
      rcases input.readInt 4 with ⟨size, input⟩
      have heach := readEach_flat (pushElement s.pool.createArrayValue.1) ih (fun _ _ => rfl) size
        (s.inArray.withInput input)
      change (readEach (deserializeValue fuel) (pushElement s.pool.createArrayValue.1) size
        (s.inArray.withInput input).flat >>= fun q => .ok (s.pool.createArrayValue.1, q.2)) =
          flatResult (readEach (deserializeValue fuel) (pushElement s.pool.createArrayValue.1) size
            (s.inArray.withInput input) >>= fun q => .ok (s.pool.createArrayValue.1, q.2))
      rw [heach]
      rcases readEach (deserializeValue fuel) (pushElement s.pool.createArrayValue.1) size
        (s.inArray.withInput input) with e | q <;> rfl
    | placeholder =>
      simp only [MemoryInputStream.readInt_flat]
      rcases input.readInt 4 with ⟨index, input⟩
      have hcontext : s.flat.context = s.context := rfl
      simp only [hcontext]
      split
      · rcases s.context.getReturnValueIndex index with e | i <;> rfl
      · rcases s.context.getValue index with e | a <;> rfl

theorem deserializeFunctionCall_flat (fuel : ℕ) (s : TestCaseDeserializer) :
    deserializeFunctionCall fuel s.flat = flatResult (deserializeFunctionCall fuel s) := by
  have hinput : s.flat.input = s.input.flat := rfl
  rw [deserializeFunctionCall, deserializeFunctionCall, hinput, MemoryInputStream.readInt_flat]
  rcases s.input.readInt 4 with ⟨funcId, input⟩
  have hthis := deserializeValue_flat fuel (s.withInput input)
  change (deserializeValue fuel (s.withInput input).flat >>= _) =
    flatResult (deserializeValue fuel (s.withInput input) >>= _)
  rw [hthis]
  rcases deserializeValue fuel (s.withInput input) with e | ⟨v, s'⟩
  · rfl
  have hinput' : s'.flat.input = s'.input.flat := rfl
  simp only [flatResult, Except.map, bind, Except.bind, hinput', MemoryInputStream.readByte_flat,
    MemoryInputStream.readInt_flat]
  rcases s'.input.readByte with ⟨isCtor, input'⟩
  dsimp only
  rcases input'.readInt 4 with ⟨argsCount, input''⟩
  have hargs := readEach_flat (fun _ s => s) (deserializeValue_flat fuel) (fun _ _ => rfl) argsCount
    (s'.withInput input'')
  change (readEach (deserializeValue fuel) (fun _ s => s) argsCount (s'.withInput input'').flat >>= fun q =>
    .ok (FunctionCall.mk (UInt32.ofNat funcId) (some v) (isCtor != 0) q.1, q.2)) =
      flatResult (readEach (deserializeValue fuel) (fun _ s => s) argsCount (s'.withInput input'') >>= fun q =>
        .ok (FunctionCall.mk (UInt32.ofNat funcId) (some v) (isCtor != 0) q.1, q.2))
  rw [hargs]
  rcases readEach (deserializeValue fuel) (fun _ s => s) argsCount (s'.withInput input'') with e | q <;> rfl

theorem deserializeCalls_flat (fuel count j : ℕ) (s : TestCaseDeserializer) :
    deserializeCalls fuel count j s.flat = flatResult (deserializeCalls fuel count j s) := by
  induction count generalizing j s with
  | zero => rfl
  | succ count ih =>
    rw [deserializeCalls_succ, deserializeCalls_succ, deserializeFunctionCall_flat]
    rcases deserializeFunctionCall fuel s with e | ⟨call, s'⟩
    · rfl
    · have hrest := ih (j + 1) (s'.called j)
      change (deserializeCalls fuel count (j + 1) (s'.called j).flat).map _ =
        flatResult ((deserializeCalls fuel count (j + 1) (s'.called j)).map _)
      rw [hrest]
      rcases deserializeCalls fuel count (j + 1) (s'.called j) with e | q <;> rfl

/-- **The deserializer reads the endless stream.** -/
theorem deserialize_flat (fuel : ℕ) (i : MemoryInputStream) (pool : ObjectPool) :
    deserialize fuel (new i.flat pool) = flatResult (deserialize fuel (new i pool)) := by
  have hinput : ∀ i, (new i pool).input = i := fun _ => rfl
  rw [deserialize, deserialize, hinput, hinput, MemoryInputStream.readInt_flat]
  rcases i.readInt 4 with ⟨root, input⟩
  dsimp only
  rw [MemoryInputStream.readInt_flat]
  rcases input.readInt 4 with ⟨callsCount, input'⟩
  have hcalls := deserializeCalls_flat fuel callsCount 0 (new input' pool)
  change (deserializeCalls fuel callsCount 0 (new input' pool).flat >>= fun q => .ok (TestCase.mk root q.1, q.2)) =
    flatResult (deserializeCalls fuel callsCount 0 (new input' pool) >>= fun q => .ok (TestCase.mk root q.1, q.2))
  rw [hcalls]
  rcases deserializeCalls fuel callsCount 0 (new input' pool) with e | q <;> rfl

end TestCaseDeserializer

end Caf
