import Caf.Proof.StubMain

/-!
# The input of the generated program

Every byte is read once, and the nesting of the values is bounded by the length of the input. So every run of the
program comes to an end.

* `suffix_readStubValue`: what is left is a part of the input.
* `readTestCase_ne_outOfFuel`: the bound on the nesting is large enough.
* `runCafMain_eq`: **the generated program, run long enough, does what `readTestCase` says**.
-/

namespace Caf

open Ir LittleEndian

variable {σ H : Type} (L : V8Lib σ H)

/-! ## What is left of the input -/

theorem suffix_readInt (s : StubProcess σ H) : s.readInt.2.input <:+ s.input := List.drop_suffix 4 s.input

theorem suffix_scan (n : ℕ) (s : StubProcess σ H) : (s.scan n).2.input <:+ s.input := List.drop_suffix n s.input

section Host

variable {create : σ → Option (H × σ)} {showValue : H → σ → Option σ} {s : StubProcess σ H}

/-- V8 reads no input. -/
theorem input_give {x : H × StubProcess σ H} (h : s.give create = .ok x) : x.2.input = s.input := by
  obtain ⟨_, _, h⟩ := of_bind_ok h
  cases h
  rfl

theorem input_act {act : σ → Option σ} {s' : StubProcess σ H} (h : s.act act = .ok s') : s'.input = s.input := by
  obtain ⟨_, _, h⟩ := of_bind_ok h
  cases h
  rfl

theorem input_createValue {x : Option H × StubProcess σ H} (h : createValue create s = .ok x) :
    x.2.input = s.input := by
  obtain ⟨_, hgive, h⟩ := of_bind_ok h
  cases h
  exact input_give hgive

theorem input_createAndShow {x : Option H × StubProcess σ H} (h : createAndShow create showValue s = .ok x) :
    x.2.input = s.input := by
  obtain ⟨_, hgive, h⟩ := of_bind_ok h
  obtain ⟨_, hact, h⟩ := of_bind_ok h
  cases h
  exact (input_act hact).trans (input_give hgive)

theorem give_ne_outOfFuel : s.give create ≠ .error .outOfFuel :=
  bind_ne_error (hostResult_ne_outOfFuel _) fun _ _ => ok_ne_error

theorem act_ne_outOfFuel {act : σ → Option σ} : s.act act ≠ .error .outOfFuel :=
  bind_ne_error (hostResult_ne_outOfFuel _) fun _ _ => ok_ne_error

theorem createValue_ne_outOfFuel : createValue create s ≠ .error .outOfFuel :=
  bind_ne_error give_ne_outOfFuel fun _ _ => ok_ne_error

theorem createAndShow_ne_outOfFuel : createAndShow create showValue s ≠ .error .outOfFuel :=
  bind_ne_error give_ne_outOfFuel fun _ _ => bind_ne_error act_ne_outOfFuel fun _ _ => ok_ne_error

end Host

/-- A reader leaves a part of its input. -/
def LeavesSuffix {α : Type} (read : StubReader σ H α) : Prop :=
  ∀ s x s', read s = .ok (x, s') → s'.input <:+ s.input

theorem suffix_readString : LeavesSuffix (readString L) := by
  intro s v s' h
  simp only [readString] at h
  split at h
  · cases h
  · rw [input_createAndShow h]
    exact (suffix_scan _ _).trans (suffix_readInt s)

theorem suffix_readFunction (functions : ℕ) : LeavesSuffix (readFunction L functions) := by
  intro s v s' h
  simp only [readFunction] at h
  split at h
  · rw [input_createValue h]
    exact suffix_readInt s
  · cases h

theorem suffix_readValues {read : StubReader σ H (Option H)} (hread : LeavesSuffix read) (n : ℕ) :
    LeavesSuffix (readValues read n) := by
  induction n with
  | zero =>
    intro s vs s' h
    cases h
    exact List.suffix_refl _
  | succ n ih =>
    intro s vs s' h
    obtain ⟨x, hv, h⟩ := of_bind_ok h
    obtain ⟨y, hvs, h⟩ := of_bind_ok h
    cases h
    exact (ih x.2 y.1 y.2 hvs).trans (hread s x.1 x.2 hv)

theorem suffix_readArray {read : StubReader σ H (Option H)} (hread : LeavesSuffix read) :
    LeavesSuffix (readArray L read) := by
  intro s v s' h
  obtain ⟨x, hvs, h⟩ := of_bind_ok h
  obtain ⟨y, hgive, h⟩ := of_bind_ok h
  cases h
  have hsuffix := (suffix_readValues hread _ _ x.1 x.2 hvs).trans (suffix_readInt s)
  rwa [← input_give hgive] at hsuffix

/-- **What a value leaves** is a part of what follows its kind. -/
theorem suffix_readStubValue (functions : ℕ) : ∀ fuel (s : StubProcess σ H) v s',
    readStubValue L functions fuel s = .ok (v, s') → s'.input <:+ s.readKind.2.input := by
  intro fuel
  induction fuel with
  | zero => intro s v s' h; cases h
  | succ fuel ih =>
    have hread : LeavesSuffix (readStubValue L functions fuel) := fun s v s' h =>
      (ih s v s' h).trans (List.drop_suffix 1 s.input)
    intro s v s' h
    simp only [readStubValue] at h
    split at h
    · exact (input_createValue h).symm ▸ List.suffix_refl _
    · rw [input_createAndShow h]
      exact suffix_scan _ _
    · exact suffix_readString L _ _ _ h
    · exact suffix_readFunction L functions _ _ _ h
    · rw [input_createAndShow h]
      exact suffix_readInt _
    · rw [input_createAndShow h]
      exact List.drop_suffix 8 _
    · exact suffix_readArray L hread _ _ _ h
    · cases h; exact suffix_readInt _
    · exact (input_createValue h).symm ▸ List.suffix_refl _

theorem leavesSuffix_readInput (functions : ℕ) : LeavesSuffix (readInput L functions) := fun s v s' h =>
  (suffix_readStubValue L functions _ s v s' h).trans (List.drop_suffix 1 s.input)

/-! ## The nesting -/

/-- Values come one after another, so each has at most as much input as the first. -/
theorem readValues_ne_outOfFuel {read : StubReader σ H (Option H)} (hread : LeavesSuffix read)
    (n : ℕ) : ∀ (s : StubProcess σ H), (∀ s', s'.input.length ≤ s.input.length → read s' ≠ .error .outOfFuel) →
      readValues read n s ≠ .error .outOfFuel := by
  induction n with
  | zero => intro s _ h; cases h
  | succ n ih =>
    intro s hs
    refine bind_ne_error (hs s le_rfl) fun x hv => bind_ne_error ?_ fun y _ => ok_ne_error
    have hlen := (hread s x.1 x.2 hv).length_le
    exact ih x.2 fun s' hs' => hs s' (hs'.trans hlen)

/-- **An array lies behind its kind**, so the bound goes down with the input. -/
theorem readStubValue_ne_outOfFuel (functions : ℕ) : ∀ fuel (s : StubProcess σ H), s.input.length < fuel →
    readStubValue L functions fuel s ≠ .error .outOfFuel := by
  intro fuel
  induction fuel with
  | zero => intro s hs; omega
  | succ fuel ih =>
    have hread : LeavesSuffix (readStubValue L functions fuel) := fun s v s' h =>
      (suffix_readStubValue L functions fuel s v s' h).trans (List.drop_suffix 1 s.input)
    intro s hs h
    simp only [readStubValue] at h
    split at h
    · exact createValue_ne_outOfFuel h
    · exact createAndShow_ne_outOfFuel h
    · simp only [readString] at h
      split at h
      · cases h
      · exact createAndShow_ne_outOfFuel h
    · simp only [readFunction] at h
      split at h
      · exact createValue_ne_outOfFuel h
      · cases h
    · exact createAndShow_ne_outOfFuel h
    · exact createAndShow_ne_outOfFuel h
    · rename_i hkind
      have hne : s.input ≠ [] := by
        intro hempty
        simp [StubProcess.readKind, hempty] at hkind
      have hpos := List.length_pos_of_ne_nil hne
      have hlen : s.readKind.2.readInt.2.input.length < fuel := by
        simp [StubProcess.readKind, StubProcess.readInt, StubProcess.getchars]
        omega
      exact bind_ne_error (readValues_ne_outOfFuel hread _ _ fun s' hs' => ih s' (hs'.trans_lt hlen))
        (fun x _ => bind_ne_error give_ne_outOfFuel fun _ _ => ok_ne_error) h
    · cases h
    · exact createValue_ne_outOfFuel h

theorem readInput_ne_outOfFuel (functions : ℕ) (s : StubProcess σ H) : readInput L functions s ≠ .error .outOfFuel :=
  readStubValue_ne_outOfFuel L functions _ s (Nat.lt_succ_self _)

theorem callApi_ne_outOfFuel (index : ℕ) (thisArg : Option H) (args : List (Option H)) (n : Int32)
    (s : StubProcess σ H) : callApi L index thisArg args n s ≠ .error .outOfFuel :=
  bind_ne_error give_ne_outOfFuel fun _ _ => bind_ne_error act_ne_outOfFuel fun _ _ =>
    bind_ne_error give_ne_outOfFuel fun _ _ => ok_ne_error

theorem readCall_ne_outOfFuel (functions : ℕ) (id : Int32) (s : StubProcess σ H) :
    readCall L functions id s ≠ .error .outOfFuel := by
  rw [readCall]
  split
  · refine bind_ne_error (readInput_ne_outOfFuel L functions s) fun x _ => bind_ne_error ?_ fun y _ =>
      callApi_ne_outOfFuel L _ _ _ _ _
    exact readValues_ne_outOfFuel (leavesSuffix_readInput L functions) _ _ fun s' _ =>
      readInput_ne_outOfFuel L functions s'
  · exact ok_ne_error

theorem readCalls_ne_outOfFuel (functions n : ℕ) (s : StubProcess σ H) :
    readCalls L functions n s ≠ .error .outOfFuel := by
  induction n generalizing s with
  | zero => exact ok_ne_error
  | succ n ih => exact bind_ne_error (readCall_ne_outOfFuel L functions _ _) fun s' _ => ih s'

theorem readTestCase_ne_outOfFuel (functions : ℕ) (s : StubProcess σ H) :
    readTestCase L functions s ≠ .error .outOfFuel := readCalls_ne_outOfFuel L functions _ _

/-- **The generated program, run long enough, does what `readTestCase` says**, whatever its input is. -/
theorem runCafMain_eq {names : List StdString} (hnames : names.length < 2 ^ 31) (s : StubProcess σ H) :
    ∃ n, ∀ fuel, n ≤ fuel → runCafMain L names fuel s = readTestCase L names.length s :=
  settles_runCafMain L hnames s (readTestCase_ne_outOfFuel L names.length s)

/-- One call with an integer. -/
theorem runCafMain_eq_one_call : ∃ n, ∀ fuel, n ≤ fuel →
    runCafMain countingLib [text "f"] fuel ⟨[1, 0, 0, 0, 0, 0, 0, 0, 0, 1, 0, 0, 0, 5, 7, 0, 0, 0], [], 0⟩ =
      .ok ⟨[], [3], 4⟩ :=
  runCafMain_eq countingLib (by decide) ⟨[1, 0, 0, 0, 0, 0, 0, 0, 0, 1, 0, 0, 0, 5, 7, 0, 0, 0], [], 0⟩

end Caf
