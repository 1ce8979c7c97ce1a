import Caf.Proof.JavaScript
import Mathlib.Tactic.IntervalCases

/-!
# Escaped strings

`EscapeString` makes a literal that stands for the string, if no `char` of the string is negative.

* `escapeString_reads`: the literal is read back.
* `escapesExactly_iff`: when it stands for the string.
-/

namespace Caf

open JsLiteral

variable {s s' t : StdString} {ch : UInt8}

/-- A digit is read back. -/
theorem hexDigit_toHexDigit : ∀ v < 16, ∃ c, toHexDigit (v : ℕ) = .ok c ∧ hexDigit? c = some v := by
  intro v hv
  interval_cases v <;> exact ⟨_, rfl, rfl⟩

/-- A printable character without a special meaning stands for itself. -/
theorem isPlain_of_isprint (hprint : isprint ch = true) (hquote : ch ≠ 39) (hbackslash : ch ≠ 92) :
    isPlain ch = true := by
  simp only [isprint, Bool.and_eq_true, decide_eq_true_eq] at hprint
  obtain ⟨hmin, hmax⟩ := hprint
  have hascii : ch < 128 := UInt8.lt_trans hmax (by decide)
  have hline : ch ≠ 10 := by
    intro h
    subst h
    exact absurd hmin (by decide)
  have hreturn : ch ≠ 13 := by
    intro h
    subst h
    exact absurd hmin (by decide)
  simp [isPlain, hascii, hquote, hbackslash, hline, hreturn]

/-- **One character** is read back. -/
theorem escapeChar_reads (hch : ch < 128) : ∃ t, escapeChar ch = .ok t ∧
    ∀ rest, readBody (t ++ rest) = (readBody rest).map fun r => (ch.toUInt16 :: r.1, r.2) := by
  have hlt : ch.toNat < 128 := UInt8.lt_iff_toNat_lt.1 hch
  unfold escapeChar
  by_cases hprint : isprint ch = true
  · rw [if_pos hprint]
    by_cases hdouble : ch = 34
    · subst hdouble
      exact ⟨_, rfl, fun rest => readBody_escape rfl⟩
    by_cases hquote : ch = 39
    · subst hquote
      exact ⟨_, rfl, fun rest => readBody_escape rfl⟩
    by_cases hbackslash : ch = 92
    · subst hbackslash
      exact ⟨_, rfl, fun rest => readBody_escape rfl⟩
    refine ⟨[ch], ?_, fun rest => readBody_plain (isPlain_of_isprint hprint hquote hbackslash)⟩
    simp [hdouble, hquote, hbackslash]
  · rw [if_neg hprint]
    by_cases hline : ch = 10
    · subst hline
      exact ⟨_, rfl, fun rest => readBody_escape rfl⟩
    by_cases htab : ch = 9
    · subst htab
      exact ⟨_, rfl, fun rest => readBody_escape rfl⟩
    by_cases hreturn : ch = 13
    · subst hreturn
      exact ⟨_, rfl, fun rest => readBody_escape rfl⟩
    -- any other character is written as its number
    have hvalue : charValue ch = ch.toNat := if_pos hch
    obtain ⟨high, hhigh, hhigh'⟩ := hexDigit_toHexDigit (ch.toNat / 16) (by omega)
    obtain ⟨low, hlow, hlow'⟩ := hexDigit_toHexDigit (ch.toNat % 16) (Nat.mod_lt _ (by decide))
    refine ⟨text "\\x" ++ [high, low], ?_, fun rest => ?_⟩
    · have hdiv : (charValue ch).tdiv 16 = (ch.toNat / 16 : ℕ) := by
        rw [hvalue, Int.tdiv_eq_ediv_of_nonneg (by omega)]
        rfl
      have hmod : (charValue ch).tmod 16 = (ch.toNat % 16 : ℕ) := by
        rw [hvalue, Int.tmod_eq_emod_of_nonneg (by omega)]
        rfl
      rw [hdiv, hmod, hhigh, hlow]
      simp [hline, htab, hreturn, bind, Except.bind, pure, Except.pure]
    · have hunit : UInt16.ofNat (16 * (ch.toNat / 16) + ch.toNat % 16) = ch.toUInt16 := by
        rw [Nat.div_add_mod, UInt16.ofNat_uInt8ToNat]
      rw [← hunit]
      exact readBody_hex hhigh' hlow'

/-- **The literal is read back.** -/
theorem escapeString_reads (hs : ∀ ch ∈ s, ch < 128) : ∃ t, escapeString s = .ok t ∧
    ∀ rest, readBody (t ++ 39 :: rest) = some (s.map (·.toUInt16), rest) := by
  induction s with
  | nil => exact ⟨[], rfl, fun rest => rfl⟩
  | cons ch s ih =>
    obtain ⟨hch, hs⟩ := List.forall_mem_cons.1 hs
    obtain ⟨t, ht, hread⟩ := escapeChar_reads hch
    obtain ⟨t', ht', hread'⟩ := ih hs
    refine ⟨t ++ t', ?_, fun rest => ?_⟩
    · unfold escapeString
      rw [ht, ht']
      rfl
    · rw [List.append_assoc, hread, hread']
      rfl

/-- The value of the literal of a string. -/
theorem escapeString_value (hs : ∀ ch ∈ s, ch < 128) (ht : escapeString s = .ok t) :
    value? (text "'" ++ t ++ text "'") = some (s.map (·.toUInt16)) := by
  obtain ⟨t', ht', hread⟩ := escapeString_reads hs
  rw [ht] at ht'
  cases ht'
  have hbody : readBody (t ++ [39]) = some (s.map (·.toUInt16), []) := hread []
  show value? (39 :: (t ++ [39])) = _
  rw [value?, hbody]

/-- **When the literal stands for the string**: no `char` of the string is negative. -/
theorem escapesExactly_iff (s : StdString) : EscapesExactly s ↔ ∀ ch ∈ s, ch < 128 := by
  constructor
  · rintro ⟨t, ht, -⟩
    exact (escapeString_ok_iff s).1 ⟨t, ht⟩
  · intro hs
    obtain ⟨t, ht⟩ := (escapeString_ok_iff s).2 hs
    refine ⟨t, ht, escapeString_value hs ht, fun s' ht' => ?_⟩
    -- the text has one value
    have hs' : ∀ ch ∈ s', ch < 128 := (escapeString_ok_iff s').1 ⟨t, ht'⟩
    have hvalue := (escapeString_value hs' ht').symm.trans (escapeString_value hs ht)
    have hinjective : Function.Injective fun ch : UInt8 => ch.toUInt16 := by
      intro a b hab
      have htoNat := congrArg UInt16.toNat hab
      simp only [UInt8.toNat_toUInt16] at htoNat
      exact UInt8.toNat_inj.1 htoNat
    exact List.map_injective_iff.2 hinjective (Option.some.inj hvalue)

/-- A string with the first negative `char` cannot be escaped. -/
theorem high_byte_not_escaped : ¬ EscapesExactly [128] := by
  rintro ⟨t, ht, -⟩
  have hfail : escapeString [128] = .error .assertion := rfl
  rw [hfail] at ht
  cases ht

end Caf
