import Caf.Spec.FloatText

/-!
# Which float literals denote their numbers

A literal has six digits, so it denotes its number just if six digits are enough for it.

* `numeral_toRat`: the number of a literal.
* `denotesClosest_iff`: which doubles are the closest to their literals.
-/

namespace Caf

open Floating

namespace Double

variable {x y : Double} {d : ℚ}

theorem toNat_eq (x : Double) : x.toNat = x.magnitude + if x.signBit then 2 ^ 63 else 0 := by
  have hlt := x.toNat_lt
  unfold magnitude signBit
  by_cases h : 2 ^ 63 ≤ x.toNat
  · rw [if_pos (decide_eq_true h)]
    omega
  · rw [if_neg (by simpa using h)]
    omega

/-- A double has a sign and a magnitude. -/
theorem ext_bits (hsign : x.signBit = y.signBit) (hmag : x.magnitude = y.magnitude) : x = y := by
  apply UInt64.toNat_inj.1
  rw [toNat_eq x, toNat_eq y, hsign, hmag]

theorem exists_bits (s : Bool) {m : ℕ} (hm : m < 2 ^ 63) : ∃ x : Double, x.signBit = s ∧ x.magnitude = m := by
  have hbits : m + (if s then 2 ^ 63 else 0) < 2 ^ 64 := by
    split <;> omega
  refine ⟨UInt64.ofNat (m + if s then 2 ^ 63 else 0), ?_, ?_⟩
  · unfold signBit
    rw [UInt64.toNat_ofNat_of_lt' hbits]
    cases s
    · exact decide_eq_false (by simpa using hm)
    · exact decide_eq_true (by simp)
  · unfold magnitude
    rw [UInt64.toNat_ofNat_of_lt' hbits]
    cases s
    · exact Nat.mod_eq_of_lt hm
    · rw [if_pos rfl]
      omega

theorem isNaN_eq_false : x.isNaN = false ↔ x.magnitude ≤ 0x7ff0000000000000 := by
  unfold isNaN
  rw [decide_eq_false_iff_not, not_lt]

/-- The numbers of the doubles are the binary numbers. -/
theorem mem_numbers {r : ℚ} :
    r ∈ numbers 52 (-1074) 0x7ff0000000000000 ↔ ∃ y : Double, y.isNaN = false ∧ y.toRat = r := by
  constructor
  · rintro ⟨m, hm, hr⟩
    have hlt : m < 2 ^ 63 := by omega
    rcases hr with rfl | rfl
    · obtain ⟨y, hsign, hmag⟩ := exists_bits false hlt
      refine ⟨y, isNaN_eq_false.2 (hmag ▸ hm), ?_⟩
      unfold toRat
      rw [hsign, hmag]
      simp
    · obtain ⟨y, hsign, hmag⟩ := exists_bits true hlt
      refine ⟨y, isNaN_eq_false.2 (hmag ▸ hm), ?_⟩
      unfold toRat
      rw [hsign, hmag]
      simp
  · rintro ⟨y, hy, rfl⟩
    refine ⟨y.magnitude, isNaN_eq_false.1 hy, ?_⟩
    unfold toRat
    cases y.signBit
    · left
      simp
    · right
      simp

/-- **The closest double** is the closest of the binary numbers. -/
theorem closest_iff : x.Closest d ↔ ClosestIn (numbers 52 (-1074) 0x7ff0000000000000) x.toRat d := by
  constructor
  · intro h r hr hne
    obtain ⟨y, hy, rfl⟩ := mem_numbers.1 hr
    exact h y hy hne
  · intro h y hy hne
    exact h y.toRat (mem_numbers.2 ⟨y, hy, rfl⟩) hne

/-! ## The literal -/

/-- What is rounded: the number without its sign. -/
def absRat (x : Double) : ℚ := value 52 (-1074) x.magnitude

theorem absRat_nonneg (x : Double) : 0 ≤ x.absRat := by
  have hmono := (value_strictMono 52 (-1074)).monotone (Nat.zero_le x.magnitude)
  rwa [value_zero] at hmono

/-- The digits of a literal. -/
theorem scientific_cases (x : Double) :
    (scientific 6 x.absRat).1 = 0 ∧ (scientific 6 x.absRat).2 = 0 ∨
      10 ^ (6 - 1) ≤ (scientific 6 x.absRat).1 ∧ (scientific 6 x.absRat).1 < 10 ^ 6 := by
  rcases (absRat_nonneg x).eq_or_lt with hzero | hpos
  · left
    rw [← hzero]
    exact ⟨rfl, rfl⟩
  · exact .inr (scientific_ok (by norm_num) hpos).digits

theorem numeral_wellFormed (x : Double) : x.numeral.WellFormed :=
  Numeral.general_wellFormed _ (by norm_num) (scientific_cases x)

/-- **The number of a literal** is the number of the double, rounded. -/
theorem numeral_toRat (x : Double) :
    x.numeral.toRat = (if x.signBit then -1 else 1) * rounded 6 x.absRat := by
  have hlt : (scientific 6 x.absRat).1 < 10 ^ 6 := by
    rcases scientific_cases x with ⟨hzero, -⟩ | ⟨-, hlt⟩
    · rw [hzero]
      norm_num
    · exact hlt
  exact Numeral.general_toRat _ _ (by norm_num) hlt

theorem read_ostreamText (x : Double) : Numeral.read x.ostreamText = some x.numeral :=
  Numeral.read_text (numeral_wellFormed x)

/-- A literal has six digits. -/
theorem numeral_significant (x : Double) : Significant 6 x.numeral.toRat := by
  have hround := rounded_significant (P := 6) (by norm_num) (absRat_nonneg x)
  rw [numeral_toRat]
  cases x.signBit
  · simpa using hround
  · simpa using hround.neg

/-- **Six digits are enough** for the literal if they are enough at all. -/
theorem SixDigits.closest (h : x.SixDigits) (hx : x.IsFinite) : x.Closest x.numeral.toRat := by
  obtain ⟨d, hd, hclosest⟩ := h
  rw [closest_iff] at hclosest ⊢
  rw [numeral_toRat]
  have hbest : ∀ d, Significant 6 d → ClosestIn (numbers 52 (-1074) 0x7ff0000000000000) x.absRat d →
      ClosestIn (numbers 52 (-1074) 0x7ff0000000000000) x.absRat (rounded 6 x.absRat) := fun d hd =>
    closest_of_closest (by norm_num) (by norm_num) hx hd
  have hrat : x.toRat = (if x.signBit then -1 else 1) * x.absRat := rfl
  rw [hrat] at hclosest ⊢
  -- a negative number is the negative of a closest number
  cases hs : x.signBit
  · rw [hs] at hclosest
    simp only [Bool.false_eq_true, if_false, one_mul] at hclosest ⊢
    exact hbest d hd hclosest
  · rw [hs] at hclosest
    simp only [if_true, neg_one_mul] at hclosest ⊢
    have hneg := hclosest.neg
    rw [neg_neg] at hneg
    exact (hbest (-d) hd.neg hneg).neg

/-- Doubles with the same number and the same sign are the same. -/
theorem eq_of_toRat (hsign : x.signBit = y.signBit) (h : x.toRat = y.toRat) : x = y := by
  refine ext_bits hsign ((value_strictMono 52 (-1074)).injective ?_)
  unfold toRat at h
  rw [hsign] at h
  cases hs : y.signBit <;> simpa [hs] using h

end Double

/-! ## When a literal denotes its number -/

open Double

variable {store : CAFStore} {x : Double}

theorem floatLiteral_eq (h : x.IsFinite) : floatLiteral store x = .ok x.ostreamText := by
  unfold Double.IsFinite at h
  have hnan : x.isNaN = false := isNaN_eq_false.2 h.le
  have hinf : x.isInf = false := by
    unfold Double.isInf
    exact beq_false_of_ne h.ne
  show (if x.isNaN then _ else if x.isInf then _ else _) = _
  rw [hnan, hinf]
  rfl

/-- **A literal denotes its number** just if six digits are enough for it, and numbers for which they are enough have
different literals. -/
theorem denotesClosest_iff (hx : x.IsFinite) : (DenotesClosest store x ↔ x.SixDigits) ∧
    ∀ y : Double, y.IsFinite → x ≠ y → x.SixDigits → y.SixDigits → floatLiteral store x ≠ floatLiteral store y := by
  constructor
  · constructor
    · rintro ⟨t, n, ht, hn, hclosest⟩
      rw [floatLiteral_eq hx] at ht
      cases ht
      rw [read_ostreamText] at hn
      cases hn
      exact ⟨_, numeral_significant x, hclosest⟩
    · intro h
      exact ⟨_, _, floatLiteral_eq hx, read_ostreamText x, h.closest hx⟩
  · intro y hy hne hxs hys heq
    rw [floatLiteral_eq hx, floatLiteral_eq hy] at heq
    have hnum : x.numeral = y.numeral := by
      apply Option.some.inj
      rw [← read_ostreamText, ← read_ostreamText, Except.ok.inj heq]
    have hsign : x.signBit = y.signBit := by
      have hneg : ∀ z : Double, z.numeral.negative = z.signBit := fun z => Numeral.general_negative _ _ _ _
      rw [← hneg, ← hneg, hnum]
    by_cases hrat : x.toRat = y.toRat
    · exact hne (eq_of_toRat hsign hrat)
    · -- each would be closer to the literal than the other
      have hxc := hxs.closest hx y (isNaN_eq_false.2 (le_of_lt hy)) (Ne.symm hrat)
      have hyc := hys.closest hy x (isNaN_eq_false.2 (le_of_lt hx)) hrat
      rw [hnum] at hxc
      exact lt_asymm hxc hyc

/-- One: a digit is enough. -/
theorem one_denotesClosest : DenotesClosest .new 0x3ff0000000000000 ∧
    ∀ y : Double, y.IsFinite → 0x3ff0000000000000 ≠ y → y.SixDigits →
      floatLiteral .new 0x3ff0000000000000 ≠ floatLiteral .new y := by
  have hmag : (0x3ff0000000000000 : Double).magnitude = 0x3ff0000000000000 := by decide
  have hsign : (0x3ff0000000000000 : Double).signBit = false := by decide
  have hrat : (0x3ff0000000000000 : Double).toRat = 1 := by
    unfold toRat value
    rw [hsign, hmag]
    norm_num
  -- the decimal 1 is the double itself
  have hsix : Double.SixDigits 0x3ff0000000000000 := by
    refine ⟨1, ⟨1, 0, by norm_num, by norm_num⟩, fun y _ hy => ?_⟩
    rw [hrat] at hy ⊢
    rw [sub_self, abs_zero, abs_pos, sub_ne_zero]
    exact Ne.symm hy
  have hfinite : Double.IsFinite 0x3ff0000000000000 := by
    unfold Double.IsFinite
    decide
  obtain ⟨hdenotes, hother⟩ := denotesClosest_iff hfinite
  exact ⟨hdenotes.2 hsix, fun y hy hne => hother y hy hne hsix⟩

theorem rounded_million : rounded 6 1234567 = 1234570 := by
  have hlog : Int.log 10 (1234567 : ℚ) = 6 := by
    have hcast : ((1234567 : ℕ) : ℚ) = 1234567 := by norm_num
    have hnat : Nat.log 10 1234567 = 6 := Nat.log_eq_of_pow_le_of_lt_pow (by norm_num) (by norm_num)
    rw [← hcast, Int.log_natCast, hnat]
    rfl
  have heven : halfEven (1234567 * 10 ^ ((6 : ℕ) - 1 - 6 : ℤ)) = 123457 := by
    have hfloor : ⌊(1234567 * 10 ^ ((6 : ℕ) - 1 - 6 : ℤ) : ℚ)⌋ = 123456 := by
      rw [Int.floor_eq_iff]
      norm_num
    unfold halfEven
    rw [hfloor]
    norm_num
  have hsci : scientific 6 1234567 = (123457, 6) := by
    unfold scientific
    rw [if_neg (by norm_num), hlog]
    show (if (halfEven (1234567 * 10 ^ ((6 : ℕ) - 1 - 6 : ℤ))).toNat = 10 ^ 6 then _ else _) = _
    rw [heven]
    rfl
  unfold rounded
  rw [hsci]
  norm_num

/-- 1234567 is written as 1.23457e+06, which is 1234570. -/
theorem million_not_denoted : Double.IsFinite 0x4132d68700000000 ∧ ¬ DenotesClosest .new 0x4132d68700000000 := by
  have hx : Double.IsFinite 0x4132d68700000000 := by
    unfold Double.IsFinite
    decide
  refine ⟨hx, ?_⟩
  rintro ⟨t, n, ht, hn, hclosest⟩
  rw [floatLiteral_eq hx] at ht
  cases ht
  rw [read_ostreamText] at hn
  cases hn
  have hmag : (0x4132d68700000000 : Double).magnitude = 0x4132d68700000000 := by decide
  have hmag' : (0x4132d68a00000000 : Double).magnitude = 0x4132d68a00000000 := by decide
  have hsign : (0x4132d68700000000 : Double).signBit = false := by decide
  have hsign' : (0x4132d68a00000000 : Double).signBit = false := by decide
  have habs : (0x4132d68700000000 : Double).absRat = 1234567 := by
    unfold absRat value
    rw [hmag]
    norm_num
  have hrat : (0x4132d68700000000 : Double).toRat = 1234567 := by
    show (if _ then (-1 : ℚ) else 1) * absRat _ = _
    rw [hsign, habs]
    norm_num
  have hrat' : (0x4132d68a00000000 : Double).toRat = 1234570 := by
    unfold toRat value
    rw [hsign', hmag']
    norm_num
  have hd : (0x4132d68700000000 : Double).numeral.toRat = 1234570 := by
    rw [numeral_toRat, hsign, habs, rounded_million]
    norm_num
  have hcloser := hclosest 0x4132d68a00000000 (by decide) (by rw [hrat, hrat']; norm_num)
  rw [hd, hrat, hrat'] at hcloser
  norm_num at hcloser

end Caf
