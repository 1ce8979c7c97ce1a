import Mathlib.Algebra.Order.Round
import Mathlib.Data.Int.Log
import Mathlib.Data.Rat.Floor
import Mathlib.Tactic.Linarith
import Mathlib.Tactic.Positivity

/-!
# Rounding and closest numbers

Decimals with some significant digits, binary numbers with a fixed precision and a least exponent, and which of these is
the closest to a number.

* `rounded_nearest`: no decimal with as many digits is nearer than the rounded one.
* `gap_le`: how far such decimals are apart.
* `closest_of_closest`: if a binary number is the closest to a decimal, it is the closest to its own rounding.
-/

namespace Floating

/-! ## Closest numbers -/

section

variable {K : Type*} [Field K] [LinearOrder K] [IsStrictOrderedRing K] {G : Set K} {x d d' : K}

/-- Among the numbers of `G`, no other than `x` is as near to `d`. -/
def ClosestIn (G : Set K) (x d : K) : Prop := ∀ y ∈ G, y ≠ x → |d - x| < |d - y|

/-- A number that is no farther away stays nearer to `x` than to `y`, if a number behind `x` is as near to `x` as `y`
is. -/
theorem closer_of_closer {y : K} (hxy : x < y) (hle : |x - d| ≤ |x - d'|) (h : |d' - x| < |d' - y|)
    (hbehind : x < d → d' < x → ∃ z < x, x - z ≤ y - x ∧ |d' - x| < |d' - z|) : |d - x| < |d - y| := by
  by_contra hnot
  rw [not_lt] at hnot
  have hd : x < d := by
    by_contra hd
    rw [not_lt] at hd
    rw [abs_of_nonpos (by linarith), abs_of_nonpos (by linarith)] at hnot
    linarith
  -- `d` is beyond the middle of `x` and `y`
  have hhalf : y - x ≤ 2 * (d - x) := by
    rw [abs_of_pos (by linarith : 0 < d - x)] at hnot
    rcases le_total d y with hdy | hdy
    · rw [abs_of_nonpos (by linarith)] at hnot
      linarith
    · linarith
  rw [abs_sub_comm x d, abs_of_pos (by linarith : 0 < d - x)] at hle
  rcases le_or_gt x d' with hd' | hd'
  · rw [abs_sub_comm x d', abs_of_nonneg (by linarith : 0 ≤ d' - x)] at hle
    rw [abs_of_nonneg (by linarith : 0 ≤ d' - x), lt_abs] at h
    rcases h with h | h <;> linarith
  · obtain ⟨z, hzx, hz, hclose⟩ := hbehind hd hd'
    rw [abs_of_pos (by linarith : 0 < x - d')] at hle
    rw [abs_sub_comm d' x, abs_of_pos (by linarith : 0 < x - d'), lt_abs] at hclose
    rcases hclose with hclose | hclose <;> linarith

/-- **A nearer number** has the same closest one, if the next numbers of `G` are near enough on the other side. -/
theorem ClosestIn.transfer (h : ClosestIn G x d') (hle : |x - d| ≤ |x - d'|)
    (below : ∀ y ∈ G, x < y → ∃ z ∈ G, z < x ∧ x - z ≤ y - x)
    (above : ∀ y ∈ G, y < x → d < x → x < d' → ∃ z ∈ G, x < z ∧ z - x ≤ x - y) : ClosestIn G x d := by
  intro y hy hne
  have hclose := h y hy hne
  rcases lt_or_gt_of_ne hne with hlt | hlt
  · have hneg : ∀ a b : K, |-a - -b| = |a - b| := fun a b => by rw [← abs_neg, neg_sub_neg, neg_sub]
    rw [← hneg d x, ← hneg d y]
    have hle' : |-x - -d| ≤ |-x - -d'| := by rwa [hneg, hneg]
    have hclose' : |-d' - -x| < |-d' - -y| := by rwa [hneg, hneg]
    refine closer_of_closer (neg_lt_neg hlt) hle' hclose' fun hd hd' => ?_
    obtain ⟨z, hz, hxz, hzle⟩ := above y hy hlt (neg_lt_neg_iff.1 hd) (neg_lt_neg_iff.1 hd')
    exact ⟨-z, neg_lt_neg hxz, by linarith, by rw [hneg, hneg]; exact h z hz hxz.ne'⟩
  · refine closer_of_closer hlt hle hclose fun _ _ => ?_
    obtain ⟨z, hz, hzx, hzle⟩ := below y hy hlt
    exact ⟨z, hzx, hzle, h z hz hzx.ne⟩

end

/-! ## Decimals -/

variable {P : ℕ} {d d' x : ℚ} {X : ℤ}

/-- The nearest integer, and the even one of two that are as near. -/
def halfEven (x : ℚ) : ℤ :=
  if x - ⌊x⌋ < 1 / 2 then ⌊x⌋
  else if 1 / 2 < x - ⌊x⌋ then ⌊x⌋ + 1
  else if ⌊x⌋ % 2 = 0 then ⌊x⌋ else ⌊x⌋ + 1

theorem halfEven_nearest (x : ℚ) (m : ℤ) : |x - halfEven x| ≤ |x - m| := by
  have hfloor := Int.floor_le x
  have hlt := Int.lt_floor_add_one x
  have hm : (m : ℚ) ≤ ⌊x⌋ ∨ (⌊x⌋ : ℚ) + 1 ≤ m := by
    rcases le_or_gt m ⌊x⌋ with h | h
    · exact .inl (by exact_mod_cast h)
    · exact .inr (by exact_mod_cast h)
  have hdown : 1 / 2 ≤ x - ⌊x⌋ ∨ |x - ⌊x⌋| ≤ |x - m| := by
    by_contra hno
    rw [not_or, not_le, not_le, abs_of_nonneg (by linarith : 0 ≤ x - ⌊x⌋), abs_lt] at hno
    rcases hm with hm | hm <;> linarith [hno.2.1, hno.2.2]
  have hup : x - ⌊x⌋ < 1 / 2 ∨ |x - (⌊x⌋ + 1)| ≤ |x - m| := by
    by_contra hno
    rw [not_or, not_lt, not_le, abs_of_nonpos (by linarith : x - (⌊x⌋ + 1) ≤ 0), abs_lt] at hno
    rcases hm with hm | hm <;> linarith [hno.2.1, hno.2.2]
  have hmid : 1 / 2 < x - ⌊x⌋ ∨ |x - ⌊x⌋| ≤ |x - m| := by
    by_contra hno
    rw [not_or, not_lt, not_le, abs_of_nonneg (by linarith : 0 ≤ x - ⌊x⌋), abs_lt] at hno
    rcases hm with hm | hm <;> linarith [hno.2.1, hno.2.2]
  unfold halfEven
  split
  · rename_i h
    exact hdown.resolve_left (not_le.2 h)
  · rename_i h
    have hup' : |x - ((⌊x⌋ + 1 : ℤ) : ℚ)| ≤ |x - m| := by
      push_cast
      exact hup.resolve_left h
    split
    · exact hup'
    · rename_i h'
      split
      · exact hmid.resolve_left h'
      · exact hup'

theorem floor_le_halfEven (x : ℚ) : ⌊x⌋ ≤ halfEven x ∧ halfEven x ≤ ⌊x⌋ + 1 := by
  unfold halfEven
  split
  · omega
  · split
    · omega
    · split <;> omega

/-- A decimal with at most `P` significant digits. -/
def Significant (P : ℕ) (d : ℚ) : Prop := ∃ n k : ℤ, |n| < 10 ^ P ∧ d = n * 10 ^ k

theorem ten_zpow_pos (k : ℤ) : (0 : ℚ) < 10 ^ k := zpow_pos (by norm_num) k

/-- **The last digit** of a decimal is not far behind its first one. -/
theorem Significant.multiple (h : Significant P d) (hX : (10 : ℚ) ^ X ≤ d) : ∃ n : ℤ, d = n * 10 ^ (X - P + 1) := by
  obtain ⟨n, k, hn, rfl⟩ := h
  rcases le_or_gt (X - P + 1) k with hk | hk
  · obtain ⟨j, hj⟩ := Int.eq_ofNat_of_zero_le (sub_nonneg.2 hk)
    refine ⟨n * 10 ^ j, ?_⟩
    have hsplit : (10 : ℚ) ^ k = 10 ^ j * 10 ^ (X - P + 1) := by
      rw [← zpow_natCast, ← zpow_add₀ (by norm_num), ← hj]
      congr 1
      omega
    rw [hsplit]
    push_cast
    ring
  · -- too small otherwise
    exfalso
    have hlt : (n : ℚ) < 10 ^ P := by exact_mod_cast (abs_lt.1 hn).2
    have hpow : (10 : ℚ) ^ k ≤ 10 ^ (X - P) := zpow_le_zpow_right₀ (by norm_num) (by omega)
    have hX' : (10 : ℚ) ^ X = 10 ^ P * 10 ^ (X - P) := by
      rw [← zpow_natCast, ← zpow_add₀ (by norm_num)]
      congr 1
      omega
    have hpos : (0 : ℚ) < 10 ^ P := by positivity
    have hk' := ten_zpow_pos k
    nlinarith [ten_zpow_pos (X - P)]

/-- **Decimals are not close to each other.** -/
theorem gap_le (hP : 0 < P) (h : Significant P d) (h' : Significant P d') (hpos : 0 < d') (hlt : d < d') :
    d' ≤ 10 ^ (P + 1) * (d' - d) := by
  set X := Int.log 10 d' with hX
  have hle : (10 : ℚ) ^ X ≤ d' := Int.zpow_log_le_self (by norm_num) hpos
  have hlt' : d' < 10 ^ (X + 1) := Int.lt_zpow_succ_log_self (by norm_num) d'
  have hunit := ten_zpow_pos (X - P)
  have htop : (10 : ℚ) ^ (X + 1) = 10 ^ (P + 1) * 10 ^ (X - P) := by
    rw [← zpow_natCast, ← zpow_add₀ (by norm_num)]
    congr 1
    push_cast
    omega
  have hten : (10 : ℚ) ^ (X - P + 1) = 10 * 10 ^ (X - P) := by
    rw [zpow_add₀ (by norm_num), zpow_one]
    ring
  -- the decimals differ by a unit of `10 ^ (X - P)`, or by almost all of `d'`
  rcases le_or_gt ((10 : ℚ) ^ (X - 1)) d with hd | hd
  · obtain ⟨n', hn'⟩ := h'.multiple hle
    obtain ⟨n, hn⟩ := h.multiple hd
    have hsame : X - 1 - P + 1 = X - P := by omega
    rw [hsame] at hn
    rw [hten] at hn'
    have hdiff : d' - d = ((10 * n' - n : ℤ) : ℚ) * 10 ^ (X - P) := by
      rw [hn, hn']
      push_cast
      ring
    have hone : (1 : ℚ) ≤ ((10 * n' - n : ℤ) : ℚ) := by
      have hsub : 0 < d' - d := by linarith
      rw [hdiff] at hsub
      have hint : (0 : ℚ) < ((10 * n' - n : ℤ) : ℚ) := pos_of_mul_pos_left hsub hunit.le
      exact_mod_cast hint
    have hge : (10 : ℚ) ^ (X - P) ≤ d' - d := by
      rw [hdiff]
      nlinarith
    calc d' ≤ 10 ^ (P + 1) * 10 ^ (X - P) := by rw [← htop]; exact hlt'.le
      _ ≤ 10 ^ (P + 1) * (d' - d) := by gcongr
  · have hlow : (10 : ℚ) ^ X = 10 * 10 ^ (X - 1) := by
      rw [← zpow_one_add₀ (by norm_num)]
      congr 1
      omega
    have hhigh : (10 : ℚ) ^ (X + 1) = 100 * 10 ^ (X - 1) := by
      rw [zpow_add₀ (by norm_num), hlow, zpow_one]
      ring
    have hbig : (100 : ℚ) ≤ 10 ^ (P + 1) := by
      calc (100 : ℚ) = 10 ^ 2 := by norm_num
        _ ≤ 10 ^ (P + 1) := pow_le_pow_right₀ (by norm_num) (by omega)
    have hpos' := ten_zpow_pos (X - 1)
    nlinarith

/-! ## Rounding -/

/-- The digits and the exponent of a number that is not negative, rounded to `P` digits: the number is about
`D * 10 ^ (X - P + 1)`. -/
def scientific (P : ℕ) (x : ℚ) : ℕ × ℤ :=
  if x = 0 then (0, 0)
  else
    let X := Int.log 10 x
    let D := (halfEven (x * 10 ^ (P - 1 - X))).toNat
    if D = 10 ^ P then (10 ^ (P - 1), X + 1) else (D, X)

def rounded (P : ℕ) (x : ℚ) : ℚ := (scientific P x).1 * 10 ^ ((scientific P x).2 - P + 1)

/-- What the digits of a positive number are. -/
structure ScientificOK (P : ℕ) (x : ℚ) : Prop where
  digits : 10 ^ (P - 1) ≤ (scientific P x).1 ∧ (scientific P x).1 < 10 ^ P
  nearest : ∀ m : ℤ, |x - rounded P x| ≤ |x - m * 10 ^ (Int.log 10 x - P + 1)|

theorem scientific_ok (hP : 0 < P) (hx : 0 < x) : ScientificOK P x := by
  set X := Int.log 10 x with hX
  have hle : (10 : ℚ) ^ X ≤ x := Int.zpow_log_le_self (by norm_num) hx
  have hlt : x < 10 ^ (X + 1) := Int.lt_zpow_succ_log_self (by norm_num) x
  set u : ℚ := 10 ^ (X - P + 1) with hu
  have hupos : 0 < u := ten_zpow_pos _
  have hinv : (10 : ℚ) ^ ((P : ℤ) - 1 - X) * u = 1 := by
    rw [hu, ← zpow_add₀ (by norm_num)]
    have hzero : (P : ℤ) - 1 - X + (X - P + 1) = 0 := by omega
    rw [hzero, zpow_zero]
  have hlow : (10 : ℚ) ^ X = ((10 ^ (P - 1) : ℕ) : ℚ) * u := by
    rw [hu]
    push_cast
    rw [← zpow_natCast, ← zpow_add₀ (by norm_num)]
    congr 1
    omega
  have hhigh : (10 : ℚ) ^ (X + 1) = ((10 ^ P : ℕ) : ℚ) * u := by
    rw [hu]
    push_cast
    rw [← zpow_natCast, ← zpow_add₀ (by norm_num)]
    congr 1
    omega
  set y : ℚ := x * 10 ^ ((P : ℤ) - 1 - X) with hy
  have hxy : x = y * u := by
    rw [hy, mul_assoc, hinv, mul_one]
  have hylow : ((10 ^ (P - 1) : ℕ) : ℚ) ≤ y := by
    rw [hlow, hxy] at hle
    exact le_of_mul_le_mul_right hle hupos
  have hyhigh : y < ((10 ^ P : ℕ) : ℚ) := by
    rw [hhigh, hxy] at hlt
    exact lt_of_mul_lt_mul_right hlt hupos.le
  -- the digits, before a carry beyond the first one
  obtain ⟨hfloor, hceil⟩ := floor_le_halfEven y
  have hnlow : ((10 ^ (P - 1) : ℕ) : ℤ) ≤ halfEven y := (Int.le_floor.2 (by exact_mod_cast hylow)).trans hfloor
  have hnhigh : halfEven y ≤ ((10 ^ P : ℕ) : ℤ) := by
    have := Int.floor_lt.2 (show y < (((10 ^ P : ℕ) : ℤ) : ℚ) by exact_mod_cast hyhigh)
    omega
  obtain ⟨n, hn⟩ := Int.eq_ofNat_of_zero_le ((Int.natCast_nonneg _).trans hnlow)
  have hsci : scientific P x = if n = 10 ^ P then (10 ^ (P - 1), X + 1) else (n, X) := by
    unfold scientific
    rw [if_neg hx.ne']
    show (if (halfEven y).toNat = 10 ^ P then _ else _) = _
    rw [hn]
    rfl
  have hround : rounded P x = n * u := by
    unfold rounded
    rw [hsci]
    split
    · rename_i hcarry
      dsimp only
      rw [hcarry, ← hhigh]
      push_cast
      rw [← zpow_natCast, ← zpow_add₀ (by norm_num)]
      congr 1
      omega
    · rfl
  have hpow : 10 ^ (P - 1) < 10 ^ P := Nat.pow_lt_pow_right (by norm_num) (by omega)
  refine ⟨?_, fun m => ?_⟩
  · rw [hsci]
    split
    · exact ⟨le_refl _, hpow⟩
    · dsimp only
      omega
  · have hscale : ∀ k : ℤ, |x - k * u| = |y - k| * u := by
      intro k
      rw [hxy, ← sub_mul, abs_mul, abs_of_pos hupos]
    have hnear := halfEven_nearest y m
    rw [hn] at hnear
    rw [hround, hscale m, show (n : ℚ) = ((n : ℤ) : ℚ) by norm_cast, hscale n]
    exact mul_le_mul_of_nonneg_right hnear hupos.le

/-- **No decimal with as many digits is nearer** than the rounded number. -/
theorem rounded_nearest (hP : 0 < P) (hx : 0 ≤ x) (h : Significant P d) : |x - rounded P x| ≤ |x - d| := by
  rcases hx.eq_or_lt with rfl | hpos
  · have hzero : rounded P 0 = 0 := by
      unfold rounded scientific
      rw [if_pos rfl]
      norm_num
    rw [hzero, sub_zero, abs_zero]
    exact abs_nonneg _
  · have hok := (scientific_ok hP hpos).nearest
    have hle : (10 : ℚ) ^ Int.log 10 x ≤ x := Int.zpow_log_le_self (by norm_num) hpos
    rcases le_or_gt ((10 : ℚ) ^ Int.log 10 x) d with hd | hd
    · obtain ⟨n, hn⟩ := h.multiple hd
      rw [hn]
      exact hok n
    · -- the power of ten between `d` and `x`
      have hpow : (10 : ℚ) ^ Int.log 10 x = ((10 ^ (P - 1) : ℤ) : ℚ) * 10 ^ (Int.log 10 x - P + 1) := by
        push_cast
        rw [← zpow_natCast, ← zpow_add₀ (by norm_num)]
        congr 1
        omega
      calc |x - rounded P x| ≤ |x - 10 ^ Int.log 10 x| := hpow ▸ hok (10 ^ (P - 1))
        _ = x - 10 ^ Int.log 10 x := abs_of_nonneg (by linarith)
        _ ≤ x - d := by linarith
        _ ≤ |x - d| := le_abs_self _

theorem rounded_significant (hP : 0 < P) (hx : 0 ≤ x) : Significant P (rounded P x) := by
  have hlt : (scientific P x).1 < 10 ^ P := by
    rcases hx.eq_or_lt with rfl | hpos
    · unfold scientific
      rw [if_pos rfl]
      positivity
    · exact (scientific_ok hP hpos).digits.2
  refine ⟨(scientific P x).1, (scientific P x).2 - P + 1, ?_, ?_⟩
  · rw [abs_of_nonneg (by positivity)]
    exact_mod_cast hlt
  · unfold rounded
    push_cast
    rfl

/-! ## Binary numbers -/

section

variable {p : ℕ} {q : ℤ} {m n : ℕ}

/-- The number with the bits `m`: `p` bits behind the leading one, and before them the exponent, where the numbers
without a leading one are multiples of `2 ^ q`. -/
def value (p : ℕ) (q : ℤ) (m : ℕ) : ℚ :=
  if m / 2 ^ p = 0 then m * 2 ^ q else (2 ^ p + (m % 2 ^ p : ℕ)) * 2 ^ (q + (m / 2 ^ p : ℕ) - 1)

/-- How far the next number is. -/
def step (p : ℕ) (q : ℤ) (m : ℕ) : ℚ := 2 ^ (q + (max (m / 2 ^ p) 1 : ℕ) - 1)

theorem step_pos (p : ℕ) (q : ℤ) (m : ℕ) : 0 < step p q m := zpow_pos (by norm_num) _

/-- The number with the exponent `e` and the bits `f` behind the leading one. -/
theorem value_mul_add {e f : ℕ} (hf : f < 2 ^ p) (q : ℤ) : value p q (2 ^ p * e + f) =
    if e = 0 then (f : ℚ) * 2 ^ q else (2 ^ p + f) * 2 ^ (q + e - 1) := by
  have hpos : 0 < 2 ^ p := by positivity
  have hdiv : (2 ^ p * e + f) / 2 ^ p = e := by rw [Nat.mul_add_div hpos, Nat.div_eq_of_lt hf, Nat.add_zero]
  have hmod : (2 ^ p * e + f) % 2 ^ p = f := by rw [Nat.mul_add_mod, Nat.mod_eq_of_lt hf]
  unfold value
  rw [hdiv, hmod]
  split
  · rename_i hzero
    rw [hzero, Nat.mul_zero, Nat.zero_add]
  · rfl

theorem step_mul_add {e f : ℕ} (hf : f < 2 ^ p) (q : ℤ) :
    step p q (2 ^ p * e + f) = 2 ^ (q + (max e 1 : ℕ) - 1) := by
  have hpos : 0 < 2 ^ p := by positivity
  have hdiv : (2 ^ p * e + f) / 2 ^ p = e := by rw [Nat.mul_add_div hpos, Nat.div_eq_of_lt hf, Nat.add_zero]
  unfold step
  rw [hdiv]

/-- **The next number.** -/
theorem value_succ (p : ℕ) (q : ℤ) (m : ℕ) : value p q (m + 1) = value p q m + step p q m := by
  have hpos : 0 < 2 ^ p := by positivity
  obtain ⟨e, f, hf, rfl⟩ : ∃ e f, f < 2 ^ p ∧ m = 2 ^ p * e + f :=
    ⟨m / 2 ^ p, m % 2 ^ p, Nat.mod_lt m hpos, (Nat.div_add_mod m (2 ^ p)).symm⟩
  rw [value_mul_add hf, step_mul_add hf]
  rcases Nat.lt_or_ge (f + 1) (2 ^ p) with hlt | hge
  · -- the exponent stays
    rw [Nat.add_assoc, value_mul_add hlt]
    rcases Nat.eq_zero_or_pos e with rfl | he
    · simp
      ring
    · rw [if_neg he.ne', if_neg he.ne', Nat.max_eq_left he]
      push_cast
      ring
  · -- the bits are full, and the exponent grows
    have hnext : 2 ^ p * e + f + 1 = 2 ^ p * (e + 1) + 0 := by
      have hmul : 2 ^ p * (e + 1) = 2 ^ p * e + 2 ^ p := by ring
      omega
    have hcast : (f : ℚ) = 2 ^ p - 1 := by
      have hfull : ((f + 1 : ℕ) : ℚ) = ((2 ^ p : ℕ) : ℚ) := by
        congr 1
        omega
      push_cast at hfull
      linarith
    rw [hnext, value_mul_add hpos, if_neg (Nat.succ_ne_zero e), hcast]
    rcases Nat.eq_zero_or_pos e with rfl | he
    · simp
      ring
    · have htwo : (2 : ℚ) ^ (q + ((e + 1 : ℕ) : ℤ) - 1) = 2 * 2 ^ (q + (e : ℤ) - 1) := by
        rw [← zpow_one_add₀ (by norm_num)]
        congr 1
        push_cast
        omega
      rw [if_neg he.ne', Nat.max_eq_left he, htwo]
      push_cast
      ring

theorem value_zero (p : ℕ) (q : ℤ) : value p q 0 = 0 := by
  unfold value
  rw [Nat.zero_div, if_pos rfl]
  simp

theorem value_strictMono (p : ℕ) (q : ℤ) : StrictMono (value p q) := by
  refine strictMono_nat_of_lt_succ fun m => ?_
  rw [value_succ]
  linarith [step_pos p q m]

theorem step_mono (h : m ≤ n) : step p q m ≤ step p q n := by
  have hdiv : m / 2 ^ p ≤ n / 2 ^ p := Nat.div_le_div_right h
  refine zpow_le_zpow_right₀ (by norm_num) ?_
  have hmax : max (m / 2 ^ p) 1 ≤ max (n / 2 ^ p) 1 := max_le_max hdiv (le_refl 1)
  have hcast : ((max (m / 2 ^ p) 1 : ℕ) : ℤ) ≤ ((max (n / 2 ^ p) 1 : ℕ) : ℤ) := by exact_mod_cast hmax
  linarith

/-- The numbers with the least exponent are evenly spaced. -/
theorem step_small (h : m < 2 ^ p) : step p q m = 2 ^ q := by
  unfold step
  rw [Nat.div_eq_of_lt h]
  simp

/-- The others are close to each other. -/
theorem step_le (h : 2 ^ p ≤ m) : 2 ^ p * step p q m ≤ value p q m := by
  have hpos : 0 < 2 ^ p := by positivity
  have hdiv : 1 ≤ m / 2 ^ p := (Nat.one_le_div_iff hpos).2 h
  have hstep := step_pos p q m
  have hvalue : value p q m = (2 ^ p + (m % 2 ^ p : ℕ)) * step p q m := by
    unfold value step
    rw [if_neg (by omega), Nat.max_eq_left hdiv]
  rw [hvalue]
  have hmod : (0 : ℚ) ≤ (m % 2 ^ p : ℕ) := Nat.cast_nonneg _
  nlinarith

/-- The binary numbers of both signs, with bits up to `M`. -/
def numbers (p : ℕ) (q : ℤ) (M : ℕ) : Set ℚ := {y | ∃ m ≤ M, y = value p q m ∨ y = -value p q m}

end

/-- **The rounding of a number is the best decimal for it**: if the number is the closest one to any decimal with as
many digits, it is the closest to its rounding. -/
theorem closest_of_closest {P p M m : ℕ} {q : ℤ} {d : ℚ} (hP : 0 < P) (hp : 10 ^ (P + 1) < 2 ^ p) (hm : m < M)
    (h : Significant P d) (hclosest : ClosestIn (numbers p q M) (value p q m) d) :
    ClosestIn (numbers p q M) (value p q m) (rounded P (value p q m)) := by
  have hmono := value_strictMono p q
  have hnonneg : ∀ k, 0 ≤ value p q k := fun k => value_zero p q ▸ hmono.monotone (Nat.zero_le k)
  have hmem : ∀ k ≤ M, value p q k ∈ numbers p q M := fun k hk => ⟨k, hk, .inl rfl⟩
  have hround := rounded_nearest hP (hnonneg m) h
  refine hclosest.transfer hround ?_ ?_
  · rintro y ⟨k, hk, hy⟩ hxy
    rcases Nat.eq_zero_or_pos m with rfl | hpos
    · -- the numbers on both sides of zero
      rw [value_zero] at hxy ⊢
      refine ⟨-y, ⟨k, hk, ?_⟩, by linarith, by linarith⟩
      rcases hy with rfl | rfl
      · exact .inr rfl
      · exact .inl (neg_neg _)
    · obtain ⟨j, rfl⟩ : ∃ j, m = j + 1 := ⟨m - 1, by omega⟩
      refine ⟨value p q j, hmem j (by omega), hmono (Nat.lt_succ_self j), ?_⟩
      have hky : value p q (j + 1) < value p q k := by
        rcases hy with rfl | rfl
        · exact hxy
        · linarith [hnonneg k, hnonneg (j + 1)]
      have hkj : j + 2 ≤ k := hmono.lt_iff_lt.1 hky
      have hnext : value p q (j + 1) + step p q (j + 1) ≤ y := by
        rw [← value_succ]
        rcases hy with rfl | rfl
        · exact hmono.monotone hkj
        · linarith [hnonneg k, hnonneg (j + 1)]
      have hstep : step p q j ≤ step p q (j + 1) := step_mono (Nat.le_succ j)
      have hsucc := value_succ p q j
      linarith
  · rintro y ⟨k, hk, hy⟩ hyx hd hd'
    have hsucc := value_succ p q m
    have hxz : value p q m < value p q (m + 1) := hmono (Nat.lt_succ_self m)
    have hnot : ¬ 2 ^ p ≤ m := by
      -- such numbers are much closer to each other than decimals
      intro hle
      have hnear := hclosest _ (hmem (m + 1) hm) hxz.ne'
      have hstep := step_pos p q m
      have hclose : d - value p q m < step p q m / 2 := by
        rw [abs_of_pos (by linarith : 0 < d - value p q m), lt_abs] at hnear
        rcases hnear with hnear | hnear <;> linarith
      rw [abs_of_pos (by linarith), abs_sub_comm, abs_of_pos (by linarith)] at hround
      have hgap := gap_le hP (rounded_significant hP (hnonneg m)) h (by linarith [hnonneg m]) (hd.trans hd')
      have hdense := step_le (q := q) hle
      have hpow : (10 : ℚ) ^ (P + 1) < 2 ^ p := by exact_mod_cast hp
      have hsmall : d - rounded P (value p q m) < step p q m := by linarith
      have hten : (0 : ℚ) < 10 ^ (P + 1) := by positivity
      nlinarith
    refine ⟨value p q (m + 1), hmem _ hm, hxz, ?_⟩
    have hsmall := step_small (q := q) (not_le.1 hnot)
    rcases Nat.eq_zero_or_pos m with rfl | hpos
    · rw [value_zero] at hyx ⊢
      have hone : value p q 1 = 2 ^ q := by rw [value_succ, value_zero, hsmall, zero_add]
      rcases hy with rfl | rfl
      · linarith [hnonneg k]
      · have hk1 : 1 ≤ k := by
          by_contra hk0
          rw [Nat.lt_one_iff.1 (not_le.1 hk0), value_zero] at hyx
          linarith
        linarith [hmono.monotone hk1]
    · obtain ⟨j, rfl⟩ : ∃ j, m = j + 1 := ⟨m - 1, by omega⟩
      have hj := value_succ p q j
      rw [step_small (by omega : j < 2 ^ p)] at hj
      have hyj : y ≤ value p q j := by
        rcases hy with rfl | rfl
        · exact hmono.monotone (Nat.lt_succ_iff.1 (hmono.lt_iff_lt.1 hyx))
        · linarith [hnonneg k, hnonneg j]
      linarith

/-! ## Signs -/

/-- The closest number to the negation. -/
theorem ClosestIn.neg {p M : ℕ} {q : ℤ} {x d : ℚ} (h : ClosestIn (numbers p q M) x d) :
    ClosestIn (numbers p q M) (-x) (-d) := by
  rintro y ⟨m, hm, hy⟩ hne
  have hmem : -y ∈ numbers p q M := by
    refine ⟨m, hm, ?_⟩
    rcases hy with rfl | rfl
    · exact .inr rfl
    · exact .inl (neg_neg _)
  have hclose := h (-y) hmem fun heq => hne (by rw [← heq, neg_neg])
  have hx : |-d - -x| = |d - x| := by
    rw [← abs_neg]
    congr 1
    ring
  have hy' : |-d - y| = |d - -y| := by
    rw [← abs_neg]
    congr 1
    ring
  rwa [hx, hy']

theorem Significant.neg {P : ℕ} {d : ℚ} (h : Significant P d) : Significant P (-d) := by
  obtain ⟨n, k, hn, rfl⟩ := h
  exact ⟨-n, k, by rwa [abs_neg], by push_cast; ring⟩

end Floating
