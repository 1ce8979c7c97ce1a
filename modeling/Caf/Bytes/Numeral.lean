import Mathlib.Algebra.Order.Field.Rat
import Mathlib.Data.List.DropRight
import Mathlib.Data.List.Induction
import Mathlib.Data.Nat.Log
import Mathlib.Tactic.FieldSimp
import Mathlib.Tactic.Ring

/-!
# Decimal numerals

The syntax of decimal literals, with a reader for it, and the layout of `%g`.

* `read_text`: the reader gets back what was written.
* `general_toRat`: the number that a laid out numeral stands for.
-/

/-- A sign, the digits before and behind the point, and the sign and the digits of an exponent, if there is one. -/
structure Numeral where
  negative : Bool
  int : List (Fin 10)
  frac : List (Fin 10)
  exp : Option (Bool × List (Fin 10))
  deriving DecidableEq

namespace Numeral

/-! ## Digits -/

/-- The number that some digits write. -/
def ofDigits (ds : List (Fin 10)) : ℕ := ds.foldl (fun n d => 10 * n + d.val) 0

theorem ofDigits_concat (ds : List (Fin 10)) (d : Fin 10) : ofDigits (ds ++ [d]) = 10 * ofDigits ds + d.val := by
  simp [ofDigits]

theorem ofDigits_append (ds es : List (Fin 10)) : ofDigits (ds ++ es) = ofDigits ds * 10 ^ es.length + ofDigits es := by
  induction es using List.reverseRecOn with
  | nil => simp [ofDigits]
  | append_singleton es e ih =>
    rw [← List.append_assoc, ofDigits_concat, ih, ofDigits_concat, List.length_append, List.length_singleton, pow_succ]
    ring

theorem ofDigits_zeros (k : ℕ) : ofDigits (List.replicate k 0) = 0 := by
  induction k with
  | zero => rfl
  | succ k ih =>
    rw [List.replicate_succ', ofDigits_concat, ih]
    rfl

/-- The last `k` digits of a number. -/
def digits : ℕ → ℕ → List (Fin 10)
  | 0, _ => []
  | k + 1, n => digits k (n / 10) ++ [Fin.ofNat 10 n]

@[simp] theorem length_digits (k n : ℕ) : (digits k n).length = k := by
  induction k generalizing n with
  | zero => rfl
  | succ k ih => simp [digits, ih]

theorem digits_zero (k : ℕ) : digits k 0 = List.replicate k 0 := by
  induction k with
  | zero => rfl
  | succ k ih =>
    rw [digits, Nat.zero_div, ih, List.replicate_succ']
    rfl

theorem ofDigits_digits {k n : ℕ} (h : n < 10 ^ k) : ofDigits (digits k n) = n := by
  induction k generalizing n with
  | zero =>
    have hn : n = 0 := by simpa using h
    rw [hn]
    rfl
  | succ k ih =>
    have hdiv : n / 10 < 10 ^ k := by
      rw [pow_succ] at h
      omega
    rw [digits, ofDigits_concat, ih hdiv, Fin.val_ofNat]
    omega

/-- A number that needs all of its digits starts with one that is not zero. -/
theorem head_digits {k n : ℕ} (h : 10 ^ k ≤ n) (hlt : n < 10 ^ (k + 1)) :
    ∃ d ds, digits (k + 1) n = d :: ds ∧ d ≠ 0 := by
  induction k generalizing n with
  | zero =>
    refine ⟨Fin.ofNat 10 n, [], rfl, ?_⟩
    intro hzero
    have hval := congrArg Fin.val hzero
    rw [Fin.val_ofNat] at hval
    simp at h hlt hval
    omega
  | succ k ih =>
    obtain ⟨d, ds, hds, hd⟩ := ih (n := n / 10) (by rw [pow_succ] at h; omega) (by rw [pow_succ] at hlt; omega)
    exact ⟨d, ds ++ [Fin.ofNat 10 n], by rw [digits, hds, List.cons_append], hd⟩

/-! ## Text -/

def digitText (d : Fin 10) : UInt8 := UInt8.ofNat (48 + d.val)

def digit? (b : UInt8) : Option (Fin 10) :=
  if h : 48 ≤ b.toNat ∧ b.toNat < 58 then some ⟨b.toNat - 48, by omega⟩ else none

theorem digit?_digitText (d : Fin 10) : digit? (digitText d) = some d := by
  revert d
  decide

/-- The digits at the start of a text, and the rest. -/
def readDigits : List UInt8 → List (Fin 10) × List UInt8
  | [] => ([], [])
  | b :: rest =>
    match digit? b with
    | none => ([], b :: rest)
    | some d => (d :: (readDigits rest).1, (readDigits rest).2)

theorem readDigits_append (ds : List (Fin 10)) {rest : List UInt8} (h : ∀ b ∈ rest.head?, digit? b = none) :
    readDigits (ds.map digitText ++ rest) = (ds, rest) := by
  induction ds with
  | nil =>
    cases rest with
    | nil => rfl
    | cons b rest =>
      show readDigits (b :: rest) = _
      unfold readDigits
      rw [h b rfl]
  | cons d ds ih =>
    rw [List.map_cons, List.cons_append]
    unfold readDigits
    rw [digit?_digitText, ih]

/-- `-`, or nothing. -/
def signText (negative : Bool) : List UInt8 := if negative then [45] else []

def fracText (frac : List (Fin 10)) : List UInt8 := if frac = [] then [] else 46 :: frac.map digitText

/-- An exponent is written with its sign. -/
def expText : Option (Bool × List (Fin 10)) → List UInt8
  | none => []
  | some (negative, ds) => 101 :: (if negative then 45 else 43) :: ds.map digitText

/-- How the numeral is written. -/
def text (n : Numeral) : List UInt8 :=
  signText n.negative ++ (n.int.map digitText ++ (fracText n.frac ++ expText n.exp))

/-- The number that the numeral stands for. -/
def toRat (n : Numeral) : ℚ :=
  (if n.negative then -1 else 1) * (ofDigits (n.int ++ n.frac) : ℚ) * 10 ^ (-(n.frac.length : ℤ)) *
    match n.exp with
    | none => 1
    | some (negative, ds) => 10 ^ (if negative then -(ofDigits ds : ℤ) else (ofDigits ds : ℤ))

/-! ## Reading -/

/-- A sign of its own, as the unary minus. -/
def readMinus : List UInt8 → Bool × List UInt8
  | [] => (false, [])
  | b :: rest => if b = 45 then (true, rest) else (false, b :: rest)

def readFrac : List UInt8 → List (Fin 10) × List UInt8
  | [] => ([], [])
  | b :: rest => if b = 46 then readDigits rest else ([], b :: rest)

/-- An exponent up to the end of the text. -/
def readExp : List UInt8 → Option (Option (Bool × List (Fin 10)))
  | [] => some none
  | b :: rest =>
    if b = 101 ∨ b = 69 then
      let (negative, rest) := match rest with
        | 43 :: rest => (false, rest)
        | rest => readMinus rest
      match readDigits rest with
      | (d :: ds, []) => some (some (negative, d :: ds))
      | _ => none
    else none

/-- Read a decimal literal, with a minus before it. There is a digit before or behind the point, and no zero before
other digits. -/
def read (s : List UInt8) : Option Numeral :=
  let (negative, s) := readMinus s
  let (int, s) := readDigits s
  let (frac, s) := readFrac s
  if int = [] ∧ frac = [] ∨ int.head? = some 0 ∧ 1 < int.length then none
  else (readExp s).map fun exp => ⟨negative, int, frac, exp⟩

/-- A numeral that can be written. -/
structure WellFormed (n : Numeral) : Prop where
  int : n.int ≠ []
  head : n.int.head? = some 0 → n.int = [0]
  exp : ∀ e ∈ n.exp, e.2 ≠ []

theorem head?_expText (exp : Option (Bool × List (Fin 10))) : ∀ b ∈ (expText exp).head?, digit? b = none := by
  intro b hb
  cases exp with
  | none => cases hb
  | some e =>
    cases hb
    decide

theorem head?_fracText (frac : List (Fin 10)) (exp : Option (Bool × List (Fin 10))) :
    ∀ b ∈ (fracText frac ++ expText exp).head?, digit? b = none := by
  unfold fracText
  split
  · exact head?_expText exp
  · intro b hb
    cases hb
    decide

theorem readFrac_text (frac : List (Fin 10)) (exp : Option (Bool × List (Fin 10))) :
    readFrac (fracText frac ++ expText exp) = (frac, expText exp) := by
  unfold fracText
  split
  · rename_i hfrac
    rw [hfrac, List.nil_append]
    cases exp <;> rfl
  · show readDigits (frac.map digitText ++ expText exp) = _
    exact readDigits_append frac (head?_expText exp)

theorem readExp_digits (negative : Bool) {s : List UInt8} {d : Fin 10} {ds : List (Fin 10)}
    (hread : readDigits s = (d :: ds, [])) :
    readExp (101 :: (if negative then 45 else 43) :: s) = some (some (negative, d :: ds)) := by
  cases negative <;> simp [readExp, readMinus, hread]

theorem readExp_text {exp : Option (Bool × List (Fin 10))} (h : ∀ e ∈ exp, e.2 ≠ []) :
    readExp (expText exp) = some exp := by
  cases exp with
  | none => rfl
  | some e =>
    obtain ⟨negative, ds⟩ := e
    obtain ⟨d, ds, rfl⟩ := List.exists_cons_of_ne_nil (h _ rfl)
    have hread : readDigits ((d :: ds).map digitText) = (d :: ds, []) := by
      have hnil : ∀ b ∈ ([] : List UInt8).head?, digit? b = none := fun b hb => by cases hb
      have hall := readDigits_append (d :: ds) hnil
      rwa [List.append_nil] at hall
    exact readExp_digits negative hread

theorem digitText_ne_minus (d : Fin 10) : digitText d ≠ 45 := by
  revert d
  decide

theorem readMinus_text (negative : Bool) {int : List (Fin 10)} (hint : int ≠ []) (rest : List UInt8) :
    readMinus (signText negative ++ (int.map digitText ++ rest)) = (negative, int.map digitText ++ rest) := by
  cases negative with
  | true => rfl
  | false =>
    obtain ⟨d, ds, rfl⟩ := List.exists_cons_of_ne_nil hint
    exact if_neg (digitText_ne_minus d)

/-- **The reader gets back the numeral that was written.** -/
theorem read_text {n : Numeral} (h : n.WellFormed) : read n.text = some n := by
  obtain ⟨negative, int, frac, exp⟩ := n
  have hnot : ¬ (int = [] ∧ frac = [] ∨ int.head? = some 0 ∧ 1 < int.length) := by
    rintro (⟨hint, -⟩ | ⟨hhead, hlen⟩)
    · exact h.int hint
    · have hzero : int = [0] := h.head hhead
      rw [hzero] at hlen
      simp at hlen
  unfold read text
  rw [readMinus_text negative h.int]
  dsimp only
  rw [readDigits_append int (head?_fracText frac exp)]
  dsimp only
  rw [readFrac_text, readExp_text h.exp]
  exact if_neg hnot

/-! ## Layout -/

/-- Leave out zeros at the end. -/
def trim (ds : List (Fin 10)) : List (Fin 10) := ds.rdropWhile (· = 0)

theorem trim_append (ds : List (Fin 10)) : ∃ k, ds = trim ds ++ List.replicate k 0 := by
  induction ds using List.reverseRecOn with
  | nil => exact ⟨0, rfl⟩
  | append_singleton ds d ih =>
    unfold trim at ih ⊢
    by_cases hd : d = 0
    · obtain ⟨k, hk⟩ := ih
      refine ⟨k + 1, ?_⟩
      rw [List.rdropWhile_concat_pos _ _ _ (by simpa using hd), List.replicate_succ', ← List.append_assoc, ← hk, hd]
    · refine ⟨0, ?_⟩
      rw [List.rdropWhile_concat_neg _ _ _ (by simpa using hd)]
      simp

/-- The zeros at the end of a fraction do not count. -/
theorem trim_toRat (int frac : List (Fin 10)) :
    (ofDigits (int ++ trim frac) : ℚ) * 10 ^ (-((trim frac).length : ℤ)) =
      (ofDigits (int ++ frac) : ℚ) * 10 ^ (-(frac.length : ℤ)) := by
  obtain ⟨k, hk⟩ := trim_append frac
  generalize trim frac = t at hk
  subst hk
  have hall : ofDigits (int ++ (t ++ List.replicate k 0)) = ofDigits (int ++ t) * 10 ^ k := by
    rw [← List.append_assoc, ofDigits_append, ofDigits_zeros, List.length_replicate, add_zero]
  have hten : (10 : ℚ) ^ k * 10 ^ (-(k : ℤ)) = 1 := by
    rw [zpow_neg, zpow_natCast]
    exact mul_inv_cancel₀ (pow_ne_zero k (by norm_num))
  rw [hall, List.length_append, List.length_replicate]
  push_cast
  rw [neg_add, zpow_add₀ (by norm_num), mul_assoc, mul_left_comm ((10 : ℚ) ^ k), hten, mul_one]

/-- The layout of `%g` for the digits of `D`, the first of which stands for a multiple of `10 ^ X`: fixed, or with an
exponent of at least two digits. -/
def general (precision : ℕ) (negative : Bool) (D : ℕ) (X : ℤ) : Numeral :=
  let ds := digits precision D
  if -4 ≤ X ∧ X < precision then
    if 0 ≤ X then ⟨negative, ds.take (X.toNat + 1), trim (ds.drop (X.toNat + 1)), none⟩
    else ⟨negative, [0], trim (List.replicate (-X - 1).toNat 0 ++ ds), none⟩
  else
    ⟨negative, ds.take 1, trim (ds.drop 1), some (X < 0, digits (max 2 (Nat.log 10 X.natAbs + 1)) X.natAbs)⟩

theorem general_negative (precision : ℕ) (negative : Bool) (D : ℕ) (X : ℤ) :
    (general precision negative D X).negative = negative := by
  unfold general
  extract_lets ds
  split
  · split <;> rfl
  · rfl

theorem toRat_none (negative : Bool) (int frac : List (Fin 10)) : toRat ⟨negative, int, frac, none⟩ =
    (if negative then -1 else 1) * ((ofDigits (int ++ frac) : ℚ) * 10 ^ (-(frac.length : ℤ))) := by
  unfold toRat
  ring

theorem toRat_some (negative : Bool) (int frac : List (Fin 10)) {sign : Bool} {ds : List (Fin 10)} {X : ℤ}
    (hX : (if sign then -(ofDigits ds : ℤ) else ofDigits ds) = X) : toRat ⟨negative, int, frac, some (sign, ds)⟩ =
      (if negative then -1 else 1) * ((ofDigits (int ++ frac) : ℚ) * 10 ^ (-(frac.length : ℤ)) * 10 ^ X) := by
  rw [← hX]
  unfold toRat
  ring

/-- A point behind the first `k` digits. -/
theorem cut_toRat {precision D k : ℕ} (hD : D < 10 ^ precision) (hk : k ≤ precision) :
    (ofDigits ((digits precision D).take k ++ trim ((digits precision D).drop k)) : ℚ) *
      10 ^ (-((trim ((digits precision D).drop k)).length : ℤ)) = D * 10 ^ ((k : ℤ) - precision) := by
  rw [trim_toRat, List.take_append_drop, List.length_drop, ofDigits_digits hD, length_digits, Nat.cast_sub hk, neg_sub]

/-- The exponent has as many digits as it needs. -/
theorem ofDigits_exp (X : ℤ) : ofDigits (digits (max 2 (Nat.log 10 X.natAbs + 1)) X.natAbs) = X.natAbs := by
  apply ofDigits_digits
  calc X.natAbs < 10 ^ (Nat.log 10 X.natAbs + 1) := Nat.lt_pow_succ_log_self (by norm_num) _
    _ ≤ _ := Nat.pow_le_pow_right (by norm_num) (le_max_right _ _)

/-- **The number that a laid out numeral stands for.** -/
theorem general_toRat {precision D : ℕ} (negative : Bool) (X : ℤ) (hpos : 0 < precision) (hD : D < 10 ^ precision) :
    (general precision negative D X).toRat = (if negative then -1 else 1) * (D * 10 ^ (X - precision + 1)) := by
  unfold general
  extract_lets ds
  split
  · split
    · -- the point is among the digits or behind them
      rename_i hfixed hnonneg
      rw [toRat_none, cut_toRat hD (by omega)]
      congr 3
      push_cast
      omega
    · -- the point is before the digits
      rename_i hfixed hneg
      have hds : ofDigits ds = D := ofDigits_digits hD
      have hlen : ds.length = precision := length_digits precision D
      rw [toRat_none, trim_toRat, ofDigits_append, ofDigits_append, ofDigits_zeros, hds, List.length_append,
        List.length_replicate, hlen]
      congr 2
      · simp [ofDigits]
      · congr 1
        push_cast
        omega
  · have hexp : (if decide (X < 0) then -(ofDigits (digits (max 2 (Nat.log 10 X.natAbs + 1)) X.natAbs) : ℤ)
        else ofDigits (digits (max 2 (Nat.log 10 X.natAbs + 1)) X.natAbs)) = X := by
      rw [ofDigits_exp]
      split
      · rename_i hlt
        rw [decide_eq_true_eq] at hlt
        omega
      · rename_i hlt
        rw [decide_eq_true_eq] at hlt
        omega
    rw [toRat_some _ _ _ hexp, cut_toRat hD hpos, mul_assoc (D : ℚ), ← zpow_add₀ (by norm_num)]
    congr 3
    push_cast
    omega

theorem general_wellFormed {precision D : ℕ} (negative : Bool) {X : ℤ} (hpos : 0 < precision)
    (hD : D = 0 ∧ X = 0 ∨ 10 ^ (precision - 1) ≤ D ∧ D < 10 ^ precision) :
    (general precision negative D X).WellFormed := by
  obtain ⟨k, rfl⟩ : ∃ k, precision = k + 1 := ⟨precision - 1, by omega⟩
  have hexp : digits (max 2 (Nat.log 10 X.natAbs + 1)) X.natAbs ≠ [] := by
    intro hnil
    have hlen := length_digits (max 2 (Nat.log 10 X.natAbs + 1)) X.natAbs
    rw [hnil, List.length_nil] at hlen
    omega
  rcases hD with ⟨rfl, rfl⟩ | ⟨hle, hlt⟩
  · have hfixed : general (k + 1) negative 0 0 = ⟨negative, [0], trim (List.replicate k 0), none⟩ := by
      unfold general
      rw [if_pos ⟨by norm_num, by exact_mod_cast hpos⟩, if_pos (le_refl 0), digits_zero]
      rfl
    rw [hfixed]
    exact ⟨List.cons_ne_nil _ _, fun _ => rfl, fun e he => by cases he⟩
  · rw [Nat.add_sub_cancel] at hle
    obtain ⟨d, ds, hds, hd⟩ := head_digits hle hlt
    unfold general
    rw [hds]
    have hhead : ∀ {rest : List (Fin 10)}, (d :: rest).head? = some 0 → d :: rest = [0] := fun h =>
      absurd (Option.some.inj h) hd
    split
    · split
      · exact ⟨List.cons_ne_nil _ _, hhead, fun e he => by cases he⟩
      · exact ⟨List.cons_ne_nil _ _, fun _ => rfl, fun e he => by cases he⟩
    · refine ⟨List.cons_ne_nil _ _, hhead, fun e he => ?_⟩
      cases he
      exact hexp

end Numeral
