import Mathlib.Data.List.DropRight
import Mathlib.Data.List.Induction
import Mathlib.Algebra.Group.Nat.Even

/-!
# Strings in double quotes

Where a quoted string ends, if a backslash takes the next character with it, and what a text becomes when the escapes
in it are replaced.

* `trailing`: the backslashes before a place in the text.
* `BackslashesPaired`: no quote is escaped by a backslash of the string, and none closes it early.
* `unescape`: the escapes that some table knows, from left to right.
-/

namespace Quoted

variable {c : UInt8} {k : ℕ} {s t : List UInt8}

/-! ## The closing quote -/

/-- The text behind the quote that ends a string. A backslash takes the next character with it. -/
def afterString : List UInt8 → Option (List UInt8)
  | [] => none
  | c :: rest =>
    if c = 34 then some rest
    else if c = 92 then
      match rest with
      | [] => none
      | _ :: rest => afterString rest
    else afterString rest

/-- A text that begins with a quote, and ends with the quote that closes it. -/
def ClosesAtEnd (q : List UInt8) : Prop := ∃ body, q = 34 :: body ∧ afterString body = some []

theorem afterString_quote (t : List UInt8) : afterString (34 :: t) = some t := by
  cases t <;> rw [afterString, if_pos rfl]

theorem afterString_escape (c : UInt8) (t : List UInt8) : afterString (92 :: c :: t) = afterString t := by
  rw [afterString, if_neg (by decide), if_pos rfl]

theorem afterString_plain (hquote : c ≠ 34) (hbackslash : c ≠ 92) : afterString (c :: t) = afterString t := by
  cases t <;> simp [afterString, hquote, hbackslash]

/-- Characters that are neither quotes nor backslashes. -/
theorem afterString_append (h : ∀ c ∈ s, c ≠ 34 ∧ c ≠ 92) (t : List UInt8) : afterString (s ++ t) = afterString t := by
  induction s with
  | nil => rfl
  | cons c s ih =>
    obtain ⟨⟨hquote, hbackslash⟩, hrest⟩ := List.forall_mem_cons.1 h
    rw [List.cons_append, afterString_plain hquote hbackslash, ih hrest]

theorem closesAtEnd_iff : ClosesAtEnd (34 :: t) ↔ afterString t = some [] := by
  constructor
  · rintro ⟨body, heq, hafter⟩
    cases heq
    exact hafter
  · intro h
    exact ⟨t, rfl, h⟩

/-! ## Backslashes -/

/-- The number of backslashes at the end of a text. -/
def trailing (s : List UInt8) : ℕ := (s.rtakeWhile (· = 92)).length

theorem trailing_nil : trailing [] = 0 := rfl

theorem trailing_backslash (s : List UInt8) : trailing (s ++ [92]) = trailing s + 1 := by
  unfold trailing
  rw [List.rtakeWhile_concat_pos _ _ _ (by decide), List.length_append, List.length_singleton]

theorem trailing_other (hc : c ≠ 92) : trailing (s ++ [c]) = 0 := by
  unfold trailing
  rw [List.rtakeWhile_concat_neg _ _ _ (by simpa using hc)]
  rfl

/-- Before each quote there is an even number of backslashes. -/
def QuotesPaired (s : List UInt8) : Prop := ∀ front rest, s = front ++ 34 :: rest → Even (trailing front)

/-- Before each quote, and at the end, there is an even number of backslashes. -/
structure BackslashesPaired (s : List UInt8) : Prop where
  quotes : QuotesPaired s
  last : Even (trailing s)

theorem quotesPaired_nil : QuotesPaired [] := by
  intro front rest h
  simp at h

theorem quotesPaired_concat : QuotesPaired (s ++ [c]) ↔ QuotesPaired s ∧ (c = 34 → Even (trailing s)) := by
  constructor
  · intro h
    refine ⟨fun front rest hs => h front (rest ++ [c]) (by rw [hs]; simp), fun hc => h s [] (by rw [hc])⟩
  · rintro ⟨hs, hc⟩ front rest heq
    -- the quote is the last character, or one before it
    rcases List.eq_nil_or_concat rest with rfl | ⟨rest, d, rfl⟩
    · obtain ⟨rfl, hlast⟩ := List.append_inj' heq rfl
      exact hc (List.singleton_inj.1 hlast)
    · rw [List.concat_eq_append, ← List.cons_append, ← List.append_assoc] at heq
      exact hs front rest (List.append_inj' heq rfl).1

/-! ## Escapes -/

/-- Replace each escape. The table gives the character for the text behind a backslash, and the length of the escape
without the backslash. -/
def unescape (named? : List UInt8 → Option (UInt8 × ℕ)) : List UInt8 → List UInt8
  | [] => []
  | c :: rest =>
    if c = 92 then
      match named? rest with
      | some (d, n) => d :: unescape named? (rest.drop n)
      | none => c :: unescape named? rest
    else c :: unescape named? rest
termination_by s => s.length
decreasing_by all_goals simp only [List.length_cons, List.length_drop]; omega

variable {named? : List UInt8 → Option (UInt8 × ℕ)} {d : UInt8} {n : ℕ}

theorem unescape_nil : unescape named? [] = [] := by rw [unescape]

theorem unescape_other (hc : c ≠ 92) : unescape named? (c :: t) = c :: unescape named? t := by
  rw [unescape, if_neg hc]

theorem unescape_some (h : named? t = some (d, n)) : unescape named? (92 :: t) = d :: unescape named? (t.drop n) := by
  rw [unescape, if_pos rfl, h]

theorem unescape_none (h : named? t = none) : unescape named? (92 :: t) = 92 :: unescape named? t := by
  rw [unescape, if_pos rfl, h]

end Quoted
