import Caf.Spec.Quoted

/-!
# Quoted strings

The dumper does not escape backslashes.

* `readDumped_flatMap`: the names in the string and the names that the dumper writes are read alike.
* `closesAtEnd_quotedText_iff`: the last quote closes the text when no backslash escapes it.
* `unambiguous_iff`: when two texts are told apart.
-/

namespace Caf

open Quoted

variable {c d high low : UInt8} {n v : ℕ} {a b s t : StdString}

/-! ## Numbers of characters -/

theorem lowerHexDigit?_eq_some_iff : lowerHexDigit? c = some v ↔ v < 16 ∧ c = getHexDigit (Fin.ofNat 16 v) := by
  constructor
  · intro h
    have hall : ∀ c : UInt8, (lowerHexDigit? c).all (fun v => v < 16 ∧ c = getHexDigit (Fin.ofNat 16 v)) = true := by
      apply forall_byte
      decide +kernel
    have hc := hall c
    rw [h] at hc
    simpa using hc
  · rintro ⟨hv, rfl⟩
    have hall : ∀ v : Fin 16, lowerHexDigit? (getHexDigit v) = some v.val := by
      decide +kernel
    have hval := hall (Fin.ofNat 16 v)
    rwa [Fin.val_ofNat, Nat.mod_eq_of_lt hv] at hval

/-- A character that the dumper writes as a number. -/
def Numbered (c : UInt8) : Prop := isprint c = false ∧ c ≠ 10 ∧ c ≠ 9 ∧ c ≠ 13

/-- The digits of a numbered character are read back, and no others. -/
theorem numberedChar?_eq_some_iff : numberedChar? high low = some c ↔ Numbered c ∧
    high = getHexDigit (Fin.ofNat 16 (c.toNat / 16)) ∧ low = getHexDigit (Fin.ofNat 16 (c.toNat % 16)) := by
  have hbyte : numberedChar? high low = some c ↔ ∃ m n, lowerHexDigit? high = some m ∧ lowerHexDigit? low = some n ∧
      Numbered c ∧ c = UInt8.ofNat (16 * m + n) := by
    simp only [numberedChar?, Option.bind_eq_bind, Option.bind_eq_some_iff]
    constructor
    · rintro ⟨m, hm, n, hn, h⟩
      split at h
      · cases h
      · rename_i hc
        cases h
        simp only [not_or] at hc
        exact ⟨m, n, hm, hn, ⟨by simpa using hc.1, hc.2.1, hc.2.2.1, hc.2.2.2⟩, rfl⟩
    · rintro ⟨m, n, hm, hn, ⟨hprint, hline, htab, hreturn⟩, hc⟩
      refine ⟨m, hm, n, hn, ?_⟩
      rw [← hc, if_neg (by simp [hprint, hline, htab, hreturn])]
  rw [hbyte]
  constructor
  · rintro ⟨m, n, hm, hn, hc, rfl⟩
    obtain ⟨hmlt, hm⟩ := lowerHexDigit?_eq_some_iff.1 hm
    obtain ⟨hnlt, hn⟩ := lowerHexDigit?_eq_some_iff.1 hn
    have hnum : (UInt8.ofNat (16 * m + n)).toNat = 16 * m + n := by
      rw [UInt8.toNat_ofNat']
      omega
    refine ⟨hc, ?_, ?_⟩
    · rw [hm, hnum]
      congr 2
      omega
    · rw [hn, hnum]
      congr 2
      omega
  · rintro ⟨hc, hhigh, hlow⟩
    have hlt := UInt8.toNat_lt c
    refine ⟨c.toNat / 16, c.toNat % 16, lowerHexDigit?_eq_some_iff.2 ⟨by omega, hhigh⟩,
      lowerHexDigit?_eq_some_iff.2 ⟨by omega, hlow⟩, hc, ?_⟩
    rw [Nat.div_add_mod, UInt8.ofNat_toNat]

/-! ## One character -/

/-- A printable character stands for itself. -/
theorem dumpedChar_printable (hprint : isprint c = true) (hquote : c ≠ 34) : dumpedChar c = [c] := by
  unfold dumpedChar
  rw [if_pos hprint, if_neg (by simpa using hquote)]

theorem dumpedChar_numbered (h : Numbered c) : dumpedChar c =
    [92, 120, getHexDigit (Fin.ofNat 16 (c.toNat / 16)), getHexDigit (Fin.ofNat 16 (c.toNat % 16))] := by
  obtain ⟨hprint, hline, htab, hreturn⟩ := h
  have hspace : c ≠ 32 := by
    rintro rfl
    cases hprint
  simp [dumpedChar, hprint, hline, htab, hreturn, hspace, text]

theorem hexDigit_plain : ∀ v : Fin 16, isprint (getHexDigit v) = true ∧ getHexDigit v ≠ 34 ∧ getHexDigit v ≠ 92 := by
  decide

theorem namedChar?_cases (h : namedChar? s = some (d, n)) :
    (∃ t, s = 110 :: t ∧ d = 10 ∧ n = 1) ∨ (∃ t, s = 116 :: t ∧ d = 9 ∧ n = 1) ∨ (∃ t, s = 114 :: t ∧ d = 13 ∧ n = 1) ∨
      ∃ high low t, s = 120 :: high :: low :: t ∧ numberedChar? high low = some d ∧ n = 3 := by
  rcases s with - | ⟨c, s⟩
  · simp [namedChar?] at h
  simp only [namedChar?] at h
  split_ifs at h with hline htab hreturn hnum
  · cases h
    exact Or.inl ⟨s, by rw [hline], rfl, rfl⟩
  · cases h
    exact Or.inr (Or.inl ⟨s, by rw [htab], rfl, rfl⟩)
  · cases h
    exact Or.inr (Or.inr (Or.inl ⟨s, by rw [hreturn], rfl, rfl⟩))
  · rcases s with - | ⟨high, - | ⟨low, s⟩⟩
    · cases h
    · cases h
    · obtain ⟨d', hd', heq⟩ := Option.map_eq_some_iff.1 h
      cases heq
      exact Or.inr (Or.inr (Or.inr ⟨high, low, s, by rw [hnum], hd', rfl⟩))

/-- The name in a string is what the dumper writes for the character. -/
theorem namedChar?_eq_some (h : namedChar? s = some (d, n)) :
    isprint d = false ∧ dumpedChar d = 92 :: s.take n ∧ ∀ c ∈ s.take n, isprint c = true ∧ c ≠ 34 ∧ c ≠ 92 := by
  rcases namedChar?_cases h with ⟨t, rfl, rfl, rfl⟩ | ⟨t, rfl, rfl, rfl⟩ | ⟨t, rfl, rfl, rfl⟩ |
    ⟨high, low, t, rfl, hd, rfl⟩
  · simp [dumpedChar, text, isprint]
  · simp [dumpedChar, text, isprint]
  · simp [dumpedChar, text, isprint]
  · obtain ⟨hnum, rfl, rfl⟩ := numberedChar?_eq_some_iff.1 hd
    refine ⟨hnum.1, dumpedChar_numbered hnum, ?_⟩
    simp only [List.take_succ_cons, List.take_zero, List.forall_mem_cons]
    exact ⟨by decide, hexDigit_plain _, hexDigit_plain _, by simp⟩

/-- The dumper names the characters that are not printable. -/
theorem namedChar?_dumpedChar (h : isprint d = false) (t : StdString) : ∃ name,
    dumpedChar d = 92 :: name ∧ namedChar? (name ++ t) = some (d, name.length) := by
  by_cases hline : d = 10
  · subst hline
    exact ⟨[110], rfl, rfl⟩
  by_cases htab : d = 9
  · subst htab
    exact ⟨[116], rfl, rfl⟩
  by_cases hreturn : d = 13
  · subst hreturn
    exact ⟨[114], rfl, rfl⟩
  have hnum : Numbered d := ⟨h, hline, htab, hreturn⟩
  have hchar := numberedChar?_eq_some_iff.2 ⟨hnum, rfl, rfl⟩
  exact ⟨_, dumpedChar_numbered hnum, congrArg (Option.map (·, 3)) hchar⟩

/-! ## Reading a dumped text -/

/-- The names that the dumper writes, and the escaped quote. -/
def dumpedName? (s : StdString) : Option (UInt8 × ℕ) := if s.head? = some 34 then some (34, 1) else namedChar? s

/-- Read a dumped text. -/
def readDumped : StdString → StdString := unescape dumpedName?

/-- A name begins with no quote. -/
theorem dumpedName?_of_namedChar? (h : namedChar? s = some (d, n)) : dumpedName? s = some (d, n) := by
  unfold dumpedName?
  rw [if_neg, h]
  intro hquote
  rcases namedChar?_cases h with ⟨t, rfl, -⟩ | ⟨t, rfl, -⟩ | ⟨t, rfl, -⟩ | ⟨high, low, t, rfl, -⟩ <;> cases hquote

/-- **One character is read back**, unless it is a backslash. -/
theorem readDumped_dumpedChar (hc : c ≠ 92) (t : StdString) : readDumped (dumpedChar c ++ t) = c :: readDumped t := by
  unfold readDumped
  by_cases hprint : isprint c = true
  · by_cases hquote : c = 34
    · subst hquote
      exact unescape_some (t := 34 :: t) (d := 34) (n := 1) rfl
    · rw [dumpedChar_printable hprint hquote]
      exact unescape_other hc
  · obtain ⟨name, hname, hread⟩ := namedChar?_dumpedChar (by simpa using hprint) t
    rw [hname, List.cons_append, unescape_some (dumpedName?_of_namedChar? hread), List.drop_left]

/-- A character that a dumped text begins with, apart from a backslash, stands for itself. -/
theorem flatMap_dumpedChar_cons (h : s.flatMap dumpedChar = c :: t) (hc : c ≠ 92) :
    c ≠ 34 ∧ ∃ s', s = c :: s' ∧ s'.flatMap dumpedChar = t := by
  rcases s with - | ⟨d, s⟩
  · cases h
  rw [List.flatMap_cons] at h
  by_cases hprint : isprint d = true
  · by_cases hquote : d = 34
    · subst hquote
      cases h
      exact absurd rfl hc
    · rw [dumpedChar_printable hprint hquote] at h
      cases h
      exact ⟨hquote, s, rfl, rfl⟩
  · obtain ⟨name, hname, -⟩ := namedChar?_dumpedChar (by simpa using hprint) []
    rw [hname] at h
    cases h
    exact absurd rfl hc

/-- A name that stands in a dumped text stood in the string. -/
theorem namedChar?_of_dumpedName? (h : dumpedName? (s.flatMap dumpedChar) = some (d, n)) :
    namedChar? s = some (d, n) := by
  unfold dumpedName? at h
  split at h
  · rename_i hhead
    obtain ⟨t, ht⟩ := List.head?_eq_some_iff.1 hhead
    exact absurd rfl (flatMap_dumpedChar_cons ht (by decide)).1
  · rcases namedChar?_cases h with ⟨t, ht, rfl, rfl⟩ | ⟨t, ht, rfl, rfl⟩ | ⟨t, ht, rfl, rfl⟩ |
      ⟨high, low, t, ht, hd, rfl⟩
    · obtain ⟨-, s', rfl, -⟩ := flatMap_dumpedChar_cons ht (by decide)
      rfl
    · obtain ⟨-, s', rfl, -⟩ := flatMap_dumpedChar_cons ht (by decide)
      rfl
    · obtain ⟨-, s', rfl, -⟩ := flatMap_dumpedChar_cons ht (by decide)
      rfl
    · -- no digit is a backslash, so both stand for themselves
      have hdigits := numberedChar?_eq_some_iff.1 hd
      have hhigh : high ≠ 92 := hdigits.2.1 ▸ (hexDigit_plain _).2.2
      have hlow : low ≠ 92 := hdigits.2.2 ▸ (hexDigit_plain _).2.2
      obtain ⟨-, s', rfl, hafter⟩ := flatMap_dumpedChar_cons ht (by decide)
      obtain ⟨-, s', rfl, hafter'⟩ := flatMap_dumpedChar_cons hafter hhigh
      obtain ⟨-, s', rfl, -⟩ := flatMap_dumpedChar_cons hafter' hlow
      exact congrArg (Option.map (·, 3)) hd

/-- Printable characters that are no quotes stand for themselves. -/
theorem flatMap_dumpedChar_printable (h : ∀ c ∈ s, isprint c = true ∧ c ≠ 34) : s.flatMap dumpedChar = s := by
  induction s with
  | nil => rfl
  | cons c s ih =>
    obtain ⟨⟨hprint, hquote⟩, hrest⟩ := List.forall_mem_cons.1 h
    rw [List.flatMap_cons, dumpedChar_printable hprint hquote, ih hrest, List.singleton_append]

/-- A name in a string is dumped like the character that it names. -/
theorem flatMap_dumpedChar_name (h : namedChar? s = some (d, n)) :
    (92 :: s).flatMap dumpedChar = dumpedChar d ++ (s.drop n).flatMap dumpedChar := by
  obtain ⟨-, hdumped, hplain⟩ := namedChar?_eq_some h
  have hname : (s.take n).flatMap dumpedChar = s.take n :=
    flatMap_dumpedChar_printable fun c hc => ⟨(hplain c hc).1, (hplain c hc).2.1⟩
  have hs : s.flatMap dumpedChar = s.take n ++ (s.drop n).flatMap dumpedChar := by
    conv_lhs => rw [← List.take_append_drop n s, List.flatMap_append, hname]
  rw [List.flatMap_cons, dumpedChar_printable rfl (by decide), hs, hdumped, List.singleton_append, List.cons_append]

/-- **What is read from a dumped text**: the string, with each name replaced. -/
theorem readDumped_flatMap (s : StdString) : readDumped (s.flatMap dumpedChar) = unescape namedChar? s := by
  induction s using unescape.induct namedChar? with
  | case1 => exact unescape_nil.trans unescape_nil.symm
  | case2 rest d n hnamed ih =>
    -- no name is that of a backslash, which is printable
    have hd : d ≠ 92 := by
      rintro rfl
      cases (namedChar?_eq_some hnamed).1
    rw [flatMap_dumpedChar_name hnamed, readDumped_dumpedChar hd, ih, unescape_some hnamed]
  | case3 rest hnamed ih =>
    -- a backslash in front of no name is read as it stands
    have hnone : dumpedName? (rest.flatMap dumpedChar) = none := by
      cases h : dumpedName? (rest.flatMap dumpedChar) with
      | none => rfl
      | some name =>
        rw [namedChar?_of_dumpedName? h] at hnamed
        cases hnamed
    have hread : readDumped (92 :: rest.flatMap dumpedChar) = 92 :: readDumped (rest.flatMap dumpedChar) :=
      unescape_none hnone
    rw [List.flatMap_cons, dumpedChar_printable rfl (by decide), List.singleton_append, hread, ih, unescape_none hnamed]
  | case4 c rest hc ih => rw [List.flatMap_cons, readDumped_dumpedChar hc, ih, unescape_other hc]

/-- Replacing names does not change what is dumped. -/
theorem flatMap_dumpedChar_unescape (s : StdString) :
    (unescape namedChar? s).flatMap dumpedChar = s.flatMap dumpedChar := by
  induction s using unescape.induct namedChar? with
  | case1 => rw [unescape_nil]
  | case2 rest d n hnamed ih => rw [unescape_some hnamed, List.flatMap_cons, ih, flatMap_dumpedChar_name hnamed]
  | case3 rest hnamed ih => rw [unescape_none hnamed, List.flatMap_cons, List.flatMap_cons, ih]
  | case4 c rest hc ih => rw [unescape_other hc, List.flatMap_cons, List.flatMap_cons, ih]

/-- **When two strings are dumped alike.** -/
theorem flatMap_dumpedChar_eq_iff : a.flatMap dumpedChar = b.flatMap dumpedChar ↔
    unescape namedChar? a = unescape namedChar? b := by
  constructor
  · intro h
    rw [← readDumped_flatMap, h, readDumped_flatMap]
  · intro h
    rw [← flatMap_dumpedChar_unescape, h, flatMap_dumpedChar_unescape]

/-! ## The closing quote -/

theorem dumpedChar_name (hprint : isprint d = false) :
    ∃ x name, dumpedChar d = 92 :: x :: name ∧ ∀ c ∈ x :: name, c ≠ 34 ∧ c ≠ 92 := by
  obtain ⟨name, hname, hread⟩ := namedChar?_dumpedChar hprint []
  obtain ⟨-, -, hplain⟩ := namedChar?_eq_some hread
  rw [List.append_nil] at hread hplain
  rw [List.take_length] at hplain
  rcases name with - | ⟨x, name⟩
  · cases hread
  · exact ⟨x, name, hname, fun c hc => (hplain c hc).2⟩

/-- A character of the string, in a place where no backslash escapes it. -/
theorem afterString_dumpedChar (hc : c ≠ 92) (t : StdString) : afterString (dumpedChar c ++ t) = afterString t := by
  by_cases hprint : isprint c = true
  · by_cases hquote : c = 34
    · subst hquote
      exact afterString_escape 34 t
    · rw [dumpedChar_printable hprint hquote]
      exact afterString_plain hquote hc
  · obtain ⟨x, name, hname, hplain⟩ := dumpedChar_name (by simpa using hprint)
    rw [hname, List.cons_append, List.cons_append, afterString_escape,
      afterString_append fun c hc => hplain c (List.mem_cons_of_mem x hc)]

/-- A character behind a backslash. -/
theorem afterString_backslash (hquote : c ≠ 34) (t : StdString) :
    afterString (92 :: (dumpedChar c ++ t)) = afterString t := by
  by_cases hprint : isprint c = true
  · rw [dumpedChar_printable hprint hquote]
    exact afterString_escape c t
  · obtain ⟨x, name, hname, hplain⟩ := dumpedChar_name (by simpa using hprint)
    rw [hname, List.cons_append, afterString_escape, afterString_append hplain]

/-- **How far a dumped text is read**: to its end, unless it has a quote behind an odd number of backslashes. -/
theorem afterString_flatMap (s t : StdString) :
    (QuotesPaired s → afterString (s.flatMap dumpedChar ++ t) =
      if Even (trailing s) then afterString t else afterString (92 :: t)) ∧
    (¬ QuotesPaired s → ∃ u, afterString (s.flatMap dumpedChar ++ t) = some (u ++ t)) := by
  induction s using List.reverseRecOn generalizing t with
  | nil => exact ⟨fun _ => by rw [trailing_nil, if_pos Even.zero]; rfl, fun h => absurd quotesPaired_nil h⟩
  | append_singleton s c ih =>
    obtain ⟨ihpaired, ihnot⟩ := ih (dumpedChar c ++ t)
    have hout : (s ++ [c]).flatMap dumpedChar ++ t = s.flatMap dumpedChar ++ (dumpedChar c ++ t) := by simp
    rw [hout, quotesPaired_concat]
    constructor
    · rintro ⟨hs, hquote⟩
      rw [ihpaired hs]
      by_cases hc : c = 92
      · -- a backslash escapes what follows, or is escaped
        subst hc
        rw [trailing_backslash]
        by_cases heven : Even (trailing s)
        · rw [if_pos heven, if_neg (Nat.even_add_one.not.2 (not_not.2 heven))]
          rfl
        · rw [if_neg heven, if_pos (Nat.even_add_one.2 heven)]
          exact afterString_escape 92 t
      · rw [trailing_other hc, if_pos Even.zero]
        by_cases heven : Even (trailing s)
        · rw [if_pos heven, afterString_dumpedChar hc]
        · rw [if_neg heven, afterString_backslash fun h => heven (hquote h)]
    · intro hnot
      by_cases hs : QuotesPaired s
      · -- the quote closes the string
        obtain ⟨hquote, hodd⟩ : c = 34 ∧ ¬ Even (trailing s) := by tauto
        subst hquote
        rw [ihpaired hs, if_neg hodd]
        exact ⟨[], (afterString_escape 92 (34 :: t)).trans (afterString_quote t)⟩
      · obtain ⟨u, hu⟩ := ihnot hs
        exact ⟨u ++ dumpedChar c, by rw [hu, List.append_assoc]⟩

/-- The text that is printed for a string. -/
def quotedText (s : StdString) : StdString := text "\"" ++ (cStr s).flatMap dumpedChar ++ text "\""

theorem printsQuoted_quotedText (s : StdString) : PrintsQuoted s (quotedText s) := by
  intro store formatDouble demangle d
  rfl

theorem TestCaseDumper.print_inj {x : TestCaseDumper} (h : x.print s = x.print t) : s = t := by
  have hout := congrArg (fun x => x.printer.out) h
  unfold TestCaseDumper.print Printer.print at hout
  split at hout <;> exact List.append_cancel_left hout

theorem printsQuoted_iff : PrintsQuoted s t ↔ t = quotedText s := by
  constructor
  · intro h
    have heq := (h CAFStore.new (fun _ => []) none ⟨Printer.new, DumpContext.new⟩).symm.trans
      (printsQuoted_quotedText s _ _ _ _)
    exact TestCaseDumper.print_inj (Except.ok.inj heq)
  · rintro rfl
    exact printsQuoted_quotedText s

/-- **When the last quote closes the text.** -/
theorem closesAtEnd_quotedText_iff : ClosesAtEnd (quotedText s) ↔ BackslashesPaired (cStr s) := by
  have htext : quotedText s = 34 :: ((cStr s).flatMap dumpedChar ++ [34]) := rfl
  obtain ⟨hpaired, hnot⟩ := afterString_flatMap (cStr s) [34]
  rw [htext, closesAtEnd_iff]
  constructor
  · intro h
    by_cases hquotes : QuotesPaired (cStr s)
    · refine ⟨hquotes, ?_⟩
      by_contra hodd
      rw [hpaired hquotes, if_neg hodd] at h
      cases h
    · obtain ⟨u, hu⟩ := hnot hquotes
      rw [hu] at h
      simp at h
  · rintro ⟨hquotes, hlast⟩
    rw [hpaired hquotes, if_pos hlast]
    rfl

/-- **When two texts are told apart**: before each quote and at the end of each string, up to its first NUL, there is an
even number of backslashes, and the strings differ when the names in them are replaced. -/
theorem unambiguous_iff (a b : StdString) : Unambiguous a b ↔
    BackslashesPaired (cStr a) ∧ BackslashesPaired (cStr b) ∧ unspelled a ≠ unspelled b := by
  have htexts : quotedText a = quotedText b ↔ unspelled a = unspelled b := by
    unfold quotedText unspelled
    rw [List.append_cancel_right_eq, List.append_cancel_left_eq, flatMap_dumpedChar_eq_iff]
  unfold Unambiguous
  simp only [printsQuoted_iff, ← closesAtEnd_quotedText_iff, ← htexts, ne_eq]
  constructor
  · rintro ⟨p, q, rfl, rfl, hne, hp, hq⟩
    exact ⟨hp, hq, hne⟩
  · rintro ⟨hp, hq, hne⟩
    exact ⟨_, _, rfl, rfl, hne, hp, hq⟩

/-- A newline, and a backslash before the letter n. -/
theorem newline_ambiguous : ¬ ∀ a b : StdString, a ≠ b → Unambiguous a b := by
  intro h
  obtain ⟨p, q, hp, hq, hne, -, -⟩ := h [10] [92, 110] (by decide)
  have hpq : p = q := (printsQuoted_iff.1 hp).trans (printsQuoted_iff.1 hq).symm
  exact hne hpq

end Caf
