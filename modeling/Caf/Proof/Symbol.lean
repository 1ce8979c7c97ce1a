import Caf.Spec.Symbol

/-!
# Components of names

The counter of `load` is never decreased at `}`, so a component with a `}` goes on to the end of the name.

* `codeOutside_iff`: when the counter is zero.
* `load_cut`: how `load` cuts a name.
* `splitsAtSeparators_iff`: when these are the right places.
-/

namespace Caf.Symbol

open Components

variable {c d rest front back name pre s t u v : StdString} {cs : List StdString} {fuel : ℕ}

/-! ## Depth -/

/-- `bracketDepth` behind a part of a component. -/
def bracketDepth : StdString → ℤ
  | [] => 0
  | ch :: s => depthStep ch + bracketDepth s

theorem bracketDepth_append (u v : StdString) : bracketDepth (u ++ v) = bracketDepth u + bracketDepth v := by
  induction u with
  | nil => exact (zero_add _).symm
  | cons ch u ih =>
    rw [List.cons_append, bracketDepth, bracketDepth, ih]
    omega

theorem bracketDepth_concat (u : StdString) (ch : UInt8) :
    bracketDepth (u ++ [ch]) = bracketDepth u + depthStep ch := by
  rw [bracketDepth_append, bracketDepth, bracketDepth, add_zero]

theorem excess_append (k : Bracket) (u v : StdString) : excess k (u ++ v) = excess k u + excess k v := by
  unfold excess
  rw [List.count_append, List.count_append]
  omega

theorem depthStep_eq (ch : UInt8) : depthStep ch =
    excess .round [ch] + excess .angle [ch] + excess .square [ch] + excess .curly [ch] + [ch].count 125 := by
  revert ch
  apply forall_byte
  decide +kernel

/-- **What the counter counts**: the open brackets, and each `}`. -/
theorem bracketDepth_eq (s : StdString) : bracketDepth s =
    excess .round s + excess .angle s + excess .square s + excess .curly s + s.count 125 := by
  induction s with
  | nil => rfl
  | cons ch s ih =>
    have hstep := depthStep_eq ch
    have hcons : ch :: s = [ch] ++ s := rfl
    rw [bracketDepth, ih, hstep, hcons]
    simp only [excess_append, List.count_append]
    omega

/-- Where `load` takes a separator to be outside. -/
def CodeOutside (s : StdString) : Prop := bracketDepth s = 0

theorem excess_nonneg (h : Nested s) (k : Bracket) : 0 ≤ excess k s := h k s (List.prefix_refl s)

/-- **When the counter is zero**: outside, if there has been no `}`. -/
theorem codeOutside_iff (h : Nested s) : CodeOutside s ↔ Outside s ∧ 125 ∉ s := by
  have hround := excess_nonneg h .round
  have hangle := excess_nonneg h .angle
  have hsquare := excess_nonneg h .square
  have hcurly := excess_nonneg h .curly
  have hdepth := bracketDepth_eq s
  rw [← List.count_eq_zero]
  unfold CodeOutside
  constructor
  · -- none of the five numbers is negative, so a sum of zero leaves each of them zero
    intro hzero
    refine ⟨fun k => ?_, by omega⟩
    cases k <;> omega
  · rintro ⟨hout, hcount⟩
    rw [hdepth, hout, hout, hout, hout, hcount]
    rfl

theorem Nested.part (h : Nested t) (hst : s <+: t) : Nested s := fun k _ hfront => h k _ (hfront.trans hst)

/-- Behind a place outside of all brackets the counting starts anew. -/
theorem Nested.of_append (h : Nested (u ++ v)) (hu : Outside u) : Nested v := by
  intro k front hfront
  have hle := h k (u ++ front) ((List.prefix_append_right_inj u).2 hfront)
  rwa [excess_append, hu k, zero_add] at hle

theorem Outside.append (hu : Outside u) (hv : Outside v) : Outside (u ++ v) := by
  intro k
  rw [excess_append, hu k, hv k]
  rfl

theorem Outside.of_append (hu : Outside u) (h : Outside (u ++ v)) : Outside v := by
  intro k
  have hk := h k
  rwa [excess_append, hu k, zero_add] at hk

theorem outside_separator : Outside [58, 58] := by
  intro k
  cases k <;> decide

/-! ## Loading a name -/

theorem intLength_eq (h : name.length < 2 ^ 31) : intLength name = some name.length := if_pos h

/-- What `scan` looks for in the rest of a name. -/
def Scans (s c : StdString) : Prop :=
  c = s ∧ NoSeparator 58 CodeOutside s ∨ ∃ rest, s = c ++ 58 :: 58 :: rest ∧ FirstSeparator 58 CodeOutside c rest

/-- At the end of the name. -/
theorem scan_end (hlen : name.length < 2 ^ 31) (fuel : ℕ) (depth : ℤ) :
    scan name (fuel + 1) depth name.length = some name.length := by
  rw [scan, intLength_eq hlen]
  exact if_neg (lt_irrefl _)

/-- One turn, at a character of the name. -/
theorem scan_succ {ch : UInt8} (hlen : (front ++ ch :: back).length < 2 ^ 31) (fuel : ℕ) (depth : ℤ) :
    scan (front ++ ch :: back) (fuel + 1) depth front.length =
      if depth = 0 ∧ ch = 58 ∧ back.head? = some 58 then some front.length
      else scan (front ++ ch :: back) fuel (depth + depthStep ch) (front.length + 1) := by
  have hlt : front.length < (front ++ ch :: back).length := by simp
  have hcurr : (front ++ ch :: back)[front.length]? = some ch := by simp
  have hnext : (front ++ ch :: back)[front.length + 1]? = back.head? := by
    rw [List.getElem?_append_right (by omega), Nat.add_sub_cancel_left, List.getElem?_cons_succ,
      List.head?_eq_getElem?]
  have hback : back.head? = some 58 → front.length + 1 < (front ++ ch :: back).length := by
    intro hhead
    obtain ⟨rest, hrest⟩ := List.head?_eq_some_iff.1 hhead
    rw [hrest]
    simp
  rw [scan, intLength_eq hlen, Option.bind_eq_bind, Option.bind_some, if_pos hlt, hcurr, hnext]
  by_cases hsep : depth = 0 ∧ ch = 58 ∧ back.head? = some 58
  · obtain ⟨hdepth, hch, hhead⟩ := hsep
    rw [if_pos ⟨hback hhead, hdepth, congrArg some hch, hhead⟩, if_pos ⟨hdepth, hch, hhead⟩]
    rfl
  · rw [if_neg fun h => hsep ⟨h.2.1, Option.some.inj h.2.2.1, h.2.2.2⟩, if_neg hsep]
    rfl

/-- **The inner loop** finds the end of a component, when no separator begins in the part `u` that it has read. -/
theorem scan_spec (hlen : (pre ++ (u ++ v)).length < 2 ^ 31)
    (hu : ∀ front back, u ++ v = front ++ 58 :: 58 :: back → CodeOutside front → u.length ≤ front.length) :
    ∃ c, Scans (u ++ v) c ∧ ∀ fuel,
      (v.length < fuel → scan (pre ++ (u ++ v)) fuel (bracketDepth u) (pre ++ u).length = some (pre ++ c).length) ∧
      ∀ right, scan (pre ++ (u ++ v)) fuel (bracketDepth u) (pre ++ u).length = some right →
        right = (pre ++ c).length := by
  -- along the rest of the name: each turn moves a character from `v` to `u`
  induction v generalizing u with
  | nil =>
    rw [List.append_nil] at hlen hu ⊢
    refine ⟨u, Or.inl ⟨rfl, ?_⟩, ?_⟩
    · intro front back heq hout
      have hle := hu front back heq hout
      rw [heq, List.length_append, List.length_cons] at hle
      omega
    · intro fuel
      rcases fuel with - | fuel
      · exact ⟨fun h => absurd h (Nat.not_lt_zero _), fun right h => by cases h⟩
      · rw [scan_end hlen]
        exact ⟨fun _ => rfl, fun right h => (Option.some.inj h).symm⟩
  | cons ch v ih =>
    have hname : pre ++ (u ++ ch :: v) = (pre ++ u) ++ ch :: v := (List.append_assoc _ _ _).symm
    rw [hname] at hlen ⊢
    by_cases hsep : bracketDepth u = 0 ∧ ch = 58 ∧ v.head? = some 58
    · -- a separator begins here
      obtain ⟨hdepth, hch, hhead⟩ := hsep
      obtain ⟨rest, hrest⟩ := List.head?_eq_some_iff.1 hhead
      refine ⟨u, Or.inr ⟨rest, by rw [hch, hrest], hdepth, ?_⟩, ?_⟩
      · rwa [hch, hrest] at hu
      · intro fuel
        rcases fuel with - | fuel
        · exact ⟨fun h => absurd h (Nat.not_lt_zero _), fun right h => by cases h⟩
        · rw [scan_succ hlen, if_pos ⟨hdepth, hch, hhead⟩]
          exact ⟨fun _ => rfl, fun right h => (Option.some.inj h).symm⟩
    · -- no separator begins here, so none begins in `u ++ [ch]`
      have hassoc : u ++ ch :: v = (u ++ [ch]) ++ v := by simp
      have hread : ∀ front back, (u ++ [ch]) ++ v = front ++ 58 :: 58 :: back → CodeOutside front →
          (u ++ [ch]).length ≤ front.length := by
        intro front back heq hout
        rw [← hassoc] at heq
        have hle := hu front back heq hout
        rw [List.length_append, List.length_singleton]
        by_contra hlt
        obtain ⟨rfl, hback⟩ := List.append_inj heq (by omega)
        cases hback
        exact hsep ⟨hout, rfl, rfl⟩
      have hnext : pre ++ ((u ++ [ch]) ++ v) = (pre ++ u) ++ ch :: v := by simp
      obtain ⟨c, hc, hscan⟩ := ih (u := u ++ [ch]) (by rw [hnext]; exact hlen) hread
      have hright : (pre ++ (u ++ [ch])).length = (pre ++ u).length + 1 := by
        rw [← List.append_assoc, List.length_append, List.length_singleton]
      rw [hnext, bracketDepth_concat, hright] at hscan
      refine ⟨c, hassoc ▸ hc, fun fuel => ?_⟩
      rcases fuel with - | fuel
      · exact ⟨fun h => absurd h (Nat.not_lt_zero _), fun right h => by cases h⟩
      · rw [scan_succ hlen, if_neg hsep, List.length_cons, Nat.add_lt_add_iff_right]
        exact hscan fuel

/-- The end of the component that starts behind `pre`. -/
theorem scan_component (hlen : (pre ++ s).length < 2 ^ 31) : ∃ c, Scans s c ∧ ∀ fuel,
    (s.length < fuel → scan (pre ++ s) fuel 0 pre.length = some (pre ++ c).length) ∧
    ∀ right, scan (pre ++ s) fuel 0 pre.length = some right → right = (pre ++ c).length := by
  have hscan := scan_spec (u := []) (v := s) hlen (fun _ _ _ _ => Nat.zero_le _)
  rwa [List.append_nil] at hscan

/-- A turn of the outer loop. -/
theorem loadFrom_succ (hlen : (pre ++ s).length < 2 ^ 31) (hs : s ≠ []) (fuel turns : ℕ) :
    loadFrom (pre ++ s) fuel (turns + 1) pre.length = (scan (pre ++ s) fuel 0 pre.length).bind fun right =>
      (intAdd right 2).bind fun left =>
        (loadFrom (pre ++ s) fuel turns left).bind fun rest => some (s.take (right - pre.length) :: rest) := by
  have hlt : pre.length < (pre ++ s).length := by
    have hpos := List.length_pos_iff.2 hs
    rw [List.length_append]
    omega
  rw [loadFrom, intLength_eq hlen, Option.bind_eq_bind, Option.bind_some, if_pos hlt, List.drop_left]
  rfl

/-- A turn at the end of the name. -/
theorem loadFrom_end {left : ℕ} (hlen : name.length < 2 ^ 31) (hleft : name.length ≤ left) (fuel turns : ℕ) :
    loadFrom name fuel (turns + 1) left = some [] := by
  rw [loadFrom, intLength_eq hlen, Option.bind_eq_bind, Option.bind_some, if_neg (by omega)]
  rfl

/-- The rest of a name behind a component and a separator. -/
theorem append_separator (pre c rest : StdString) :
    pre ++ (c ++ 58 :: 58 :: rest) = (pre ++ (c ++ [58, 58])) ++ rest ∧
      (pre ++ c).length + 2 = (pre ++ (c ++ [58, 58])).length := by
  simp [Nat.add_assoc]

/-- What is behind a separator, if the name does not end with it. -/
theorem rest_of_not_suffix (hs : ¬ [58, 58] <:+ c ++ 58 :: 58 :: rest) : rest ≠ [] ∧ ¬ [58, 58] <:+ rest := by
  constructor
  · rintro rfl
    exact hs (List.suffix_append c [58, 58])
  · intro hrest
    exact hs (hrest.trans ⟨c ++ [58, 58], by simp⟩)

/-- **How `load` cuts a name** that is short enough. -/
theorem loadFrom_cut (pre : StdString) (hs : s ≠ []) (hend : ¬ [58, 58] <:+ s) (hlen : (pre ++ s).length + 2 < 2 ^ 31) :
    ∃ cs, Cut 58 CodeOutside s cs ∧ ∀ fuel turns, s.length < fuel → s.length < turns →
      loadFrom (pre ++ s) fuel turns pre.length = some cs := by
  induction hn : s.length using Nat.strongRecOn generalizing pre s with
  | _ n ih =>
  have hint : (pre ++ s).length < 2 ^ 31 := by omega
  obtain ⟨c, hc, hscan⟩ := scan_component hint
  rcases hc with ⟨rfl, hlast⟩ | ⟨rest, rfl, hfirst⟩
  · -- the last component: `left` goes two characters beyond the end of the name
    refine ⟨[c], .last hlast, fun fuel turns hfuel hturns => ?_⟩
    have hpos := List.length_pos_iff.2 hs
    obtain ⟨turns, rfl⟩ : ∃ m, turns = m + 2 := ⟨turns - 2, by omega⟩
    have hadd : intAdd (pre ++ c).length 2 = some ((pre ++ c).length + 2) := if_pos hlen
    have htake : c.take ((pre ++ c).length - pre.length) = c := by simp
    rw [loadFrom_succ hint hs, (hscan fuel).1 (by omega), Option.bind_some, hadd, Option.bind_some,
      loadFrom_end hint (Nat.le_add_right _ _), Option.bind_some, htake]
  · obtain ⟨hrest, hrestEnd⟩ := rest_of_not_suffix hend
    obtain ⟨hname, hnext⟩ := append_separator pre c rest
    rw [hname] at hlen
    rw [List.length_append, List.length_cons, List.length_cons] at hn
    obtain ⟨cs, hcut, hload⟩ := ih rest.length (by omega) (pre ++ (c ++ [58, 58])) hrest hrestEnd hlen rfl
    refine ⟨c :: cs, .cons hfirst hcut, fun fuel turns hfuel hturns => ?_⟩
    obtain ⟨turns, rfl⟩ : ∃ m, turns = m + 1 := ⟨turns - 1, by omega⟩
    have hadd : intAdd (pre ++ c).length 2 = some (pre ++ (c ++ [58, 58])).length := by
      unfold intAdd
      rw [hnext, if_pos]
      rw [List.length_append] at hlen
      omega
    have htake : (c ++ 58 :: 58 :: rest).take ((pre ++ c).length - pre.length) = c := by simp
    have hscan' := (hscan fuel).1 (by rw [List.length_append, List.length_cons, List.length_cons]; omega)
    rw [loadFrom_succ hint hs, hscan', Option.bind_some, hadd, Option.bind_some, hname,
      hload fuel turns (by omega) (by omega), Option.bind_some, htake]

theorem load_cut (hs : s ≠ []) (hend : ¬ [58, 58] <:+ s) (hlen : s.length + 2 < 2 ^ 31) :
    ∃ cs, Cut 58 CodeOutside s cs ∧ ∀ fuel > s.length, load fuel s = some cs := by
  obtain ⟨cs, hcut, hload⟩ := loadFrom_cut [] hs hend hlen
  exact ⟨cs, hcut, fun fuel hfuel => hload fuel fuel hfuel hfuel⟩

/-- A name is too long if the last `left` is no `int`. -/
theorem loadFrom_long (pre : StdString) (hs : s ≠ []) (hend : ¬ [58, 58] <:+ s)
    (hlong : 2 ^ 31 ≤ (pre ++ s).length + 2) (fuel turns : ℕ) :
    loadFrom (pre ++ s) fuel turns pre.length = none := by
  by_cases hint : (pre ++ s).length < 2 ^ 31
  · induction turns generalizing pre s with
    | zero => rfl
    | succ turns ih =>
      obtain ⟨c, hc, hscan⟩ := scan_component hint
      rw [loadFrom_succ hint hs]
      cases hright : scan (pre ++ s) fuel 0 pre.length with
      | none => rfl
      | some right =>
        rw [Option.bind_some, (hscan fuel).2 right hright]
        rcases hc with ⟨rfl, -⟩ | ⟨rest, rfl, -⟩
        · -- the sum behind the last component overflows
          have hadd : intAdd (pre ++ c).length 2 = none := if_neg (by omega)
          rw [hadd]
          rfl
        · obtain ⟨hrest, hrestEnd⟩ := rest_of_not_suffix hend
          obtain ⟨hname, hnext⟩ := append_separator pre c rest
          have hnone := ih (pre ++ (c ++ [58, 58])) hrest hrestEnd (hname ▸ hlong) (hname ▸ hint)
          unfold intAdd
          split
          · rw [Option.bind_some, hnext, hname, hnone]
            rfl
          · rfl
  · rcases turns with - | turns
    · rfl
    · rw [loadFrom, intLength, if_neg hint]
      rfl

theorem load_long (hend : ¬ [58, 58] <:+ s) (hlong : 2 ^ 31 ≤ s.length + 2) (fuel : ℕ) : load fuel s = none := by
  have hs : s ≠ [] := by
    rintro rfl
    exact absurd hlong (by decide)
  exact loadFrom_long [] hs hend hlong fuel fuel

/-! ## When the cuts are right -/

/-- Only the last component has a `}`. -/
def CurlyLast (s : StdString) : Prop := ∀ front back, s = front ++ 58 :: 58 :: back → Outside front → 125 ∉ front

theorem CurlyLast.of_append (h : CurlyLast (c ++ 58 :: 58 :: rest)) (hc : Outside c) : CurlyLast rest := by
  intro front back heq hout hmem
  have hfront : Outside (c ++ [58, 58] ++ front) := (hc.append outside_separator).append hout
  refine h (c ++ [58, 58] ++ front) back (by rw [heq]; simp) hfront ?_
  exact List.mem_append_right _ hmem

/-- Both counts find the same first separator. -/
theorem firstSeparator_iff (hn : Nested (c ++ 58 :: 58 :: rest)) (h : FirstSeparator 58 CodeOutside c rest)
    (hcurly : CurlyLast (c ++ 58 :: 58 :: rest)) : FirstSeparator 58 Outside c rest := by
  have hc := (codeOutside_iff (hn.part (List.prefix_append c _))).1 h.closed
  refine ⟨hc.1, fun front back heq hout => ?_⟩
  have hfront : front <+: c ++ 58 :: 58 :: rest := heq ▸ List.prefix_append front _
  exact h.first front back heq ((codeOutside_iff (hn.part hfront)).2 ⟨hout, hcurly front back heq hout⟩)

/-- **When the code cuts at the separators outside all brackets.** -/
theorem cut_outside_iff (hn : Nested s) (h : Cut 58 CodeOutside s cs) : Cut 58 Outside s cs ↔ CurlyLast s := by
  induction h with
  | @last s h =>
    constructor
    · intro hcut front back heq hout
      exact absurd hout (hcut.of_singleton front back heq)
    · intro hcurly
      refine .last fun front back heq hout => h front back heq ?_
      have hfront : front <+: s := heq ▸ List.prefix_append front _
      exact (codeOutside_iff (hn.part hfront)).2 ⟨hout, hcurly front back heq hout⟩
  | @cons c rest cs h hrest ih =>
    obtain ⟨hc, hcurlyc⟩ := (codeOutside_iff (hn.part (List.prefix_append c _))).1 h.closed
    have hnrest : Nested rest := by
      have hassoc : c ++ 58 :: 58 :: rest = (c ++ [58, 58]) ++ rest := by simp
      exact (hassoc ▸ hn).of_append (hc.append outside_separator)
    constructor
    · intro hcut front back heq hout hmem
      obtain ⟨hfirst, hcutrest⟩ := hcut.of_cons hrest.ne_nil
      rcases hfirst.cases heq hout with rfl | rfl | ⟨front', rfl, hback⟩
      · exact hcurlyc hmem
      · exact hcurlyc (by simpa using hmem)
      · -- the separator is in the rest of the name
        have hassoc : c ++ 58 :: 58 :: front' = (c ++ [58, 58]) ++ front' := by simp
        rw [hassoc] at hout hmem
        have hout' := (hc.append outside_separator).of_append hout
        refine (ih hnrest).1 hcutrest front' back hback hout' ?_
        simpa [hcurlyc] using hmem
    · intro hcurly
      exact .cons (firstSeparator_iff hn h hcurly) ((ih hnrest).2 (hcurly.of_append hc))

/-- What it takes to split a name. -/
theorem curlyLast_of_splits (hname : Balanced name) (hend : ¬ [58, 58] <:+ name) (h : SplitsAtSeparators name) :
    name ≠ [] ∧ name.length + 2 < 2 ^ 31 ∧ CurlyLast name := by
  obtain ⟨cs, turns, hload, hcut, -⟩ := h
  have hlen : name.length + 2 < 2 ^ 31 := by
    by_contra hlong
    have hrun := hload turns (le_refl _)
    rw [load_long hend (by omega)] at hrun
    cases hrun
  have hne : name ≠ [] := by
    rintro rfl
    have hrun := hload (turns + 1) (by omega)
    have hnil : load (turns + 1) [] = some [] := rfl
    rw [hnil] at hrun
    cases hrun
    exact hcut.ne_nil rfl
  obtain ⟨cs', hcode, hload'⟩ := load_cut hne hend hlen
  have heq : cs = cs' := by
    have hrun := hload (turns + name.length + 1) (by omega)
    rw [hload' (turns + name.length + 1) (by omega)] at hrun
    exact (Option.some.inj hrun).symm
  subst heq
  exact ⟨hne, hlen, (cut_outside_iff hname.nested hcode).1 hcut⟩

/-- **When a name is split at its separators**: it is not empty, its length is at most `2 ^ 31 - 3`, and there is no `}`
before a separator outside. -/
theorem splitsAtSeparators_iff (hname : Balanced name) (hend : ¬ [58, 58] <:+ name) : SplitsAtSeparators name ↔
    name ≠ [] ∧ name.length + 2 < 2 ^ 31 ∧
      ∀ front back, name = front ++ 58 :: 58 :: back → Outside front → 125 ∉ front := by
  constructor
  · intro h
    exact curlyLast_of_splits hname hend h
  · rintro ⟨hne, hlen, hcurly⟩
    obtain ⟨cs, hcode, hload⟩ := load_cut hne hend hlen
    exact ⟨cs, name.length + 1, fun fuel hfuel => hload fuel (by omega), (cut_outside_iff hname.nested hcode).2 hcurly,
      hcode.intercalate⟩

/-- A name with separators inside and outside of brackets. -/
theorem member_splitsAtSeparators : SplitsAtSeparators (text "v<a::b>::f") := by
  refine (splitsAtSeparators_iff (by decide) (by decide)).2 ⟨by decide, by decide, ?_⟩
  intro front back heq hout hmem
  have hname : 125 ∈ text "v<a::b>::f" := heq ▸ List.mem_append_left _ hmem
  exact absurd hname (by decide)

/-- The operator of a lambda. -/
theorem lambda_not_splitsAtSeparators :
    ¬ ∀ name, Balanced name → ¬ [58, 58] <:+ name → SplitsAtSeparators name := by
  intro h
  have hname : Balanced (text "f()::\x7blambda()#1\x7d::operator()()") := by decide +kernel
  have hend : ¬ [58, 58] <:+ text "f()::\x7blambda()#1\x7d::operator()()" := by decide
  have hcurly := (curlyLast_of_splits hname hend (h _ hname hend)).2.2
  exact hcurly (text "f()::\x7blambda()#1\x7d") (text "operator()()") (by decide) (by decide) (by decide)

end Caf.Symbol
