import Caf.Proof.Symbol

/-!
# Constructors

`removeArgs` removes the last group of brackets only, so the template arguments of a constructor stay.

* `removeArgs_group`: which part is removed.
* `isConstructor_members`, `isConstructor_curly`: the answer, without and with a `}` in front of the last component.
* `isConstructor_iff`: when the answer is right.
-/

namespace Caf.Symbol

open Components

variable {a a₁ a₂ c d inner l m n p q rest s t u v x : StdString} {cs : List StdString} {k : Bracket} {fuel : ℕ}

/-! ## Brackets that are removed -/

/-- The depth that `removeArgs` counts, backwards. -/
def argDepth (s : StdString) : ℤ := excess .round s + excess .angle s

theorem argDepth_append (u v : StdString) : argDepth (u ++ v) = argDepth u + argDepth v := by
  unfold argDepth
  rw [excess_append, excess_append]
  omega

theorem matchBack_cons (counter : ℤ) (ch : UInt8) (t : StdString) : matchBack counter (ch :: t) =
    if counter - argDepth [ch] = 0 then some t.reverse else matchBack (counter - argDepth [ch]) t := by
  have hch : (if ch = 41 ∨ ch = 62 then (1 : ℤ) else if ch = 40 ∨ ch = 60 then -1 else 0) = -argDepth [ch] := by
    revert ch
    apply forall_byte
    decide +kernel
  have hcounter : (if ch = 41 ∨ ch = 62 then counter + 1 else if ch = 40 ∨ ch = 60 then counter - 1 else counter) =
      counter - argDepth [ch] := by
    split_ifs at hch ⊢ <;> omega
  rw [matchBack, hcounter]

/-- Through a text of which each end closes less than is open. -/
theorem matchBack_append {counter : ℤ} (h : ∀ u v, s = u ++ v → 0 < counter - argDepth v) (t : StdString) :
    matchBack counter (s.reverse ++ t) = matchBack (counter - argDepth s) t := by
  induction s using List.reverseRecOn generalizing counter with
  | nil => simp [argDepth, excess]
  | append_singleton s ch ih =>
    have hch := h s [ch] rfl
    have hs : ∀ u v, s = u ++ v → 0 < counter - argDepth [ch] - argDepth v := by
      intro u v heq
      have hv := h u (v ++ [ch]) (by rw [heq, List.append_assoc])
      rw [argDepth_append] at hv
      omega
    rw [List.reverse_append, List.reverse_singleton, List.singleton_append, List.cons_append, matchBack_cons,
      if_neg (by omega), ih hs, argDepth_append]
    congr 1
    omega

/-- The brackets that delimit arguments. -/
def Bracket.IsArgs (k : Bracket) : Prop := k = .round ∨ k = .angle

/-- A text in brackets. -/
def group (k : Bracket) (inner : StdString) : StdString := k.opening :: (inner ++ [k.closing])

theorem argDepth_balanced (h : Balanced s) : argDepth s = 0 := by
  unfold argDepth
  rw [h.outside, h.outside]
  rfl

/-- **The last group is removed.** -/
theorem removeArgs_group (hk : k.IsArgs) (hinner : Balanced inner) (x : StdString) :
    removeArgs (x ++ group k inner) = x := by
  have hlast : (x ++ group k inner).getLast? = some k.closing := by
    unfold group
    rw [← List.cons_append, ← List.append_assoc, List.getLast?_concat]
  have hrev : (x ++ group k inner).reverse = k.closing :: (inner.reverse ++ k.opening :: x.reverse) := by simp [group]
  have hzero := argDepth_balanced hinner
  -- backwards, what is between the brackets never closes the last one
  have hsuffix : ∀ u v, inner = u ++ v → 0 < (1 : ℤ) - argDepth v := by
    intro u v heq
    have hu : u <+: inner := heq ▸ List.prefix_append u v
    have hround := hinner.nested .round u hu
    have hangle := hinner.nested .angle u hu
    have hsum := argDepth_append u v
    rw [← heq, hzero] at hsum
    unfold argDepth at hsum ⊢
    omega
  have hclose : (0 : ℤ) - argDepth [k.closing] = 1 := by rcases hk with rfl | rfl <;> rfl
  have hopen : (1 : ℤ) - 0 - argDepth [k.opening] = 0 := by rcases hk with rfl | rfl <;> rfl
  have hmatch : matchBack 0 (x ++ group k inner).reverse = some x := by
    rw [hrev, matchBack_cons, hclose, if_neg (by decide), matchBack_append hsuffix, hzero, matchBack_cons, hopen,
      if_pos rfl, List.reverse_reverse]
  have hclosing : ¬ (k.closing ≠ 41 ∧ k.closing ≠ 62) := by rcases hk with rfl | rfl <;> decide
  unfold removeArgs
  rw [hlast, hmatch]
  exact if_neg hclosing

/-- A plain name is left alone. -/
theorem removeArgs_plain (hc : PlainIdentifier c) : removeArgs c = c := by
  obtain ⟨front, ch, rfl⟩ := (List.eq_nil_or_concat c).resolve_left hc.ne_nil
  have hround : ch ≠ 41 := fun h => (hc.bracket .round).2 (by simp [h, Bracket.closing])
  have hangle : ch ≠ 62 := fun h => (hc.bracket .angle).2 (by simp [h, Bracket.closing])
  unfold removeArgs
  rw [List.concat_eq_append, List.getLast?_concat]
  exact if_pos ⟨hround, hangle⟩

theorem removeArgs_templateArgs (hc : PlainIdentifier c) (ha : TemplateArgs a) : removeArgs (c ++ a) = c := by
  rcases ha with rfl | ⟨inner, hinner, rfl⟩
  · rw [List.append_nil, removeArgs_plain hc]
  · exact removeArgs_group (Or.inr rfl) hinner c

theorem removeArgs_parameterList (hp : ParameterList p) (x : StdString) : removeArgs (x ++ p) = x := by
  obtain ⟨inner, hinner, rfl⟩ := hp
  exact removeArgs_group (Or.inl rfl) hinner x

/-- What remains is the beginning of the name. -/
theorem removeArgs_begins (s : StdString) : removeArgs s <+: s := by
  have hmatch : ∀ (t : StdString) (counter : ℤ), ∀ r ∈ matchBack counter t, r <+: t.reverse := by
    intro t
    induction t with
    | nil =>
      intro counter r hr
      cases hr
    | cons ch t ih =>
      intro counter r hr
      rw [matchBack_cons] at hr
      rw [List.reverse_cons]
      split at hr
      · cases hr
        exact List.prefix_append _ _
      · exact (ih _ r hr).trans (List.prefix_append _ _)
  unfold removeArgs
  split
  · exact List.nil_prefix
  · split
    · exact List.prefix_refl s
    · cases hr : matchBack 0 s.reverse with
      | none => exact List.prefix_refl s
      | some r =>
        have hpre := hmatch s.reverse 0 r hr
        rwa [List.reverse_reverse] at hpre

/-! ## Balanced names -/

theorem prefix_append_cases (h : u <+: s ++ t) : u <+: s ∨ ∃ r, u = s ++ r ∧ r <+: t := by
  obtain ⟨w, hw⟩ := h
  rcases List.append_eq_append_iff.1 hw with ⟨r, hr, -⟩ | ⟨r, hr, hw⟩
  · exact Or.inl ⟨r, hr.symm⟩
  · exact Or.inr ⟨r, hr, w, hw.symm⟩

theorem Balanced.append (hs : Balanced s) (ht : Balanced t) : Balanced (s ++ t) := by
  refine ⟨fun k front hfront => ?_, hs.outside.append ht.outside⟩
  rcases prefix_append_cases hfront with hfront | ⟨rest, rfl, hrest⟩
  · exact hs.nested k front hfront
  · rw [excess_append, hs.outside, zero_add]
    exact ht.nested k rest hrest

theorem balanced_plain (hc : ∀ k : Bracket, k.opening ∉ c ∧ k.closing ∉ c) : Balanced c := by
  have hzero : ∀ k front, front <+: c → excess k front = 0 := by
    intro k front hfront
    unfold excess
    rw [List.count_eq_zero.2 fun h => (hc k).1 (hfront.subset h), List.count_eq_zero.2 fun h =>
      (hc k).2 (hfront.subset h)]
    rfl
  exact ⟨fun k front hfront => (hzero k front hfront).ge, fun k => hzero k c (List.prefix_refl c)⟩

theorem excess_opening (j k : Bracket) :
    0 ≤ excess j [k.opening] ∧ excess j [k.opening] + excess j [k.closing] = 0 := by
  cases j <;> cases k <;> decide

theorem balanced_group (k : Bracket) (hinner : Balanced inner) : Balanced (group k inner) := by
  have hcons : ∀ j t, excess j (k.opening :: t) = excess j [k.opening] + excess j t := fun j t => excess_append j [_] t
  have hwhole : ∀ j, excess j (group k inner) = 0 := by
    intro j
    rw [group, hcons, excess_append, hinner.outside, zero_add]
    exact (excess_opening j k).2
  refine ⟨fun j front hfront => ?_, hwhole⟩
  rcases List.prefix_cons_iff.1 hfront with rfl | ⟨t, rfl, ht⟩
  · exact le_of_eq (by simp [excess])
  · rcases List.prefix_concat_iff.1 ht with rfl | ht
    · exact (hwhole j).ge
    · have hopen := (excess_opening j k).1
      have hpart := hinner.nested j t ht
      rw [hcons]
      omega

theorem balanced_templateArgs (ha : TemplateArgs a) : Balanced a := by
  rcases ha with rfl | ⟨inner, hinner, rfl⟩
  · exact balanced_plain (by simp)
  · exact balanced_group .angle hinner

theorem balanced_parameterList (hp : ParameterList p) : Balanced p := by
  obtain ⟨inner, hinner, rfl⟩ := hp
  exact balanced_group .round hinner

theorem balanced_separator : Balanced [58, 58] := by decide

theorem balanced_memberName {scope : Option StdString} (hscope : ∀ n ∈ scope, Scope n) (hc : PlainIdentifier c)
    (hd : PlainIdentifier d) (ha₁ : TemplateArgs a₁) (ha₂ : TemplateArgs a₂) (hp : ParameterList p) :
    Balanced (memberName scope c a₁ d a₂ p) := by
  have hclass := ((balanced_plain hc.bracket).append (balanced_templateArgs ha₁)).append balanced_separator
  have hmember := ((balanced_plain hd.bracket).append (balanced_templateArgs ha₂)).append (balanced_parameterList hp)
  refine Balanced.append ?_ (hclass.append hmember)
  cases scope with
  | none => exact balanced_plain (by simp)
  | some n => exact (hscope n rfl).balanced.append balanced_separator

/-! ## Texts without colons outside -/

theorem bracketDepth_nonneg (h : Nested s) : 0 ≤ bracketDepth s := by
  have hround := excess_nonneg h .round
  have hangle := excess_nonneg h .angle
  have hsquare := excess_nonneg h .square
  have hcurly := excess_nonneg h .curly
  rw [bracketDepth_eq]
  omega

/-- `load` does not cut in front of a colon of the text. -/
structure Solid (s : StdString) : Prop where
  depth : 0 ≤ bracketDepth s
  colon : ∀ front back, s = front ++ 58 :: back → ¬ CodeOutside front

theorem solid_plain (hc : PlainIdentifier c) : Solid c := by
  refine ⟨bracketDepth_nonneg (balanced_plain hc.bracket).nested, fun front back heq => ?_⟩
  exact absurd (heq ▸ List.mem_append_right _ List.mem_cons_self) hc.colon

/-- Arguments hide their colons. -/
theorem Solid.group (hs : Solid s) (hk : k.IsArgs) (hinner : Balanced inner) : Solid (s ++ group k inner) := by
  have hopen : depthStep k.opening = 1 := by rcases hk with rfl | rfl <;> rfl
  have hclosing : k.closing ≠ 58 ∧ k.opening ≠ 58 := by rcases hk with rfl | rfl <;> decide
  have hcons : ∀ t, bracketDepth (s ++ k.opening :: t) = bracketDepth s + 1 + bracketDepth t := by
    intro t
    rw [List.append_cons, bracketDepth_append, bracketDepth_concat, hopen]
  have hdepth := hs.depth
  refine ⟨?_, fun front back heq hout => ?_⟩
  · have hnonneg := bracketDepth_nonneg (balanced_group k hinner).nested
    rw [bracketDepth_append]
    omega
  · rcases List.append_eq_append_iff.1 heq with ⟨r, rfl, hr⟩ | ⟨r, rfl, hr⟩
    · -- the colon is in the brackets, or would be one of them
      rcases List.cons_eq_append_iff.1 hr with ⟨rfl, hback⟩ | ⟨t, rfl, ht⟩
      · exact hclosing.2 (List.cons.inj hback).1.symm
      · have ht : t <+: inner := by
          rcases List.eq_nil_or_concat back with rfl | ⟨back, y, rfl⟩
          · exact absurd (List.append_inj' ht rfl).2 (by simpa using hclosing.1)
          · rw [List.concat_eq_append, ← List.cons_append, ← List.append_assoc] at ht
            exact ⟨58 :: back, (List.append_inj' ht rfl).1.symm⟩
        have hnonneg := bracketDepth_nonneg (hinner.nested.part ht)
        unfold CodeOutside at hout
        rw [hcons] at hout
        omega
    · rcases r with - | ⟨y, r⟩
      · exact hclosing.2 (List.cons.inj hr).1.symm
      · cases hr
        exact hs.colon front r rfl hout

theorem Solid.templateArgs (hs : Solid s) (ha : TemplateArgs a) : Solid (s ++ a) := by
  rcases ha with rfl | ⟨inner, hinner, rfl⟩
  · rwa [List.append_nil]
  · exact hs.group (Or.inr rfl) hinner

theorem Solid.parameterList (hs : Solid s) (hp : ParameterList p) : Solid (s ++ p) := by
  obtain ⟨inner, hinner, rfl⟩ := hp
  exact hs.group (Or.inl rfl) hinner

/-- Two solid texts are two components. -/
theorem cut_pair (hm : Solid m) (hout : CodeOutside m) (hl : Solid l) :
    Cut 58 CodeOutside (m ++ 58 :: 58 :: l) [m, l] := by
  refine .cons ⟨hout, fun front back heq hfront => ?_⟩ (.last fun front back heq => hl.colon front (58 :: back) heq)
  -- a separator that begins before the end of `m` begins with a colon of `m`
  by_contra hlt
  rcases List.append_eq_append_iff.1 heq with ⟨r, rfl, hr⟩ | ⟨r, rfl, hr⟩
  · exact hlt (by simp)
  · rcases r with - | ⟨y, r⟩
    · exact hlt (by simp)
    · obtain ⟨rfl, -⟩ := List.cons.inj hr
      exact hm.colon front r rfl hfront

/-! ## Constructors -/

theorem isConstructor_single (h : load fuel s = some [l]) : isConstructor fuel s = some false := by
  rw [isConstructor, h]
  rfl

/-- The last two components decide. -/
theorem isConstructor_pair (h : load fuel s = some (cs ++ [m, l])) :
    isConstructor fuel s = some (removeArgs l == removeArgs m) := by
  have hlen : ¬ (cs ++ [m, l]).length < 2 := by simp
  have hlast : component (cs ++ [m, l]) (-1) = some l := by
    have hindex : (((cs ++ [m, l]).length : ℤ) + -1).toNat = cs.length + 1 := by
      rw [List.length_append, List.length_cons, List.length_singleton]
      omega
    unfold component
    rw [if_neg (by decide), hindex]
    simp
  have hclass : component (cs ++ [m, l]) (-2) = some m := by
    have hindex : (((cs ++ [m, l]).length : ℤ) + -2).toNat = cs.length := by
      rw [List.length_append, List.length_cons, List.length_singleton]
      omega
    unfold component
    rw [if_neg (by decide), hindex]
    simp
  rw [isConstructor, h]
  simp only [Option.bind_eq_bind, Option.bind_some, if_neg hlen, hlast, hclass]
  rfl

theorem memberName_none : memberName none c a₁ d a₂ p = c ++ a₁ ++ 58 :: 58 :: (d ++ a₂ ++ p) := by
  simp [memberName]

theorem memberName_some :
    memberName (some n) c a₁ d a₂ p = n ++ 58 :: 58 :: (c ++ a₁ ++ 58 :: 58 :: (d ++ a₂ ++ p)) := by
  simp [memberName]

/-- What is in front of the parameters. -/
theorem memberName_eq (scope : Option StdString) (c a₁ d a₂ p : StdString) :
    ∃ q, memberName scope c a₁ d a₂ p = q ++ p ∧
      (125 ∈ q ↔ (∃ n ∈ scope, 125 ∈ n) ∨ 125 ∈ c ++ a₁ ∨ 125 ∈ d ++ a₂) := by
  cases scope with
  | none => exact ⟨c ++ a₁ ++ 58 :: 58 :: (d ++ a₂), by simp [memberName], by simp [or_assoc]⟩
  | some n => exact ⟨n ++ 58 :: 58 :: (c ++ a₁ ++ 58 :: 58 :: (d ++ a₂)), by simp [memberName], by simp [or_assoc]⟩

theorem not_suffix_parameterList (hp : ParameterList p) (q : StdString) : ¬ [58, 58] <:+ q ++ p := by
  obtain ⟨inner, -, rfl⟩ := hp
  rintro ⟨front, hfront⟩
  have hlast := congrArg List.getLast? hfront
  rw [← List.cons_append, ← List.append_assoc, List.getLast?_concat,
    List.getLast?_append_of_ne_nil _ (List.cons_ne_nil _ _)]
    at hlast
  exact absurd (Option.some.inj hlast) (by decide)

/-- **Without a `}`** in front of it, the last component is compared with the class. -/
theorem isConstructor_members {scope : Option StdString} (hscope : ∀ n ∈ scope, Scope n) (hc : PlainIdentifier c)
    (hd : PlainIdentifier d) (ha₁ : TemplateArgs a₁) (ha₂ : TemplateArgs a₂) (hp : ParameterList p)
    (hcurlyScope : ∀ n ∈ scope, 125 ∉ n) (hcurly : 125 ∉ a₁)
    (hcut : Cut 58 CodeOutside (memberName scope c a₁ d a₂ p) cs)
    (hload : load fuel (memberName scope c a₁ d a₂ p) = some cs) :
    isConstructor fuel (memberName scope c a₁ d a₂ p) = some (d ++ a₂ == c) := by
  have hclass : CodeOutside (c ++ a₁) := by
    have hbalanced := (balanced_plain hc.bracket).append (balanced_templateArgs ha₁)
    refine (codeOutside_iff hbalanced.nested).2 ⟨hbalanced.outside, ?_⟩
    rw [List.mem_append, not_or]
    exact ⟨(hc.bracket .curly).2, hcurly⟩
  have hpair := cut_pair ((solid_plain hc).templateArgs ha₁) hclass
    (((solid_plain hd).templateArgs ha₂).parameterList hp)
  obtain ⟨cs₀, rfl⟩ : ∃ cs₀, cs = cs₀ ++ [c ++ a₁, d ++ a₂ ++ p] := by
    cases scope with
    | none =>
      rw [memberName_none] at hcut
      exact ⟨[], hcut.unique hpair⟩
    | some n =>
      rw [memberName_some] at hcut
      obtain ⟨hbalanced, hcolon⟩ := hscope n rfl
      have hout : CodeOutside n := (codeOutside_iff hbalanced.nested).2 ⟨hbalanced.outside, hcurlyScope n rfl⟩
      have hadd : ∀ u v, CodeOutside u → CodeOutside (u ++ 58 :: 58 :: v) → CodeOutside v := by
        intro u v hu huv
        have hstep : depthStep 58 = 0 := rfl
        unfold CodeOutside at hu huv ⊢
        rw [List.append_cons, List.append_cons, bracketDepth_append, bracketDepth_concat, bracketDepth_concat, hu,
          hstep] at huv
        omega
      obtain ⟨cs₁, cs₂, rfl, hrest⟩ := hcut.split hadd hout hcolon
      exact ⟨cs₁, by rw [hrest.unique hpair]⟩
  rw [isConstructor_pair hload, removeArgs_parameterList hp, removeArgs_templateArgs hc ha₁]

/-- Only the last component has a `}`. -/
theorem cut_last (h : Cut 58 CodeOutside s cs) (hn : Nested s) :
    ∃ cs₁ init l, cs = cs₁ ++ [l] ∧ s = init ++ l ∧ 125 ∉ init ∧ ∀ m ∈ cs₁, 125 ∉ m := by
  induction h with
  | @last s h => exact ⟨[], [], s, rfl, rfl, List.not_mem_nil, by simp⟩
  | @cons c rest cs h hrest ih =>
    obtain ⟨hc, hcurly⟩ := (codeOutside_iff (hn.part (List.prefix_append c _))).1 h.closed
    have hassoc : c ++ 58 :: 58 :: rest = (c ++ [58, 58]) ++ rest := by simp
    obtain ⟨cs₁, init, l, rfl, rfl, hinit, hall⟩ := ih ((hassoc ▸ hn).of_append (hc.append outside_separator))
    refine ⟨c :: cs₁, c ++ [58, 58] ++ init, l, rfl, by simp, ?_, List.forall_mem_cons.2 ⟨hcurly, hall⟩⟩
    simp [hcurly, hinit]

/-- **With a `}`** in front of the parameters, no function is a constructor. -/
theorem isConstructor_curly (hn : Nested (q ++ p)) (hp : ParameterList p) (hq : 125 ∈ q)
    (hcut : Cut 58 CodeOutside (q ++ p) cs) (hload : load fuel (q ++ p) = some cs) :
    isConstructor fuel (q ++ p) = some false := by
  obtain ⟨cs₁, init, l, rfl, heq, hinit, hall⟩ := cut_last hcut hn
  -- the `}` is in the last component
  obtain ⟨l', rfl, hl'⟩ : ∃ l', l = l' ++ p ∧ 125 ∈ l' := by
    rcases List.append_eq_append_iff.1 heq with ⟨r, rfl, -⟩ | ⟨r, rfl, hr⟩
    · exact absurd (List.mem_append_left r hq) hinit
    · refine ⟨r, hr, ?_⟩
      exact (List.mem_append.1 hq).resolve_left hinit
  rcases List.eq_nil_or_concat cs₁ with rfl | ⟨cs₀, m, rfl⟩
  · exact isConstructor_single hload
  · rw [List.concat_eq_append, List.append_assoc] at hload
    rw [isConstructor_pair hload, removeArgs_parameterList hp]
    -- what remains of the class has no `}`, and what remains of the member has one
    have hm : 125 ∉ m := hall m (by simp)
    have hne : l' ≠ removeArgs m := by
      intro h
      exact hm ((removeArgs_begins m).subset (h ▸ hl'))
    rw [beq_false_of_ne hne]

theorem Answers.unique {b b' : Bool} (h : Answers s b) (h' : Answers s b') : b = b' := by
  obtain ⟨turns, h⟩ := h
  obtain ⟨turns', h'⟩ := h'
  have hrun := h (turns + turns') (by omega)
  rw [h' (turns + turns') (by omega)] at hrun
  exact (Option.some.inj hrun).symm

theorem not_suffix_memberName (hp : ParameterList p) (scope : Option StdString) :
    ¬ [58, 58] <:+ memberName scope c a₁ d a₂ p := by
  obtain ⟨q, heq, -⟩ := memberName_eq scope c a₁ d a₂ p
  rw [heq]
  exact not_suffix_parameterList hp q

/-- **The answer** for a member of a class. -/
theorem answers_member {scope : Option StdString} (hscope : ∀ n ∈ scope, Scope n) (hc : PlainIdentifier c)
    (hd : PlainIdentifier d) (ha₁ : TemplateArgs a₁) (ha₂ : TemplateArgs a₂) (hp : ParameterList p)
    (hlen : (memberName scope c a₁ d a₂ p).length + 2 < 2 ^ 31) :
    ∃ b, Answers (memberName scope c a₁ d a₂ p) b ∧ (b = true ↔ d ++ a₂ = c ∧ (∀ n ∈ scope, 125 ∉ n) ∧ 125 ∉ a₁) := by
  have hne : memberName scope c a₁ d a₂ p ≠ [] := by simp [memberName]
  obtain ⟨cs, hcut, hload⟩ := load_cut hne (not_suffix_memberName hp scope) hlen
  by_cases hcurly : (∀ n ∈ scope, 125 ∉ n) ∧ 125 ∉ a₁
  · refine ⟨d ++ a₂ == c, ⟨(memberName scope c a₁ d a₂ p).length + 1, ?_⟩, ?_⟩
    · intro fuel hfuel
      exact isConstructor_members hscope hc hd ha₁ ha₂ hp hcurly.1 hcurly.2 hcut (hload fuel hfuel)
    · rw [beq_iff_eq]
      exact ⟨fun h => ⟨h, hcurly⟩, And.left⟩
  · have hnot : ¬ (d ++ a₂ = c ∧ (∀ n ∈ scope, 125 ∉ n) ∧ 125 ∉ a₁) := fun h => hcurly h.2
    have hfalse : false = true ↔ d ++ a₂ = c ∧ (∀ n ∈ scope, 125 ∉ n) ∧ 125 ∉ a₁ :=
      ⟨fun h => absurd h Bool.false_ne_true, fun h => absurd h hnot⟩
    refine ⟨false, ⟨(memberName scope c a₁ d a₂ p).length + 1, fun fuel hfuel => ?_⟩, hfalse⟩
    obtain ⟨q, heq, hq⟩ := memberName_eq scope c a₁ d a₂ p
    have hmem : 125 ∈ q := by
      rw [hq]
      by_contra hnot
      rw [not_or, not_or, List.mem_append, not_or] at hnot
      exact hcurly ⟨fun n hn hmem => hnot.1 ⟨n, hn, hmem⟩, hnot.2.1.2⟩
    have hnested := (balanced_memberName hscope hc hd ha₁ ha₂ hp).nested
    have hrun := hload fuel hfuel
    rw [heq] at hcut hrun hnested ⊢
    exact isConstructor_curly hnested hp hmem hcut hrun

/-- A name that is too long has no components. -/
theorem not_answers_member {b : Bool} (hp : ParameterList p) {scope : Option StdString}
    (hlong : ¬ (memberName scope c a₁ d a₂ p).length + 2 < 2 ^ 31) : ¬ Answers (memberName scope c a₁ d a₂ p) b := by
  rintro ⟨turns, h⟩
  have hrun := h turns (le_refl _)
  rw [isConstructor, load_long (not_suffix_memberName hp scope) (by omega)] at hrun
  cases hrun

/-- A name with arguments is no other name. -/
theorem append_templateArgs_eq_iff (hc : PlainIdentifier c) (ha : TemplateArgs a) : d ++ a = c ↔ d = c ∧ a = [] := by
  constructor
  · intro h
    have hnil : a = [] := by
      rcases ha with ha | ⟨inner, -, rfl⟩
      · exact ha
      · exact absurd (h ▸ List.mem_append_right d List.mem_cons_self) (hc.bracket .angle).1
    subst hnil
    exact ⟨by rwa [List.append_nil] at h, rfl⟩
  · rintro ⟨rfl, rfl⟩
    exact List.append_nil d

/-- **When constructors are recognised**: the constructor has no template arguments, no `}` stands in front of it, and
the name has at most `2 ^ 31 - 3` characters. Other members are not taken for constructors if their names are no longer
than that. -/
theorem isConstructor_iff {scope : Option StdString} (hscope : ∀ n ∈ scope, Scope n) (hc : PlainIdentifier c)
    (ha₁ : TemplateArgs a₁) (ha₂ : TemplateArgs a₂) (hp : ParameterList p) :
    (Answers (memberName scope c a₁ c a₂ p) true ↔
      a₂ = [] ∧ (∀ n ∈ scope, 125 ∉ n) ∧ 125 ∉ a₁ ∧ (memberName scope c a₁ c a₂ p).length + 2 < 2 ^ 31) ∧
    ∀ d, PlainIdentifier d → c ≠ d →
      (Answers (memberName scope c a₁ d a₂ p) false ↔ (memberName scope c a₁ d a₂ p).length + 2 < 2 ^ 31) := by
  constructor
  · constructor
    · intro h
      have hlen : (memberName scope c a₁ c a₂ p).length + 2 < 2 ^ 31 := by
        by_contra hlong
        exact not_answers_member hp hlong h
      obtain ⟨b, hb, hiff⟩ := answers_member hscope hc hc ha₁ ha₂ hp hlen
      obtain ⟨hname, hcurlyScope, hcurly⟩ := hiff.1 (hb.unique h)
      exact ⟨((append_templateArgs_eq_iff hc ha₂).1 hname).2, hcurlyScope, hcurly, hlen⟩
    · rintro ⟨hnil, hcurlyScope, hcurly, hlen⟩
      obtain ⟨b, hb, hiff⟩ := answers_member hscope hc hc ha₁ ha₂ hp hlen
      have htrue : b = true := hiff.2 ⟨(append_templateArgs_eq_iff hc ha₂).2 ⟨rfl, hnil⟩, hcurlyScope, hcurly⟩
      exact htrue ▸ hb
  · intro d hd hne
    constructor
    · intro h
      by_contra hlong
      exact not_answers_member hp hlong h
    · intro hlen
      obtain ⟨b, hb, hiff⟩ := answers_member hscope hc hd ha₁ ha₂ hp hlen
      have hfalse : b = false := by
        rw [Bool.eq_false_iff]
        intro htrue
        exact hne ((append_templateArgs_eq_iff hc ha₂).1 (hiff.1 htrue).1).1.symm
      exact hfalse ▸ hb

/-- A constructor of a class template, and another member. -/
theorem vector_isConstructor :
    Answers (memberName none (text "v") (text "<a::b>") (text "v") [] (text "(int)")) true ∧
      Answers (memberName none (text "v") (text "<a::b>") (text "f") [] (text "(int)")) false := by
  have hnone : ∀ n ∈ (none : Option StdString), Scope n := by simp
  have hv : PlainIdentifier (text "v") := ⟨by decide, by decide, by decide⟩
  have hf : PlainIdentifier (text "f") := ⟨by decide, by decide, by decide⟩
  have hargs : TemplateArgs (text "<a::b>") := Or.inr ⟨text "a::b", by decide, rfl⟩
  have hint : ParameterList (text "(int)") := ⟨text "int", by decide, rfl⟩
  obtain ⟨hself, hother⟩ := isConstructor_iff hnone hv hargs (Or.inl rfl) hint
  exact ⟨hself.2 ⟨rfl, by simp, by decide, by decide⟩, (hother _ hf (by decide)).2 (by decide)⟩

/-- A constructor with template arguments of its own. -/
theorem templateConstructor_not_recognised : ¬ ∀ (scope : Option StdString) (c a₁ a₂ p : StdString),
    (∀ n ∈ scope, Scope n) → PlainIdentifier c → TemplateArgs a₁ → TemplateArgs a₂ → ParameterList p →
      Answers (memberName scope c a₁ c a₂ p) true := by
  intro h
  have hv : PlainIdentifier (text "v") := ⟨by decide, by decide, by decide⟩
  have hargs : TemplateArgs (text "<int>") := Or.inr ⟨text "int", by decide, rfl⟩
  have hint : ParameterList (text "(int)") := ⟨text "int", by decide, rfl⟩
  have hnone : ∀ n ∈ (none : Option StdString), Scope n := by simp
  have htrue := h none _ [] _ _ hnone hv (Or.inl rfl) hargs hint
  obtain ⟨b, hb, hiff⟩ := answers_member hnone hv hv (Or.inl rfl) hargs hint (by decide)
  exact absurd (hiff.1 (hb.unique htrue)).1 (by decide)

end Caf.Symbol
