import Mathlib.Data.List.Forall2
import Mathlib.Data.List.Nodup
import Mathlib.Data.List.Perm.Subperm
import Caf.Spec.Store

/-!
# Functions of the store

Every entry of the trie has its own path, and a function is kept at the path of its name's
components. Names are lost when they have the same components: a trailing dot does that.

* `splitOn_eq_components`: what `AddFunction` makes of a name.
* `components_inj_iff`: the names that share their components.
* `addFunction_ok`: adding a function keeps the trie.
* `loaded_iff`: the names that a store keeps.
-/

namespace Caf

open ObjectGraph (getElem?_concat getElem?_grows)

/-! ## Components -/

variable {x y c rest : StdString}

/-- Enough turns are enough. -/
theorem splitName_eq {n : ℕ} (h : x.length ≤ n) : splitName n x = components x := by
  induction n using Nat.strongRecOn generalizing x with
  | _ n ih =>
  rcases x with _ | ⟨b, x⟩
  · cases n <;> rfl
  · obtain ⟨n, rfl⟩ : ∃ m, n = m + 1 := ⟨n - 1, by simp at h; omega⟩
    have hlen : ∀ d : ℕ, ((b :: x).drop (d + 1)).length ≤ x.length := by
      intro d
      rw [List.length_drop, List.length_cons]
      omega
    have hx : x.length ≤ n := by simpa using h
    simp only [components, List.length_cons, splitName, List.isEmpty_cons, Bool.false_eq_true, if_false]
    rw [ih n (Nat.lt_succ_self n) (Nat.le_trans (hlen _) hx)]
    rcases Nat.lt_or_ge x.length (n + 1) with hlt | hge
    · rw [ih x.length hlt (hlen _)]
    · omega

@[simp] theorem components_nil : components [] = [] := rfl

theorem takeWhile_append (h : separator ∉ c) (rest : StdString) :
    (c ++ rest).takeWhile (· != separator) = c ++ rest.takeWhile (· != separator) := by
  refine List.takeWhile_append_of_pos fun b hb => ?_
  simp only [bne_iff_ne, ne_eq]
  rintro rfl
  exact h hb

/-- A name without dots is one component. -/
theorem components_of_not_mem (h : separator ∉ x) (hx : x ≠ []) : components x = [x] := by
  obtain ⟨b, x, rfl⟩ := List.exists_cons_of_ne_nil hx
  have htake := takeWhile_append h []
  rw [List.append_nil, List.takeWhile_nil, List.append_nil] at htake
  have hdrop : (b :: x).drop ((b :: x).length + 1) = [] := List.drop_eq_nil_of_le (Nat.le_succ _)
  have hrest : splitName x.length [] = [] := splitName_eq (Nat.zero_le _)
  simp only [components, List.length_cons, splitName, List.isEmpty_cons, Bool.false_eq_true, if_false, htake] at hdrop ⊢
  rw [hdrop, hrest]

/-- The first dot ends the first component. -/
theorem components_append_cons (h : separator ∉ c) :
    components (c ++ separator :: rest) = c :: components rest := by
  have htake : (c ++ separator :: rest).takeWhile (· != separator) = c := by
    rw [takeWhile_append h]
    simp
  have hdrop : (c ++ separator :: rest).drop (c.length + 1) = rest := by
    rw [← List.drop_drop, List.drop_left]
    rfl
  have hempty : (c ++ separator :: rest).isEmpty = false := by cases c <;> rfl
  obtain ⟨n, hn⟩ : ∃ n, (c ++ separator :: rest).length = n + 1 := ⟨c.length + rest.length, by simp; omega⟩
  have hle : rest.length ≤ n := by
    rw [List.length_append, List.length_cons] at hn
    omega
  simp only [components, hn, splitName, hempty, Bool.false_eq_true, if_false, htake, hdrop]
  rw [splitName_eq hle]
  rfl

/-- A name is empty, has no dot, or has a first one. -/
theorem name_cases (x : StdString) :
    x = [] ∨ (x ≠ [] ∧ separator ∉ x) ∨ ∃ c rest, separator ∉ c ∧ x = c ++ separator :: rest := by
  by_cases hx : x = []
  · exact .inl hx
  by_cases hm : separator ∈ x
  · obtain ⟨c, rest, rfl, hc⟩ := List.eq_append_cons_of_mem hm
    exact .inr (.inr ⟨c, rest, hc, rfl⟩)
  · exact .inr (.inl ⟨hx, hm⟩)

/-- The components joined by dots. -/
def joinComponents : List StdString → StdString
  | [] => []
  | [c] => c
  | c :: cs => c ++ separator :: joinComponents cs

/-- A name is its components joined by dots, up to a dot at its end. -/
theorem eq_join (x : StdString) :
    x = joinComponents (components x) ∨ x = joinComponents (components x) ++ [separator] := by
  induction hn : x.length using Nat.strongRecOn generalizing x with
  | _ n ih =>
  rcases name_cases x with rfl | ⟨hx, hm⟩ | ⟨c, rest, hc, rfl⟩
  · exact .inl rfl
  · rw [components_of_not_mem hm hx]
    exact .inl rfl
  · rw [components_append_cons hc]
    have hlt : rest.length < n := by
      rw [← hn, List.length_append, List.length_cons]
      omega
    rcases hrest : components rest with _ | ⟨d, ds⟩
    · have hnil := ih _ hlt rest rfl
      rw [hrest] at hnil
      rcases name_cases rest with rfl | ⟨hx, hm⟩ | ⟨c', rest', hc', rfl⟩
      · exact .inr rfl
      · rw [components_of_not_mem hm hx] at hrest
        cases hrest
      · rw [components_append_cons hc'] at hrest
        cases hrest
    · have hcs := ih _ hlt rest rfl
      rw [hrest] at hcs
      rcases hcs with hcs | hcs
      · exact .inl (congrArg (c ++ separator :: ·) hcs)
      · refine .inr ?_
        show c ++ separator :: rest = c ++ separator :: joinComponents (d :: ds) ++ [separator]
        rw [List.append_assoc, List.cons_append, ← hcs]

/-- **What the loop leaves out** is an empty component at the end. -/
theorem splitOn_eq_components (x : StdString) :
    (x.splitOn separator = components x ∧ (components x).getLast? ≠ some []) ∨
      x.splitOn separator = components x ++ [[]] := by
  induction hn : x.length using Nat.strongRecOn generalizing x with
  | _ n ih =>
  rcases name_cases x with rfl | ⟨hx, hm⟩ | ⟨c, rest, hc, rfl⟩
  · exact .inr rfl
  · left
    rw [List.splitOn_eq_singleton hm, components_of_not_mem hm hx]
    exact ⟨rfl, fun hlast => hx (Option.some.inj hlast)⟩
  · have hlt : rest.length < n := by
      rw [← hn, List.length_append, List.length_cons]
      omega
    rw [List.splitOn_append_cons_self_of_not_mem hc, components_append_cons hc, List.cons_append,
      List.cons_inj_right, List.cons_inj_right]
    apply (ih _ hlt rest rfl).imp_left
    rintro ⟨heq, hlast⟩
    refine ⟨heq, ?_⟩
    have hne : components rest ≠ [] := heq ▸ List.splitOn_ne_nil _ _
    rwa [List.getLast?_cons_of_ne_nil hne]

/-- A name that is not empty and does not end in a dot. -/
def Closed (x : StdString) : Prop := x ≠ [] ∧ x.getLast? ≠ some separator

theorem getLast?_rest (hrest : rest ≠ []) : (c ++ separator :: rest).getLast? = rest.getLast? := by
  rw [show c ++ separator :: rest = (c ++ [separator]) ++ rest by simp, List.getLast?_append_of_ne_nil _ hrest]

/-- A dot at the end is lost, ... -/
theorem components_dot (h : Closed x) : components (x ++ [separator]) = components x := by
  induction hn : x.length using Nat.strongRecOn generalizing x with
  | _ n ih =>
  rcases name_cases x with rfl | ⟨hx, hm⟩ | ⟨c, rest, hc, rfl⟩
  · exact absurd rfl h.1
  · rw [components_of_not_mem hm hx, components_append_cons hm, components_nil]
  · have hlt : rest.length < n := by
      rw [← hn, List.length_append, List.length_cons]
      omega
    have hrest : Closed rest := by
      have hlast := h.2
      by_cases hne : rest = []
      · subst hne
        simp at hlast
      · exact ⟨hne, by rwa [getLast?_rest hne] at hlast⟩
    rw [List.append_assoc, List.cons_append, components_append_cons hc, components_append_cons hc,
      ih _ hlt hrest rfl]

/-- ... except behind another one or alone. -/
theorem components_dot_ne (h : ¬ Closed x) : components (x ++ [separator]) = components x ++ [[]] := by
  induction hn : x.length using Nat.strongRecOn generalizing x with
  | _ n ih =>
  rcases name_cases x with rfl | ⟨hx, hm⟩ | ⟨c, rest, hc, rfl⟩
  · rfl
  · refine absurd ⟨hx, fun hlast => ?_⟩ h
    exact hm (List.mem_of_getLast? hlast)
  · have hlt : rest.length < n := by
      rw [← hn, List.length_append, List.length_cons]
      omega
    have hrest : ¬ Closed rest := by
      rintro ⟨hne, hlast⟩
      exact h ⟨by simp, by rwa [getLast?_rest hne]⟩
    rw [List.append_assoc, List.cons_append, components_append_cons hc, components_append_cons hc,
      ih _ hlt hrest rfl, List.cons_append]

/-- **Names with the same components** differ by a dot at the end. -/
theorem components_inj_iff (hne : x ≠ y) :
    components x = components y ↔ (Closed x ∧ y = x ++ [separator]) ∨ (Closed y ∧ x = y ++ [separator]) := by
  have key : ∀ z : StdString, components z = components (z ++ [separator]) → Closed z := by
    intro z hz
    by_contra hcl
    rw [components_dot_ne hcl] at hz
    have := congrArg List.length hz
    rw [List.length_append, List.length_singleton] at this
    omega
  constructor
  · intro h
    rcases eq_join x with hx | hx <;> rcases eq_join y with hy | hy <;> rw [h] at hx
    · exact absurd (hx.trans hy.symm) hne
    · rw [← hx] at hy
      subst hy
      exact .inl ⟨key x h, rfl⟩
    · rw [← hy] at hx
      subst hx
      exact .inr ⟨key y h.symm, rfl⟩
    · exact absurd (hx.trans hy.symm) hne
  · rintro (⟨hx, rfl⟩ | ⟨hy, rfl⟩)
    · exact (components_dot hx).symm
    · exact components_dot hy

/-! ## The trie -/

/-- Every entry has its own path, whose parts have entries, and the children of an entry continue
its path. -/
structure TrieOK (s : CAFStore) (paths : List (List StdString)) : Prop where
  length : paths.length = s.entries.length
  nodup : paths.Nodup
  root : paths[0]? = some []
  parent : ∀ p c, p ++ [c] ∈ paths → p ∈ paths
  order : ∀ {n k : ℕ} (p : List StdString) (c : StdString), paths[n]? = some p → paths[k]? = some (p ++ [c]) → n < k
  child : ∀ {n : ℕ} {p : List StdString} (c : StdString) (k : ℕ), paths[n]? = some p →
    (s.child n c = some k ↔ paths[k]? = some (p ++ [c]))

namespace CAFStore

variable {s s' s₁ : CAFStore} {paths paths' paths₁ : List (List StdString)} {n : ℕ} {p : List StdString}

theorem modifyEntry_get (s : CAFStore) (n m : ℕ) (f : Entry → Entry) :
    (s.modifyEntry n f).entries[m]? = if n = m then s.entries[m]?.map f else s.entries[m]? := by
  simp only [modifyEntry, List.getElem?_modify]
  by_cases h : n = m
  · simp [h]
  · simp [h]

/-- A change that keeps a part of every entry keeps that part of all entries. -/
theorem modifyEntry_part {α : Type} (g : Entry → α) {f : Entry → Entry} (hf : ∀ e, g (f e) = g e) (m : ℕ) :
    (s.modifyEntry n f).entries[m]?.map g = s.entries[m]?.map g := by
  rw [modifyEntry_get]
  by_cases h : n = m
  · rw [if_pos h, Option.map_map]
    exact congrArg (fun k => Option.map k s.entries[m]?) (funext hf)
  · rw [if_neg h]

theorem child_eq (m : ℕ) (c : StdString) :
    s.child m c = (s.entries[m]?.map (·.children)).bind (·.lookup c) := by
  simp only [child, Entry.getChild]
  cases s.entries[m]? <;> rfl

theorem func_eq (m : ℕ) : s.func m = (s.entries[m]?.map (·.func)).bind id := by
  simp only [func]
  cases s.entries[m]? <;> rfl

/-- The trie does not depend on functions and descendents. -/
theorem trieOK_of_children (h : TrieOK s paths) (hl : s'.entries.length = s.entries.length)
    (hc : ∀ m : ℕ, s'.entries[m]?.map (·.children) = s.entries[m]?.map (·.children)) : TrieOK s' paths := by
  refine ⟨h.length.trans hl.symm, h.nodup, h.root, h.parent, h.order, fun {m q} c k hm => ?_⟩
  rw [child_eq, hc, ← child_eq]
  exact h.child c k hm

/-- What entering a child leaves: more entries without functions. -/
structure Entered (s : CAFStore) (paths : List (List StdString)) (s' : CAFStore)
    (paths' : List (List StdString)) : Prop where
  ok : TrieOK s' paths'
  paths : paths <+: paths'
  ids : s'.funcIdToEntry = s.funcIdToEntry
  func : ∀ m, s'.func m = s.func m
  descendents : ∀ m, s'.descendents m = s.descendents m

theorem Entered.refl (h : TrieOK s paths) : Entered s paths s paths :=
  ⟨h, List.prefix_refl _, rfl, fun _ => rfl, fun _ => rfl⟩

theorem Entered.trans (h : Entered s paths s₁ paths₁) (h' : Entered s₁ paths₁ s' paths') :
    Entered s paths s' paths' :=
  ⟨h'.ok, h.paths.trans h'.paths, h'.ids.trans h.ids, fun m => (h'.func m).trans (h.func m),
    fun m => (h'.descendents m).trans (h.descendents m)⟩

theorem path_lt (h : TrieOK s paths) (hn : paths[n]? = some p) : n < s.entries.length :=
  h.length ▸ (List.getElem?_eq_some_iff.1 hn).1

/-- Different entries have different paths. -/
theorem path_inj {m : ℕ} (h : TrieOK s paths) (hn : paths[n]? = some p) (hm : paths[m]? = some p) : n = m :=
  (List.getElem?_inj (List.getElem?_eq_some_iff.1 hn).1 h.nodup).1 (hn.trans hm.symm)

/-- The entry that is created for a component. -/
theorem createChild_get {c : StdString} (h : TrieOK s paths) (hn : paths[n]? = some p)
    (hc : s.child n c = none) (m : ℕ) :
    ((s.createEntry.2).modifyEntry n (·.addChild c s.entries.length)).entries[m]? =
      if n = m then s.entries[m]?.map (fun e => { e with children := e.children ++ [(c, s.entries.length)] })
      else (s.entries ++ [.new])[m]? := by
  rw [modifyEntry_get]
  by_cases hm : n = m
  · subst hm
    have hlt := path_lt h hn
    rw [if_pos rfl, if_pos rfl]
    simp only [createEntry, List.getElem?_append_left hlt, List.getElem?_eq_getElem hlt, Option.map_some,
      Option.some.injEq]
    simp only [child, List.getElem?_eq_getElem hlt, Option.bind_some] at hc
    rw [Entry.addChild, hc]
    rfl
  · rw [if_neg hm, if_neg hm]
    rfl

/-- One entry more is a new one. -/
theorem getElem?_concat_new (entries : List Entry) (m : ℕ) :
    (entries ++ [.new])[m]? = entries[m]? ∨ entries[m]? = none ∧ (entries ++ [.new])[m]? = some .new := by
  rcases Nat.lt_trichotomy m entries.length with hlt | rfl | hgt
  · exact .inl (List.getElem?_append_left hlt)
  · exact .inr ⟨List.getElem?_eq_none (Nat.le_refl _), List.getElem?_concat_length⟩
  · left
    rw [List.getElem?_eq_none (by simp; omega), List.getElem?_eq_none (by omega)]

/-- The children after an entry has been created for the component `c` of `n`. -/
theorem createChild_child {c : StdString} (h : TrieOK s paths) (hn : paths[n]? = some p)
    (hc : s.child n c = none) (m : ℕ) (d : StdString) :
    ((s.createEntry.2).modifyEntry n (·.addChild c s.entries.length)).child m d =
      if n = m ∧ c = d then some s.entries.length else s.child m d := by
  rw [child, createChild_get h hn hc]
  by_cases hm : n = m
  · subst hm
    have hlt := path_lt h hn
    simp only [child, Entry.getChild, List.getElem?_eq_getElem hlt, Option.bind_some] at hc
    simp only [if_pos, child, Entry.getChild, List.getElem?_eq_getElem hlt, Option.map_some, Option.bind_some,
      List.lookup_append, true_and]
    by_cases hcd : c = d
    · subst hcd
      simp [hc]
    · have hdc : (d == c) = false := beq_false_of_ne (Ne.symm hcd)
      rw [if_neg hcd, List.lookup_cons, hdc]
      exact Option.or_none
  · rw [if_neg hm, if_neg (fun h => hm h.1), child]
    rcases getElem?_concat_new s.entries m with heq | ⟨hnone, hnew⟩
    · rw [heq]
    · rw [hnone, hnew]
      rfl

/-- A new entry has no function, and its parent keeps its own. -/
theorem createChild_func {c : StdString} (h : TrieOK s paths) (hn : paths[n]? = some p)
    (hc : s.child n c = none) (m : ℕ) :
    ((s.createEntry.2).modifyEntry n (·.addChild c s.entries.length)).func m = s.func m := by
  rw [func, createChild_get h hn hc]
  by_cases hm : n = m
  · rw [if_pos hm, func]
    cases s.entries[m]? <;> rfl
  · rw [if_neg hm, func]
    rcases getElem?_concat_new s.entries m with heq | ⟨hnone, hnew⟩
    · rw [heq]
    · rw [hnone, hnew]
      rfl

theorem createChild_descendents {c : StdString} (h : TrieOK s paths) (hn : paths[n]? = some p)
    (hc : s.child n c = none) (m : ℕ) :
    ((s.createEntry.2).modifyEntry n (·.addChild c s.entries.length)).descendents m = s.descendents m := by
  rw [descendents, createChild_get h hn hc]
  by_cases hm : n = m
  · rw [if_pos hm, descendents, Option.map_map]
    rfl
  · rw [if_neg hm, descendents]
    rcases getElem?_concat_new s.entries m with heq | ⟨hnone, hnew⟩
    · rw [heq]
    · rw [hnone, hnew]
      rfl

/-- **A new entry** takes the path of its component. -/
theorem createChild_ok {c : StdString} (h : TrieOK s paths) (hn : paths[n]? = some p)
    (hc : s.child n c = none) :
    Entered s paths ((s.createEntry.2).modifyEntry n (·.addChild c s.entries.length)) (paths ++ [p ++ [c]]) := by
  have hnew : p ++ [c] ∉ paths := by
    intro hm
    obtain ⟨k, hk⟩ := List.getElem?_of_mem hm
    rw [(h.child c k hn).2 hk] at hc
    cases hc
  have hlt := path_lt h hn
  refine ⟨⟨?_, ?_, ?_, fun q d hq => ?_, fun {m k} q d hm hk => ?_, fun {m q} d k hm => ?_⟩,
    List.prefix_append _ _, rfl, createChild_func h hn hc, createChild_descendents h hn hc⟩
  · simp [modifyEntry, createEntry, h.length]
  · exact List.nodup_append.2 ⟨h.nodup, by simp, fun a ha b hb => by
      rw [List.mem_singleton] at hb
      rintro rfl
      exact hnew (hb ▸ ha)⟩
  · exact (List.getElem?_append_left (List.getElem?_eq_some_iff.1 h.root).1).trans h.root
  · -- the parent of the new path is the path of `n`
    rcases List.mem_append.1 hq with hq | hq
    · exact List.mem_append_left _ (h.parent q d hq)
    · obtain ⟨rfl, -⟩ := List.append_inj' (List.mem_singleton.1 hq) rfl
      exact List.mem_append_left _ (List.mem_of_getElem? hn)
  · rcases getElem?_concat hk with hk | ⟨rfl, hqd⟩
    · rcases getElem?_concat hm with hm | ⟨-, rfl⟩
      · exact h.order q d hm hk
      · exact absurd (h.parent _ _ (List.mem_of_getElem? hk)) hnew
    · rcases getElem?_concat hm with hm | ⟨-, rfl⟩
      · exact (List.getElem?_eq_some_iff.1 hm).1
      · have := congrArg List.length hqd
        simp at this
  · rw [createChild_child h hn hc]
    have hlast : (paths ++ [p ++ [c]])[s.entries.length]? = some (p ++ [c]) := by
      rw [← h.length]
      exact List.getElem?_concat_length
    by_cases hnew' : n = m ∧ c = d
    · -- the child that was created
      obtain ⟨rfl, rfl⟩ := hnew'
      obtain rfl : p = q := by
        rw [List.getElem?_append_left (h.length ▸ hlt), hn] at hm
        exact Option.some.inj hm
      rw [if_pos ⟨rfl, rfl⟩]
      refine ⟨fun hk => Option.some.inj hk ▸ hlast, fun hk => ?_⟩
      rcases getElem?_concat hk with hk | ⟨rfl, -⟩
      · exact absurd (List.mem_of_getElem? hk) hnew
      · rw [h.length]
    · rw [if_neg hnew']
      rcases getElem?_concat hm with hm | ⟨rfl, rfl⟩
      · -- a child of an entry that was there
        rw [h.child d k hm]
        refine ⟨getElem?_grows (List.prefix_append _ _), fun hk => ?_⟩
        rcases getElem?_concat hk with hk | ⟨-, he⟩
        · exact hk
        · obtain ⟨hqp, hdc⟩ := List.append_inj' he rfl
          obtain ⟨hn', -⟩ := List.getElem?_eq_some_iff.1 hn
          rw [hqp] at hm
          refine absurd ⟨?_, (List.singleton_inj.1 hdc).symm⟩ hnew'
          exact (List.getElem?_inj hn' h.nodup).1 (hn.trans hm.symm)
      · -- the new entry has no children
        have hnone : s.child paths.length d = none := by
          rw [child, h.length, List.getElem?_eq_none (Nat.le_refl _)]
          rfl
        rw [hnone]
        refine ⟨(fun hk => by cases hk), fun hk => ?_⟩
        rcases getElem?_concat hk with hk | ⟨-, he⟩
        · exact absurd (h.parent _ _ (List.mem_of_getElem? hk)) hnew
        · have := congrArg List.length he
          simp at this

theorem enterChild_ok (h : TrieOK s paths) (hn : paths[n]? = some p) (c : StdString) :
    ∃ paths', Entered s paths (s.enterChild n c).2 paths' ∧ paths'[(s.enterChild n c).1]? = some (p ++ [c]) ∧
      (paths' = paths ∨ paths' = paths ++ [p ++ [c]]) := by
  unfold enterChild
  split
  · rename_i k hk
    exact ⟨paths, .refl h, (h.child c k hn).1 hk, .inl rfl⟩
  · rename_i hnone
    refine ⟨_, createChild_ok h hn hnone, ?_, .inr rfl⟩
    show (paths ++ [p ++ [c]])[s.entries.length]? = some (p ++ [c])
    rw [← h.length]
    exact List.getElem?_concat_length

/-- **Entering a path** leads to the node with that path, through the nodes with its parts. -/
theorem enterPath_ok (h : TrieOK s paths) (hn : paths[n]? = some p) (cs : List StdString) :
    ∃ path node s' paths', enterPath cs n s = (path, node, s') ∧ Entered s paths s' paths' ∧
      paths'[node]? = some (p ++ cs) ∧
      (∀ m, m ∈ path ↔ ∃ q, paths'[m]? = some q ∧ p <+: q ∧ q <+: p ++ cs) ∧
      ∀ k q, paths.length ≤ k → paths'[k]? = some q → q <+: p ++ cs := by
  induction cs generalizing s paths n p with
  | nil =>
    refine ⟨_, _, _, paths, rfl, .refl h, by rw [List.append_nil]; exact hn, fun m => ?_, fun k q hk hq => ?_⟩
    swap
    · exact absurd (List.getElem?_eq_some_iff.1 hq).1 (Nat.not_lt.2 hk)
    rw [List.mem_singleton, List.append_nil]
    constructor
    · rintro rfl
      exact ⟨p, hn, List.prefix_refl _, List.prefix_refl _⟩
    · rintro ⟨q, hq, hpq, hqp⟩
      obtain rfl := hpq.eq_of_length (Nat.le_antisymm hpq.length_le hqp.length_le)
      exact path_inj h hq hn
  | cons c cs ih =>
    obtain ⟨paths₁, he₁, hn₁, hnew⟩ := enterChild_ok h hn c
    obtain ⟨path, node, s', paths', hp, he₂, hnode, hpath, hcreated⟩ := ih he₁.ok hn₁
    have happend : p ++ [c] ++ cs = p ++ c :: cs := by rw [List.append_assoc, List.singleton_append]
    rw [happend] at hnode hpath hcreated
    have hn' : paths'[n]? = some p := getElem?_grows (he₁.paths.trans he₂.paths) hn
    refine ⟨n :: path, node, s', paths', ?_, he₁.trans he₂, hnode, fun m => ?_, fun k q hk hq => ?_⟩
    · rw [enterPath]
      simp only [hp]
    · rw [List.mem_cons, hpath]
      constructor
      · rintro (rfl | ⟨q, hq, hpq, hqp⟩)
        · exact ⟨p, hn', List.prefix_refl _, List.prefix_append _ _⟩
        · exact ⟨q, hq, (List.prefix_append _ _).trans hpq, hqp⟩
      · rintro ⟨q, hq, ⟨r, rfl⟩, hqp⟩
        rcases r with - | ⟨d, r⟩
        · rw [List.append_nil] at hq
          exact .inl (path_inj he₂.ok hq hn')
        · -- a longer path starts with the child that was entered
          obtain ⟨rfl, -⟩ := List.cons_prefix_cons.1 ((List.prefix_append_right_inj p).1 hqp)
          refine .inr ⟨p ++ d :: r, hq, ⟨r, ?_⟩, hqp⟩
          rw [List.append_assoc, List.singleton_append]
    · rcases Nat.lt_or_ge k paths₁.length with hlt | hge
      · rcases hnew with rfl | rfl
        · exact absurd hlt (Nat.not_lt.2 hk)
        · -- the new child
          have hk' : k = paths.length := by
            rw [List.length_append, List.length_singleton] at hlt
            omega
          subst hk'
          have hq' := getElem?_grows he₂.paths (List.getElem?_concat_length (l := paths) (a := p ++ [c]))
          rw [hq'] at hq
          rw [← Option.some.inj hq, ← happend]
          exact List.prefix_append _ _
      · exact hcreated k q hge hq

/-- What `AddFunction` leaves: the function at the node of its components. -/
structure Added (s : CAFStore) (paths : List (List StdString)) (f : Function) (s' : CAFStore)
    (paths' : List (List StdString)) (node : ℕ) : Prop where
  ok : TrieOK s' paths'
  created : ∀ k q, paths.length ≤ k → paths'[k]? = some q → q <+: components f.name
  paths : paths <+: paths'
  atNode : paths'[node]? = some (components f.name)
  func : ∀ m, s'.func m = if m = node then some f else s.func m
  ids : s'.funcIdToEntry =
    if (s.funcIdToEntry.lookup f.id).isSome then s.funcIdToEntry else s.funcIdToEntry ++ [(f.id, node)]
  descendents : ∀ m d, d ∈ s'.descendents m ↔
    d ∈ s.descendents m ∨ d = node ∧ ∃ p, paths'[m]? = some p ∧ p <+: components f.name

/-- Registering a node with one entry. -/
theorem mem_descendents_add (s : CAFStore) {n : ℕ} (hn : n < s.entries.length) (node m d : ℕ) :
    d ∈ (s.modifyEntry n (·.addDescendent node)).descendents m ↔ d ∈ s.descendents m ∨ d = node ∧ m = n := by
  rw [CAFStore.descendents, modifyEntry_get, CAFStore.descendents]
  by_cases hm : n = m
  · subst hm
    rw [if_pos rfl, Option.map_map, List.getElem?_eq_getElem hn]
    simp [Entry.addDescendent]
  · rw [if_neg hm]
    simp [Ne.symm hm]

/-- Registering a node with the entries of a path. -/
theorem addDescendents_ok {path : List ℕ} (node : ℕ) {s : CAFStore} (hpath : ∀ n ∈ path, n < s.entries.length) :
    let s' := path.foldl (fun s p => s.modifyEntry p (·.addDescendent node)) s
    s'.entries.length = s.entries.length ∧ s'.funcIdToEntry = s.funcIdToEntry ∧
      (∀ m : ℕ, s'.entries[m]?.map (·.children) = s.entries[m]?.map (·.children)) ∧
      (∀ m : ℕ, s'.entries[m]?.map (·.func) = s.entries[m]?.map (·.func)) ∧
      ∀ m d, d ∈ s'.descendents m ↔ d ∈ s.descendents m ∨ d = node ∧ m ∈ path := by
  induction path generalizing s with
  | nil => exact ⟨rfl, rfl, fun _ => rfl, fun _ => rfl, fun _ _ => by simp⟩
  | cons p path ih =>
    have hlen : (s.modifyEntry p (·.addDescendent node)).entries.length = s.entries.length := by simp [modifyEntry]
    obtain ⟨hl, hi, hc, hf, hd⟩ := @ih (s.modifyEntry p (·.addDescendent node)) fun n hn =>
      hlen ▸ hpath n (List.mem_cons_of_mem _ hn)
    refine ⟨hl.trans hlen, hi, fun m => (hc m).trans ?_, fun m => (hf m).trans ?_, fun m d => ?_⟩
    · exact modifyEntry_part (f := (·.addDescendent node)) (·.children) (fun _ => rfl) m
    · exact modifyEntry_part (f := (·.addDescendent node)) (·.func) (fun _ => rfl) m
    · rw [List.foldl_cons, hd, mem_descendents_add s (hpath p List.mem_cons_self), List.mem_cons]
      grind

/-- **Adding a function.** -/
theorem addFunction_ok (h : TrieOK s paths) (f : Function) :
    ∃ paths' node, Added s paths f (s.addFunction f) paths' node := by
  obtain ⟨path, node, s₁, paths', hp, he, hnode, hpath, hcreated⟩ := enterPath_ok h h.root (components f.name)
  rw [List.nil_append] at hnode hpath hcreated
  have hlt := path_lt he.ok hnode
  have hlen : (s₁.modifyEntry node (·.setFunction f)).entries.length = s₁.entries.length := by simp [modifyEntry]
  have hin : ∀ n ∈ path, n < (s₁.modifyEntry node (·.setFunction f)).entries.length := by
    intro n hn
    obtain ⟨q, hq, -, -⟩ := (hpath n).1 hn
    rw [hlen]
    exact path_lt he.ok hq
  obtain ⟨hl, hi, hc, hf, hd⟩ := addDescendents_ok node hin
  have hadd : s.addFunction f = (path.foldl (fun s p => s.modifyEntry p (·.addDescendent node))
      (s₁.modifyEntry node (·.setFunction f))).emplaceFunc f.id node := by
    simp only [addFunction, hp]
  have hentries : (s.addFunction f).entries = (path.foldl (fun s p => s.modifyEntry p (·.addDescendent node))
      (s₁.modifyEntry node (·.setFunction f))).entries := by
    rw [hadd, emplaceFunc]
    split <;> rfl
  refine ⟨paths', node, trieOK_of_children he.ok ?_ fun m => ?_, hcreated, he.paths, hnode, fun m => ?_, ?_, fun m d =>
    ?_⟩
  · rw [hentries, hl, hlen]
  · rw [hentries, hc]
    exact modifyEntry_part (f := (·.setFunction f)) (·.children) (fun _ => rfl) m
  · rw [func_eq, hentries, hf, ← func_eq, func, modifyEntry_get, ← he.func m]
    by_cases hm : node = m
    · subst hm
      rw [if_pos rfl, if_pos rfl, List.getElem?_eq_getElem hlt]
      rfl
    · rw [if_neg hm, if_neg (Ne.symm hm), func]
  · have hids := hi.trans he.ids
    rw [hadd, emplaceFunc, hids]
    split
    · exact hids
    · rfl
  · have hd' := hd m d
    rw [CAFStore.descendents, ← hentries] at hd'
    rw [CAFStore.descendents, hd', hpath, CAFStore.descendents,
      modifyEntry_part (f := (·.setFunction f)) (·.descendents) (fun _ => rfl)]
    have hsame := he.descendents m
    rw [CAFStore.descendents] at hsame
    rw [hsame]
    simp only [List.nil_prefix, true_and]

/-! ## Loading -/

/-- The store after the functions `fs` have been added, with different ids. -/
structure StoreOK (s : CAFStore) (paths : List (List StdString)) (fs : List Function) : Prop where
  trie : TrieOK s paths
  func : ∀ {m : ℕ} {p : List StdString}, paths[m]? = some p →
    s.func m = fs.reverse.find? fun f => components f.name = p
  ids : List.Forall₂ (fun (i : FunctionIdType × ℕ) f => i.1 = f.id ∧ paths[i.2]? = some (components f.name))
    s.funcIdToEntry fs
  visited : ∀ f ∈ fs, components f.name ∈ paths

theorem new_ok : StoreOK new [[]] [] := by
  refine ⟨⟨rfl, by simp, rfl, fun p c h => by simp at h, fun {m k} p c _ hk => ?_, fun {m p} c k hm => ?_⟩,
    fun {m p} hm => ?_, .nil, fun f hf => by cases hf⟩
  · have := List.mem_singleton.1 (List.mem_of_getElem? hk)
    simp at this
  · obtain rfl : m = 0 := by
      obtain ⟨hlt, -⟩ := List.getElem?_eq_some_iff.1 hm
      simpa using hlt
    simp only [List.getElem?_cons_zero, Option.some.injEq] at hm
    subst hm
    have hnone : new.child 0 c = none := rfl
    rw [hnone]
    refine ⟨(fun h => by cases h), fun h => ?_⟩
    obtain ⟨hk, he⟩ := List.getElem?_eq_some_iff.1 h
    simp at he
  · obtain rfl : m = 0 := by
      obtain ⟨hlt, -⟩ := List.getElem?_eq_some_iff.1 hm
      simpa using hlt
    rfl

theorem lookup_none {l : List (FunctionIdType × ℕ)} {id : FunctionIdType} (h : ∀ i ∈ l, i.1 ≠ id) :
    l.lookup id = none := by
  induction l with
  | nil => rfl
  | cons i l ih =>
    rw [List.lookup_cons, beq_false_of_ne (Ne.symm (h i List.mem_cons_self))]
    exact ih fun j hj => h j (List.mem_cons_of_mem _ hj)

/-- **A new function** keeps the others where they are. -/
theorem StoreOK.add {fs : List Function} (h : StoreOK s paths fs) {f : Function} (hid : ∀ f' ∈ fs, f'.id ≠ f.id) :
    ∃ paths', StoreOK (s.addFunction f) paths' (fs ++ [f]) := by
  obtain ⟨paths', node, ha⟩ := addFunction_ok h.trie f
  have hnone : s.funcIdToEntry.lookup f.id = none := by
    refine lookup_none fun i hi => ?_
    obtain ⟨k, hk, rfl⟩ := List.mem_iff_getElem.1 hi
    obtain ⟨hlen, hall⟩ := List.forall₂_iff_get.1 h.ids
    have := (hall k hk (hlen ▸ hk)).1
    simp only [List.get_eq_getElem] at this
    rw [this]
    exact hid _ (List.getElem_mem _)
  refine ⟨paths', ha.ok, fun {m p} hm => ?_, ?_, ?_⟩
  · rw [ha.func, List.reverse_append, List.reverse_singleton, List.singleton_append, List.find?_cons]
    by_cases hmn : m = node
    · rw [hmn, ha.atNode] at hm
      rw [if_pos hmn, Option.some.inj hm]
      simp
    · have hne : components f.name ≠ p := by
        rintro rfl
        obtain ⟨hlt, -⟩ := List.getElem?_eq_some_iff.1 hm
        exact hmn ((List.getElem?_inj hlt ha.ok.nodup).1 (hm.trans ha.atNode.symm))
      rw [if_neg hmn, decide_eq_false hne]
      rcases Nat.lt_or_ge m paths.length with hlt | hge
      · have hm' : paths[m]? = some p := by
          obtain ⟨U, hU⟩ := ha.paths
          rwa [← hU, List.getElem?_append_left hlt] at hm
        exact h.func hm'
      · -- an entry on the way, without functions
        have hempty : s.func m = none := by
          rw [CAFStore.func, List.getElem?_eq_none (h.trie.length ▸ hge)]
          rfl
        rw [hempty, eq_comm, List.find?_eq_none]
        intro f' hf' hp
        rw [decide_eq_true_eq] at hp
        obtain ⟨k, hk⟩ := List.getElem?_of_mem (h.visited f' (List.mem_reverse.1 hf'))
        have hk' := getElem?_grows ha.paths hk
        rw [hp] at hk'
        obtain ⟨hlt, -⟩ := List.getElem?_eq_some_iff.1 hm
        have hmk := (List.getElem?_inj hlt ha.ok.nodup).1 (hm.trans hk'.symm)
        obtain ⟨hlt', -⟩ := List.getElem?_eq_some_iff.1 hk
        omega
  · rw [ha.ids, hnone]
    refine List.rel_append (h.ids.imp fun i f' hi => ⟨hi.1, getElem?_grows ha.paths hi.2⟩) ?_
    exact .cons ⟨rfl, ha.atNode⟩ .nil
  · intro f' hf'
    rcases List.mem_append.1 hf' with hf' | hf'
    · exact ha.paths.subset (h.visited f' hf')
    · rw [List.mem_singleton.1 hf']
      exact List.mem_of_getElem? ha.atNode

/-- The functions that `Load` makes of a list of names. -/
def numbered (names : List StdString) : List Function := names.zipIdx.map fun i => ⟨UInt32.ofNat i.2, i.1⟩

theorem numbered_concat (names : List StdString) (x : StdString) :
    numbered (names ++ [x]) = numbered names ++ [⟨UInt32.ofNat names.length, x⟩] := by
  simp [numbered, List.zipIdx_append]

theorem mem_numbered {names : List StdString} {f : Function} :
    f ∈ numbered names ↔ ∃ i, names[i]? = some f.name ∧ f.id = UInt32.ofNat i := by
  simp only [numbered, List.mem_map, Prod.exists, List.mem_zipIdx_iff_getElem?]
  constructor
  · rintro ⟨x, i, hx, rfl⟩
    exact ⟨i, hx, rfl⟩
  · rintro ⟨i, hx, hid⟩
    exact ⟨f.name, i, hx, by rw [← hid]⟩

theorem ofNat_ne {i j : ℕ} (hij : i < j) (hj : j < 2 ^ 32) : UInt32.ofNat i ≠ UInt32.ofNat j := by
  intro h
  have := congrArg UInt32.toNat h
  rw [UInt32.toNat_ofNat_of_lt' (show i < 2 ^ 32 by omega), UInt32.toNat_ofNat_of_lt' hj] at this
  omega

/-- **Loading names**, as long as the ids last. -/
theorem loadFrom_ok {done names : List StdString} (h : StoreOK s paths (numbered done))
    (hlen : (done ++ names).length ≤ 2 ^ 32) :
    ∃ paths', StoreOK (loadFrom (UInt32.ofNat done.length) names s) paths' (numbered (done ++ names)) := by
  induction names generalizing done s paths with
  | nil => exact ⟨paths, by rw [List.append_nil]; exact h⟩
  | cons x names ih =>
    have hid : ∀ f ∈ numbered done, f.id ≠ UInt32.ofNat done.length := by
      intro f hf
      obtain ⟨i, hi, hfi⟩ := mem_numbered.1 hf
      rw [hfi]
      refine ofNat_ne (List.getElem?_eq_some_iff.1 hi).1 ?_
      rw [List.length_append, List.length_cons] at hlen
      omega
    obtain ⟨paths₁, h₁⟩ := @StoreOK.add _ _ _ h ⟨UInt32.ofNat done.length, x⟩ hid
    rw [← numbered_concat] at h₁
    obtain ⟨paths', h'⟩ := ih h₁ (by simpa using hlen)
    refine ⟨paths', ?_⟩
    rw [List.append_assoc, List.singleton_append] at h'
    rw [loadFrom]
    rw [List.length_append, List.length_singleton] at h'
    have hnext : UInt32.ofNat (done.length + 1) = UInt32.ofNat done.length + 1 := UInt32.ofNat_add _ _
    rw [hnext] at h'
    exact h'

theorem load_ok {names : List StdString} (hlen : names.length ≤ 2 ^ 32) :
    ∃ paths, StoreOK (load names new) paths (numbered names) :=
  @loadFrom_ok _ _ [] names new_ok hlen

/-! ## What is kept -/

theorem lookup_of_mem {l : List (FunctionIdType × ℕ)} (h : (l.map Prod.fst).Nodup) {i : FunctionIdType × ℕ}
    (hi : i ∈ l) : l.lookup i.1 = some i.2 := by
  induction l with
  | nil => cases hi
  | cons j l ih =>
    rw [List.map_cons, List.nodup_cons] at h
    rcases List.mem_cons.1 hi with rfl | hi
    · rw [List.lookup_cons, beq_self_eq_true]
    · have hne : i.1 ≠ j.1 := fun he => h.1 (he ▸ List.mem_map_of_mem hi)
      rw [List.lookup_cons, beq_false_of_ne hne]
      exact ih h.2 hi

/-- The function at the node of a function: the last one with its components. -/
theorem entry_eq {fs : List Function} (h : StoreOK s paths fs) {f : Function} (hf : f ∈ fs) {node : ℕ}
    (hn : paths[node]? = some (components f.name)) :
    ∃ f', (do (← s.getEntry node).getFunction) = Except.ok (ε := Error) f' ∧
      fs.reverse.find? (fun g => components g.name = components f.name) = some f' := by
  obtain ⟨f', hf'⟩ : ∃ f', fs.reverse.find? (fun g => components g.name = components f.name) = some f' := by
    refine Option.isSome_iff_exists.1 (List.find?_isSome.2 ⟨f, List.mem_reverse.2 hf, ?_⟩)
    simp
  have hfunc := (h.func hn).trans hf'
  refine ⟨f', ?_, hf'⟩
  cases he : s.entries[node]? with
  | none => rw [CAFStore.func, he] at hfunc; cases hfunc
  | some e =>
    have hef : e.func = some f' := by rwa [CAFStore.func, he] at hfunc
    simp only [getEntry, he, bind, Except.bind, Entry.getFunction, hef]

/-- The entry under the id of a function is the one of its components. -/
theorem lookup_eq {fs : List Function} (h : StoreOK s paths fs) (hnd : (fs.map Function.id).Nodup)
    {f : Function} (hf : f ∈ fs) :
    ∃ node, s.funcIdToEntry.lookup f.id = some node ∧ paths[node]? = some (components f.name) := by
  obtain ⟨k, hk, rfl⟩ := List.mem_iff_getElem.1 hf
  obtain ⟨hlen, hall⟩ := List.forall₂_iff_get.1 h.ids
  obtain ⟨hid, hpath⟩ := hall k (hlen ▸ hk) hk
  simp only [List.get_eq_getElem] at hid hpath
  have hids : s.funcIdToEntry.map Prod.fst = fs.map Function.id := by
    rw [← List.forall₂_eq_eq_eq, List.forall₂_map_left_iff, List.forall₂_map_right_iff]
    exact h.ids.imp fun _ _ hi => hi.1
  have hlook := lookup_of_mem (hids ▸ hnd) (List.getElem_mem (hlen ▸ hk))
  rw [hid] at hlook
  exact ⟨_, hlook, hpath⟩

/-- The function that is found under the id of a function. -/
theorem getFunction_eq {fs : List Function} (h : StoreOK s paths fs) (hnd : (fs.map Function.id).Nodup)
    {f : Function} (hf : f ∈ fs) :
    ∃ f', s.getFunction f.id = .ok f' ∧
      fs.reverse.find? (fun g => components g.name = components f.name) = some f' := by
  obtain ⟨node, hlook, hpath⟩ := lookup_eq h hnd hf
  obtain ⟨f', hf', hfind⟩ := entry_eq h hf hpath
  refine ⟨f', ?_, hfind⟩
  simp only [getFunction, hlook]
  exact hf'

/-- With different components, a function finds itself. -/
theorem find_self {fs : List Function} (hnd : (fs.map fun f => components f.name).Nodup) {f f' : Function}
    (hf : f ∈ fs) (h : fs.reverse.find? (fun g => components g.name = components f.name) = some f') :
    f' = f := by
  have hm := List.mem_reverse.1 (List.mem_of_find?_eq_some h)
  have hc := List.find?_some h
  rw [decide_eq_true_eq] at hc
  exact List.inj_on_of_nodup_map hnd hm hf hc

/-- **The number of functions** is the number of different components. -/
theorem count_eq {fs : List Function} (h : StoreOK s paths fs)
    (hnd : (fs.map fun f => components f.name).Nodup) : s.getFunctionsCount = fs.length := by
  have hcol : s.entries.map Entry.hasFunction =
      paths.map fun p => decide (p ∈ fs.map fun f => components f.name) := by
    refine List.ext_getElem? fun m => ?_
    rw [List.getElem?_map, List.getElem?_map]
    cases hm : paths[m]? with
    | none =>
      rw [List.getElem?_eq_none_iff, h.trie.length] at hm
      rw [List.getElem?_eq_none hm]
      rfl
    | some p =>
      have hlt := path_lt h.trie hm
      have hfunc := h.func hm
      rw [CAFStore.func, List.getElem?_eq_getElem hlt] at hfunc
      rw [List.getElem?_eq_getElem hlt, Option.map_some, Option.map_some, Entry.hasFunction,
        show s.entries[m].func = _ from hfunc, Option.some.injEq, Bool.eq_iff_iff, List.find?_isSome,
        decide_eq_true_eq]
      simp
  have hsub : ∀ c ∈ fs.map (fun f => components f.name), c ∈ paths := by
    intro c hc
    obtain ⟨f, hf, rfl⟩ := List.mem_map.1 hc
    exact h.visited f hf
  have hperm : (paths.filter fun p => decide (p ∈ fs.map fun f => components f.name)).Perm
      (fs.map fun f => components f.name) := by
    refine (List.perm_ext_iff_of_nodup (h.trie.nodup.filter _) hnd).2 fun p => ?_
    rw [List.mem_filter, decide_eq_true_eq]
    exact ⟨fun hp => hp.2, fun hp => ⟨hsub p hp, hp⟩⟩
  have hcount : s.entries.countP Entry.hasFunction =
      paths.countP fun p => decide (p ∈ fs.map fun f => components f.name) := by
    have h₁ : (s.entries.map Entry.hasFunction).countP id = s.entries.countP Entry.hasFunction := List.countP_map
    have h₂ : (paths.map fun p => decide (p ∈ fs.map fun f => components f.name)).countP id =
        paths.countP fun p => decide (p ∈ fs.map fun f => components f.name) := List.countP_map
    rw [← h₁, ← h₂, hcol]
  show s.entries.countP Entry.hasFunction = _
  rw [hcount, List.countP_eq_length_filter, hperm.length_eq, List.length_map]

/-- **Iterating** yields every function. -/
theorem functions_eq {fs gs : List Function} (h : StoreOK s paths fs)
    (hnd : (fs.map fun f => components f.name).Nodup) {l : List (FunctionIdType × ℕ)}
    (hsub : ∀ g ∈ gs, g ∈ fs)
    (hl : List.Forall₂ (fun (i : FunctionIdType × ℕ) f => i.1 = f.id ∧ paths[i.2]? = some (components f.name)) l gs) :
    (l.mapM fun i => do (← s.getEntry i.2).getFunction) = Except.ok (ε := Error) gs := by
  induction hl with
  | nil => rfl
  | @cons i g l gs hi _ ih =>
    have hg := hsub g List.mem_cons_self
    obtain ⟨f', hf', hfind⟩ := entry_eq h hg hi.2
    rw [find_self hnd hg hfind] at hf'
    rw [List.mapM_cons, hf', ih fun g hg => hsub g (List.mem_cons_of_mem _ hg)]
    rfl

theorem numbered_ids {names : List StdString} (hlen : names.length ≤ 2 ^ 32) :
    ((numbered names).map Function.id).Nodup := by
  rw [numbered, List.map_map]
  refine List.pairwise_iff_getElem.2 fun i j hi hj hij => ?_
  simp only [List.length_map, List.length_zipIdx] at hi hj
  simp only [List.getElem_map, List.getElem_zipIdx, Function.comp_apply, Nat.zero_add]
  exact ofNat_ne hij (by omega)

end CAFStore

open CAFStore

/-- No two names differ by a dot at the end only. -/
def NoTrailingDot (names : List StdString) : Prop :=
  ∀ name ∈ names, name ≠ [] → name.getLast? ≠ some separator → name ++ [separator] ∉ names

/-- Different names without trailing dots have different components. -/
theorem components_nodup {names : List StdString} (hnd : names.Nodup) (hdot : NoTrailingDot names) :
    ((numbered names).map fun f => components f.name).Nodup := by
  have hnames : (numbered names).map (fun f => components f.name) = names.map components := by
    rw [numbered, List.map_map]
    have hfst : names.zipIdx.map Prod.fst = names := List.zipIdx_map_fst 0 names
    calc names.zipIdx.map ((fun f : Function => components f.name) ∘ fun i => ⟨UInt32.ofNat i.2, i.1⟩)
        = (names.zipIdx.map Prod.fst).map components := by rw [List.map_map]; rfl
      _ = names.map components := by rw [hfst]
  rw [hnames]
  refine List.Nodup.map_on (fun x hx y hy hxy => ?_) hnd
  by_contra hne
  rcases (components_inj_iff hne).1 hxy with ⟨hcl, rfl⟩ | ⟨hcl, rfl⟩
  · exact hdot x hx hcl.1 hcl.2 hy
  · exact hdot y hy hcl.1 hcl.2 hx

/-- **The names that a store keeps**: with fewer than `2 ^ 32` ids, exactly those without two that
differ by a dot at the end only. -/
theorem loaded_iff {names : List StdString} (hnd : names.Nodup) :
    KeepsFunctions names (CAFStore.load names .new) ↔ names.length ≤ 2 ^ 32 ∧ NoTrailingDot names := by
  constructor
  · intro h
    have hlen : names.length ≤ 2 ^ 32 := by
      by_contra hlt
      obtain ⟨f, -, hid, -⟩ := h.get (2 ^ 32) _ (List.getElem?_eq_getElem (by omega))
      have := f.id.toNat_lt
      omega
    refine ⟨hlen, fun x hx hne hlast hy => ?_⟩
    obtain ⟨paths, hok⟩ := load_ok hlen
    obtain ⟨i, hi⟩ := List.getElem?_of_mem hx
    obtain ⟨j, hj⟩ := List.getElem?_of_mem hy
    obtain ⟨f, hf, -, hfn⟩ := h.get i x hi
    obtain ⟨g, hg, -, hgn⟩ := h.get j _ hj
    have key : ∀ (k : ℕ) name, names[k]? = some name →
        ∃ f', getFunction (load names new) (UInt32.ofNat k) = .ok f' ∧
          (numbered names).reverse.find? (fun g => components g.name = components name) = some f' :=
      fun k name hk => @getFunction_eq _ _ _ hok (numbered_ids hlen) ⟨UInt32.ofNat k, name⟩
        (mem_numbered.2 ⟨k, hk, rfl⟩)
    obtain ⟨f', hf', hfind⟩ := key i x hi
    obtain ⟨g', hg', hgind⟩ := key j _ hj
    rw [components_dot ⟨hne, hlast⟩, hfind] at hgind
    cases hgind
    cases hf'.symm.trans hf
    cases hg'.symm.trans hg
    rw [hfn] at hgn
    simp at hgn
  · rintro ⟨hlen, hdot⟩
    obtain ⟨paths, hok⟩ := load_ok hlen
    have hcomp := components_nodup hnd hdot
    refine ⟨fun i name hi => ?_, ?_, _, functions_eq hok hcomp (fun g hg => hg) hok.ids, ?_⟩
    · have hf : (⟨UInt32.ofNat i, name⟩ : Function) ∈ numbered names := mem_numbered.2 ⟨i, hi, rfl⟩
      obtain ⟨f', hf', hfind⟩ := getFunction_eq hok (numbered_ids hlen) hf
      rw [find_self hcomp hf hfind] at hf'
      have hlt := (List.getElem?_eq_some_iff.1 hi).1
      exact ⟨_, hf', UInt32.toNat_ofNat_of_lt' (show i < 2 ^ 32 by omega), rfl⟩
    · rw [count_eq hok hcomp, numbered, List.length_map, List.length_zipIdx]
    · rw [numbered, List.map_map]
      refine List.Perm.of_eq ?_
      calc names.zipIdx.map ((fun f : Function => (f.name, f.id.toNat)) ∘ fun i => ⟨UInt32.ofNat i.2, i.1⟩)
          = names.zipIdx.map id := by
            refine List.map_congr_left fun i hi => ?_
            have hlt := (List.getElem?_eq_some_iff.1 (List.mem_zipIdx_iff_getElem?.1 hi)).1
            simp only [Function.comp_apply, id]
            rw [UInt32.toNat_ofNat_of_lt' (show i.2 < 2 ^ 32 by omega)]
        _ = names.zipIdx := List.map_id _

/-- `fs.open` and `fs`: one name continues the other behind a dot. -/
theorem fs_open_loaded_iff :
    KeepsFunctions [[102, 115], [102, 115, 46, 111, 112, 101, 110]]
        (CAFStore.load [[102, 115], [102, 115, 46, 111, 112, 101, 110]] .new) ↔
      [[102, 115], [102, 115, 46, 111, 112, 101, 110]].length ≤ 2 ^ 32 ∧
        NoTrailingDot [[102, 115], [102, 115, 46, 111, 112, 101, 110]] :=
  loaded_iff (by decide)

/-- `a` and `a.`: the second function takes the place of the first. -/
theorem dotted_not_kept : [[97], [97, 46]].Nodup ∧
    ¬ KeepsFunctions [[97], [97, 46]] (CAFStore.load [[97], [97, 46]] .new) := by
  refine ⟨by decide, fun h => ?_⟩
  obtain ⟨f, hf, hid, -⟩ := h.get 0 [97] rfl
  have hget : (CAFStore.load [[97], [97, 46]] .new).getFunction 0 = .ok ⟨1, [97, 46]⟩ := by rfl
  cases hget.symm.trans hf
  cases hid

end Caf
