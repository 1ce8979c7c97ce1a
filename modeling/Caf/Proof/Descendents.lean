import Mathlib.Data.List.Induction
import Caf.Proof.Store
import Caf.Spec.Random

/-!
# Descendents in the store

Adding a function registers its node with the entries on the way from the root, and these are the
entries in whose subtree the node is. So an entry's descendents are always the entries with functions
below it.

* `inSubtree_iff`: the subtree of an entry in terms of paths.
* `descendents_ok`: after any sequence of `AddFunction`.
* `selectDescendent_ok`: what a random descendent is.
-/

namespace Caf

open ObjectGraph (getElem?_grows)

namespace CAFStore

variable {s s' : CAFStore} {paths paths' : List (List StdString)} {n m node : ℕ} {p q : List StdString}

/-- The parts of a path have entries. -/
theorem mem_of_part (h : TrieOK s paths) (hq : q ∈ paths) (hpq : p <+: q) : p ∈ paths := by
  obtain ⟨r, rfl⟩ := hpq
  induction r using List.reverseRecOn with
  | nil => rwa [List.append_nil] at hq
  | append_singleton r c ih =>
    rw [← List.append_assoc] at hq
    exact ih (h.parent _ _ hq)

/-- **The subtree of an entry** has the entries whose paths continue its path. -/
theorem inSubtree_iff (h : TrieOK s paths) (hn : paths[n]? = some p) :
    s.InSubtree n m ↔ ∃ q, paths[m]? = some q ∧ p <+: q := by
  constructor
  · intro hs
    induction hs with
    | refl => exact ⟨p, hn, List.prefix_refl _⟩
    | tail _ hc ih =>
      obtain ⟨q, hq, hpq⟩ := ih
      obtain ⟨c, hc⟩ := hc
      exact ⟨q ++ [c], (h.child c _ hq).1 hc, hpq.trans (List.prefix_append _ _)⟩
  · rintro ⟨q, hq, r, rfl⟩
    induction r using List.reverseRecOn generalizing m with
    | nil =>
      rw [List.append_nil] at hq
      rw [path_inj h hn hq]
      exact .refl
    | append_singleton r c ih =>
      rw [← List.append_assoc] at hq
      obtain ⟨k, hk⟩ := List.getElem?_of_mem (h.parent _ _ (List.mem_of_getElem? hq))
      exact (ih hk).tail ⟨c, (h.child c m hk).2 hq⟩

/-- What the descendents are, and that every entry leads to a function. -/
structure DescendentsInv (s : CAFStore) (paths : List (List StdString)) : Prop where
  trie : TrieOK s paths
  mem_iff : ∀ m d, d ∈ s.descendents m ↔
    ∃ p q, paths[m]? = some p ∧ paths[d]? = some q ∧ p <+: q ∧ (s.func d).isSome
  used : ∀ p ∈ paths, p ≠ [] → ∃ (d : ℕ) (q : List StdString), paths[d]? = some q ∧ p <+: q ∧ (s.func d).isSome

theorem descendentsInv_new : DescendentsInv new [[]] := by
  refine ⟨new_ok.trie, fun m d => ?_, fun p hp hne => ?_⟩
  · have hnone : ∀ k, new.descendents k = [] ∧ (new.func k).isSome = false := by
      intro k
      match k with
      | 0 => exact ⟨rfl, rfl⟩
      | _ + 1 => exact ⟨rfl, rfl⟩
    rw [(hnone m).1]
    constructor
    · intro hd
      cases hd
    · rintro ⟨p, q, -, -, -, hf⟩
      rw [(hnone d).2] at hf
      cases hf
  · exact absurd (List.mem_singleton.1 hp) hne

/-- An entry that was not there has no function. -/
theorem lt_of_func (h : TrieOK s paths) (hf : (s.func m).isSome) : m < paths.length := by
  rw [h.length]
  by_contra hlt
  rw [func, List.getElem?_eq_none (Nat.not_lt.1 hlt)] at hf
  cases hf

/-- **Adding a function keeps the descendents right.** -/
theorem DescendentsInv.add {f : Function} (h : DescendentsInv s paths) (ha : Added s paths f s' paths' node) :
    DescendentsInv s' paths' := by
  have hfunc : ∀ d, (s'.func d).isSome ↔ d = node ∨ (s.func d).isSome := by
    intro d
    rw [ha.func]
    by_cases hd : d = node
    · simp [hd]
    · simp [hd]
  refine ⟨ha.ok, fun m d => ?_, fun p hp hne => ?_⟩
  · rw [ha.descendents, h.mem_iff, hfunc]
    constructor
    · rintro (⟨p, q, hm, hd, hpq, hf⟩ | ⟨rfl, p, hm, hp⟩)
      · exact ⟨p, q, getElem?_grows ha.paths hm, getElem?_grows ha.paths hd, hpq, .inr hf⟩
      · exact ⟨p, _, hm, ha.atNode, hp, .inl rfl⟩
    · rintro ⟨p, q, hm, hd, hpq, rfl | hf⟩
      · obtain rfl := Option.some.inj (hd.symm.trans ha.atNode)
        exact .inr ⟨rfl, p, hm, hpq⟩
      · -- both entries were there
        have hd' : paths[d]? = some q := by
          obtain ⟨U, hU⟩ := ha.paths
          rwa [← hU, List.getElem?_append_left (lt_of_func h.trie hf)] at hd
        obtain ⟨k, hk⟩ := List.getElem?_of_mem (mem_of_part h.trie (List.mem_of_getElem? hd') hpq)
        obtain rfl := path_inj ha.ok (getElem?_grows ha.paths hk) hm
        exact .inl ⟨p, q, hk, hd', hpq, hf⟩
  · obtain ⟨k, hk⟩ := List.getElem?_of_mem hp
    rcases Nat.lt_or_ge k paths.length with hlt | hge
    · have hk' : paths[k]? = some p := by
        obtain ⟨U, hU⟩ := ha.paths
        rwa [← hU, List.getElem?_append_left hlt] at hk
      obtain ⟨d, q, hd, hpq, hf⟩ := h.used p (List.mem_of_getElem? hk') hne
      exact ⟨d, q, getElem?_grows ha.paths hd, hpq, (hfunc d).2 (.inr hf)⟩
    · exact ⟨node, _, ha.atNode, ha.created k p hge hk, (hfunc node).2 (.inl rfl)⟩

/-- The descendents of an entry are the entries with functions in its subtree. -/
theorem DescendentsInv.mem_iff_inSubtree (h : DescendentsInv s paths) (hn : paths[n]? = some p) (d : ℕ) :
    d ∈ s.descendents n ↔ s.InSubtree n d ∧ (s.func d).isSome := by
  rw [h.mem_iff, inSubtree_iff h.trie hn]
  constructor
  · rintro ⟨p', q, hp', hq, hpq, hf⟩
    rw [hn] at hp'
    exact ⟨⟨q, hq, Option.some.inj hp' ▸ hpq⟩, hf⟩
  · rintro ⟨⟨q, hq, hpq⟩, hf⟩
    exact ⟨p, q, hn, hq, hpq, hf⟩

/-- The store after a sequence of `AddFunction`. -/
theorem addFunctions_inv (fs : List Function) : ∃ paths, DescendentsInv (addFunctions fs new) paths := by
  suffices hgen : ∀ s paths, DescendentsInv s paths → ∃ paths', DescendentsInv (addFunctions fs s) paths' from
    hgen new [[]] descendentsInv_new
  induction fs with
  | nil => exact fun s paths h => ⟨paths, h⟩
  | cons f fs ih =>
    intro s paths h
    obtain ⟨paths₁, node, ha⟩ := addFunction_ok h.trie f
    exact ih _ paths₁ (h.add ha)

/-- After at least one `AddFunction`, some entry has a function. -/
theorem exists_func {fs : List Function} (hfs : fs ≠ []) : ∃ d, ((addFunctions fs new).func d).isSome := by
  obtain ⟨fs, f, rfl⟩ := List.eq_nil_or_concat fs |>.resolve_left hfs
  rw [List.concat_eq_append, addFunctions, List.foldl_append]
  obtain ⟨paths, h⟩ := addFunctions_inv fs
  obtain ⟨paths', node, ha⟩ := addFunction_ok h.trie f
  refine ⟨node, ?_⟩
  show ((addFunction (addFunctions fs new) f).func node).isSome
  rw [ha.func, if_pos rfl]
  rfl

/-- Then every entry has a descendent. -/
theorem DescendentsInv.exists_descendent {fs : List Function} (h : DescendentsInv (addFunctions fs new) paths)
    (hfs : fs ≠ []) (hn : paths[n]? = some p) : ∃ d, d ∈ (addFunctions fs new).descendents n := by
  by_cases hroot : p = []
  · obtain ⟨d, hd⟩ := exists_func hfs
    refine ⟨d, (h.mem_iff n d).2 ⟨p, _, hn, List.getElem?_eq_getElem (lt_of_func h.trie hd), ?_, hd⟩⟩
    rw [hroot]
    exact List.nil_prefix
  · obtain ⟨d, q, hq, hpq, hf⟩ := h.used p (List.mem_of_getElem? hn) hroot
    exact ⟨d, (h.mem_iff n d).2 ⟨p, q, hn, hq, hpq, hf⟩⟩

/-- **Every entry is in the subtree of the root, and its descendents are the entries with functions in
its own subtree.** A random descendent is one of them. -/
theorem descendents_ok {fs : List Function} (hfs : fs ≠ []) :
    (∀ e, (addFunctions fs new).InSubtree 0 e ↔ e < (addFunctions fs new).entries.length) ∧
      ∀ (e : ℕ) entry, (addFunctions fs new).entries[e]? = some entry → DescendentsOK (addFunctions fs new) e ∧
        ∀ s, ∃ d s', selectDescendent entry s = .ok (d, s') ∧
          (addFunctions fs new).InSubtree e d ∧ ((addFunctions fs new).func d).isSome := by
  obtain ⟨paths, h⟩ := addFunctions_inv fs
  refine ⟨fun e => ?_, fun e entry hentry => ?_⟩
  · rw [inSubtree_iff h.trie h.trie.root, ← h.trie.length]
    constructor
    · rintro ⟨q, hq, -⟩
      exact (List.getElem?_eq_some_iff.1 hq).1
    · intro he
      exact ⟨_, List.getElem?_eq_getElem he, List.nil_prefix⟩
  · have he := (List.getElem?_eq_some_iff.1 hentry).1
    obtain ⟨p, hp⟩ : ∃ p, paths[e]? = some p := ⟨_, List.getElem?_eq_getElem (h.trie.length ▸ he)⟩
    have hmem := h.mem_iff_inSubtree hp
    obtain ⟨d₀, hd₀⟩ := h.exists_descendent hfs hp
    have hdesc : (addFunctions fs new).descendents e = entry.descendents := by rw [descendents, hentry]; rfl
    refine ⟨⟨List.ne_nil_of_mem hd₀, hmem⟩, fun s => ?_⟩
    obtain ⟨d, rnd, hd, hsel⟩ := Random.select_mem s (hdesc ▸ List.ne_nil_of_mem hd₀)
    exact ⟨d, _, hsel, (hmem d).1 (hdesc ▸ hd)⟩

/-- `a.b` and `a`: the root, `a` and `a.b`. -/
theorem nested_descendents_ok :
    (∀ e, (addFunctions [⟨0, [97, 46, 98]⟩, ⟨1, [97]⟩] new).InSubtree 0 e ↔
        e < (addFunctions [⟨0, [97, 46, 98]⟩, ⟨1, [97]⟩] new).entries.length) ∧
      ∀ (e : ℕ) entry, (addFunctions [⟨0, [97, 46, 98]⟩, ⟨1, [97]⟩] new).entries[e]? = some entry →
        DescendentsOK (addFunctions [⟨0, [97, 46, 98]⟩, ⟨1, [97]⟩] new) e ∧
        ∀ s, ∃ d s', selectDescendent entry s = .ok (d, s') ∧
          (addFunctions [⟨0, [97, 46, 98]⟩, ⟨1, [97]⟩] new).InSubtree e d ∧
          ((addFunctions [⟨0, [97, 46, 98]⟩, ⟨1, [97]⟩] new).func d).isSome :=
  descendents_ok (by simp)

end CAFStore

end Caf
