import Mathlib.Data.List.NodupEquivFin
import Caf.Proof.Descendents

/-!
# Reloading the store

The store is saved in the order of its entries and loaded in the order of the list. An entry comes
before everything in its subtree, so a function whose path begins an earlier function's path comes
back with a smaller id.

* `toJson_load`: when the two orders agree.
* `reloaded_iff`: when the ids are kept.
-/

namespace Caf

open ObjectGraph (getElem?_grows)

namespace CAFStore

variable {s s' : CAFStore} {paths paths' : List (List StdString)} {n m node : ℕ} {p q : List StdString}

/-- An entry comes before everything in its subtree. -/
theorem lt_of_part (h : TrieOK s paths) (hn : paths[n]? = some p) (hm : paths[m]? = some q) (hpq : p <+: q)
    (hne : p ≠ q) : n < m := by
  obtain ⟨r, rfl⟩ := hpq
  induction r using List.reverseRecOn generalizing m with
  | nil => exact absurd (List.append_nil p).symm hne
  | append_singleton r c ih =>
    rw [← List.append_assoc] at hm
    obtain ⟨k, hk⟩ := List.getElem?_of_mem (h.parent _ _ (List.mem_of_getElem? hm))
    have hkm := h.order _ _ hk hm
    by_cases hr : p = p ++ r
    · rw [← hr] at hk
      rwa [path_inj h hn hk]
    · exact Nat.lt_trans (ih hk hr) hkm

/-- The saved names, entry by entry. -/
theorem toJson_eq {N : ℕ} (hN : s.entries.length ≤ N) :
    s.toJson = (List.range N).filterMap fun m => (s.func m).map (·.name) := by
  have hentries : s.entries.map (fun entry => entry.func) = (List.range s.entries.length).map s.func := by
    refine List.ext_getElem? fun m => ?_
    rw [List.getElem?_map, List.getElem?_map]
    rcases Nat.lt_or_ge m s.entries.length with hlt | hge
    · rw [List.getElem?_range hlt, Option.map_some, func, List.getElem?_eq_getElem hlt]
      rfl
    · rw [List.getElem?_eq_none hge, List.getElem?_eq_none (by simpa using hge)]
      rfl
  obtain ⟨k, rfl⟩ := Nat.exists_eq_add_of_le hN
  have hrest : ((List.range k).map (s.entries.length + ·)).filterMap (fun m => (s.func m).map (·.name)) = [] := by
    refine List.filterMap_eq_nil_iff.2 fun m hm => ?_
    obtain ⟨d, -, rfl⟩ := List.mem_map.1 hm
    rw [func, List.getElem?_eq_none (Nat.le_add_right _ _)]
    rfl
  rw [List.range_add, List.filterMap_append, hrest, List.append_nil, toJson]
  calc s.entries.filterMap (fun entry => entry.func.map (·.name))
      = (s.entries.map fun entry => entry.func).filterMap (fun f => f.map (·.name)) := by rw [List.filterMap_map]; rfl
    _ = (List.range s.entries.length).filterMap fun m => (s.func m).map (·.name) := by
        rw [hentries, List.filterMap_map]
        rfl

/-- The node of a function whose path is no part of an earlier one is the last entry. -/
theorem Added.last {f : Function} (ha : Added s paths f s' paths' node) (hnode : paths.length ≤ node + 1) :
    node + 1 = s'.entries.length := by
  have hlt := path_lt ha.ok ha.atNode
  rcases Nat.lt_or_ge (node + 1) s'.entries.length with hlt' | hge
  · obtain ⟨q, hq⟩ : ∃ q, paths'[node + 1]? = some q := ⟨_, List.getElem?_eq_getElem (ha.ok.length ▸ hlt')⟩
    have hpre := ha.created _ _ hnode hq
    by_cases hne : q = components f.name
    · rw [hne] at hq
      have := path_inj ha.ok hq ha.atNode
      omega
    · have := lt_of_part ha.ok hq ha.atNode hpre hne
      omega
  · omega

/-- **When the orders agree**: the names are saved in the order in which they were loaded. -/
theorem toJson_load {names : List StdString} (hfirst : PrefixesFirst names) : (load names new).toJson = names := by
  suffices hgen : ∀ (todo done : List StdString) id s paths, names = done ++ todo → TrieOK s paths → s.toJson = done →
      (∀ p ∈ paths, p = [] ∨ ∃ x ∈ done, p <+: components x) → (loadFrom id todo s).toJson = names from
    hgen names [] 0 new [[]] rfl new_ok.trie rfl fun p hp => .inl (List.mem_singleton.1 hp)
  intro todo
  induction todo with
  | nil =>
    intro done id s paths hnames _ hjson _
    rw [loadFrom, hjson, hnames, List.append_nil]
  | cons x todo ih =>
    intro done id s paths hnames htrie hjson hused
    obtain ⟨paths', node, ha⟩ := addFunction_ok htrie ⟨id, x⟩
    have hx : ∀ y ∈ done, ¬ components x <+: components y := by
      intro y hy
      obtain ⟨i, hi⟩ := List.getElem?_of_mem hy
      have hlt := (List.getElem?_eq_some_iff.1 hi).1
      refine hfirst i done.length y x ?_ ?_ hlt
      · rw [hnames, List.getElem?_append_left hlt, hi]
      · rw [hnames, List.getElem?_append_right (Nat.le_refl _), Nat.sub_self]
        rfl
    -- the node is new, or it is the root and the first name is empty
    have hnode : paths.length ≤ node ∨ done = [] ∧ node = 0 ∧ paths.length = 1 := by
      rcases Nat.lt_or_ge node paths.length with hlt | hge
      · right
        have hmem : components x ∈ paths := by
          obtain ⟨U, hU⟩ := ha.paths
          have hat := ha.atNode
          rw [← hU, List.getElem?_append_left hlt] at hat
          exact List.mem_of_getElem? hat
        have hnil : components x = [] := by
          rcases hused _ hmem with hnil | ⟨y, hy, hxy⟩
          · exact hnil
          · exact absurd hxy (hx y hy)
        have hdone : done = [] := by
          rcases done with - | ⟨y, done⟩
          · rfl
          · exact absurd (hnil ▸ List.nil_prefix) (hx y List.mem_cons_self)
        have hroot := getElem?_grows ha.paths htrie.root
        have hzero : node = 0 := path_inj ha.ok (by rw [ha.atNode]; exact congrArg some hnil) hroot
        refine ⟨hdone, hzero, Nat.le_antisymm ?_ (by omega)⟩
        by_contra hlen
        have hp := (hused _ (List.getElem_mem (show 1 < paths.length by omega))).resolve_right (by simp [hdone])
        have := path_inj htrie (List.getElem?_eq_getElem (show 1 < paths.length by omega)) (hp ▸ htrie.root)
        omega
      · exact .inl hge
    have hlast : node + 1 = (s.addFunction ⟨id, x⟩).entries.length := ha.last (by omega)
    have hjson' : (s.addFunction ⟨id, x⟩).toJson = done ++ [x] := by
      have hold : (List.range node).filterMap (fun m => (s.func m).map (·.name)) = done := by
        rcases hnode with hge | ⟨rfl, rfl, -⟩
        · rw [← toJson_eq (htrie.length ▸ hge), hjson]
        · rfl
      have hnew : (List.range node).filterMap (fun m => ((s.addFunction ⟨id, x⟩).func m).map (·.name)) =
          (List.range node).filterMap fun m => (s.func m).map (·.name) := by
        refine List.filterMap_congr fun m hm => ?_
        rw [ha.func, if_neg (Nat.ne_of_lt (List.mem_range.1 hm))]
      rw [toJson_eq (Nat.le_of_eq hlast.symm), List.range_succ, List.filterMap_append, hnew, hold]
      simp [ha.func]
    refine ih (done ++ [x]) (id + 1) _ paths' (by rw [hnames, List.append_assoc]; rfl) ha.ok hjson' fun p hp => ?_
    obtain ⟨k, hk⟩ := List.getElem?_of_mem hp
    rcases Nat.lt_or_ge k paths.length with hlt | hge
    · have hp' : p ∈ paths := by
        obtain ⟨U, hU⟩ := ha.paths
        rw [← hU, List.getElem?_append_left hlt] at hk
        exact List.mem_of_getElem? hk
      rcases hused p hp' with hnil | ⟨y, hy, hpy⟩
      · exact .inl hnil
      · exact .inr ⟨y, List.mem_append_left _ hy, hpy⟩
    · exact .inr ⟨x, by simp, ha.created k p hge hk⟩

/-- The paths of the saved names are saved in the order of the entries. -/
theorem toJson_sublist {fs : List Function} (h : StoreOK s paths fs) : (s.toJson.map components).Sublist paths := by
  have hentries : List.Forall₂ (fun (e : Entry) p => ∀ f, e.func = some f → components f.name = p) s.entries paths := by
    refine List.forall₂_iff_get.2 ⟨h.trie.length.symm, fun m hm hm' => fun f hf => ?_⟩
    have hfunc := h.func (List.getElem?_eq_getElem hm')
    rw [func, List.getElem?_eq_getElem hm, Option.bind_some, show s.entries[m].func = _ from hf] at hfunc
    have := List.find?_some hfunc.symm
    rwa [decide_eq_true_eq] at this
  rw [toJson]
  clear h
  generalize s.entries = entries at hentries
  induction hentries with
  | nil => exact .slnil
  | @cons e p entries paths hep _ ih =>
    rw [List.filterMap_cons]
    cases hf : e.func with
    | none => exact ih.cons p
    | some f =>
      simp only [Option.map_some, List.map_cons]
      rw [hep f hf]
      exact ih.cons_cons p

/-- The number of saved names. -/
theorem length_toJson (s : CAFStore) : s.toJson.length = s.getFunctionsCount := by
  rw [toJson, getFunctionsCount, List.length_filterMap_eq_countP]
  refine List.countP_congr fun e _ => ?_
  rw [Entry.hasFunction]
  cases e.func <;> rfl

/-- The functions of a list of names with different paths. -/
theorem numbered_components {names : List StdString} (hnd : (names.map components).Nodup) :
    ((numbered names).map fun f => components f.name).Nodup := by
  have hfst : names.zipIdx.map Prod.fst = names := List.zipIdx_map_fst 0 names
  have heq : (numbered names).map (fun f => components f.name) = names.map components := by
    calc (numbered names).map (fun f => components f.name)
        = (names.zipIdx.map Prod.fst).map components := by rw [numbered, List.map_map, List.map_map]; rfl
      _ = names.map components := by rw [hfst]
  rwa [heq]

/-- The function with the id `i` is the one with the name number `i`. -/
theorem getFunction_load {names : List StdString} (hnd : (names.map components).Nodup) (hlen : names.length ≤ 2 ^ 32)
    {i : ℕ} {x : StdString} (hi : names[i]? = some x) :
    (load names new).getFunction (UInt32.ofNat i) = .ok ⟨UInt32.ofNat i, x⟩ := by
  obtain ⟨paths, hok⟩ := load_ok hlen
  have hmem : (⟨UInt32.ofNat i, x⟩ : Function) ∈ numbered names := mem_numbered.2 ⟨i, hi, rfl⟩
  obtain ⟨f', hf', hfind⟩ := getFunction_eq hok (numbered_ids hlen) hmem
  rw [hf', find_self (numbered_components hnd) hmem hfind]

/-- Saved names with the ids that they had are saved in the order in which they were loaded. -/
theorem toJson_of_keepsIds {names : List StdString} (hnd : (names.map components).Nodup)
    (hlen : names.length ≤ 2 ^ 32) (h : KeepsIds names) : (load names new).toJson = names := by
  obtain ⟨paths, hok⟩ := load_ok hlen
  have hcount : (load names new).toJson.length = names.length := by
    rw [length_toJson, count_eq hok (numbered_components hnd), numbered, List.length_map, List.length_zipIdx]
  have hnd' := (toJson_sublist hok).nodup hok.trie.nodup
  refine List.ext_getElem? fun i => ?_
  rcases Nat.lt_or_ge i names.length with hlt | hge
  · have hx := List.getElem?_eq_getElem hlt
    have hy := List.getElem?_eq_getElem (hcount ▸ hlt)
    have hget := h.designates (UInt32.ofNat i)
    rw [getFunction_load hnd hlen hx, getFunction_load hnd' (hcount ▸ hlen) hy] at hget
    rw [hx, hy, (Function.mk.inj (Except.ok.inj hget)).2]
  · rw [List.getElem?_eq_none hge, List.getElem?_eq_none (hcount ▸ hge)]

end CAFStore

open CAFStore

/-- **Reloading keeps the ids** if no name's path is a part of an earlier name's path, and only then, as
far as the ids go. -/
theorem reloaded_iff {names : List StdString} (hnd : (names.map components).Nodup) :
    (PrefixesFirst names → KeepsIds names) ∧ (names.length ≤ 2 ^ 32 → KeepsIds names → PrefixesFirst names) := by
  refine ⟨fun hfirst => ?_, fun hlen hkeep i j x y hi hj hij hpre => ?_⟩
  · unfold KeepsIds
    rw [toJson_load hfirst]
    exact ⟨fun _ => Iff.rfl, fun _ => rfl⟩
  · obtain ⟨paths, hok⟩ := load_ok hlen
    have hsub := toJson_sublist hok
    rw [toJson_of_keepsIds hnd hlen hkeep] at hsub
    -- in the order of the entries `x` comes before `y`, but its path continues that of `y`
    obtain ⟨f, hf⟩ := List.sublist_iff_exists_orderEmbedding_getElem?_eq.1 hsub
    have hx : (names.map components)[i]? = some (components x) := by rw [List.getElem?_map, hi]; rfl
    have hy : (names.map components)[j]? = some (components y) := by rw [List.getElem?_map, hj]; rfl
    have hne : components y ≠ components x := by
      intro heq
      rw [← heq] at hx
      have := (List.getElem?_inj (List.getElem?_eq_some_iff.1 hx).1 hnd).1 (hx.trans hy.symm)
      omega
    have hlt := lt_of_part hok.trie ((hf j).symm.trans hy) ((hf i).symm.trans hx) hpre hne
    have := f.lt_iff_lt.2 hij
    omega

/-- `a` and `a.b`: the shorter path first. -/
theorem shorter_first_reloaded_iff :
    (PrefixesFirst [[97], [97, 46, 98]] → KeepsIds [[97], [97, 46, 98]]) ∧
      ([[97], [97, 46, 98]].length ≤ 2 ^ 32 → KeepsIds [[97], [97, 46, 98]] → PrefixesFirst [[97], [97, 46, 98]]) :=
  reloaded_iff (by decide)

/-- `a.b` and `a`: the ids are exchanged. -/
theorem ids_exchanged : ([[97, 46, 98], [97]].map components).Nodup ∧ ¬ KeepsIds [[97, 46, 98], [97]] := by
  refine ⟨by decide, fun h => ?_⟩
  have hid := h.designates 0
  cases hid

end Caf
