import Caf.Proof.ExtractAPI
import Caf.Proof.Store

/-!
# The names of the functions

The name of a path is its names joined with dots, without those that are empty at the start. It identifies the
function if the pieces that it is cut into lead there.

* `splitOn_pathName`: the pieces of a name.
* `cutRight_of_plain`: plain property names are cut into themselves.
* `namesIdentify_iff`: when the names identify the functions.
-/

namespace Caf

open BreadthFirst

namespace PropertyGraph

variable {V : Type} {g : PropertyGraph V} {global u v w : V} {p q : List ℕ} {names : List StdString}

/-! ## The pieces of a name -/

theorem components_eq (x : StdString) : components x = withoutLastEmpty (x.splitOn separator) := by
  unfold withoutLastEmpty
  rcases splitOn_eq_components x with ⟨hx, hlast⟩ | hx
  · rw [hx, if_neg hlast]
  · rw [hx, List.getLast?_concat, if_pos rfl, List.dropLast_concat]

/-- Behind a name that is not empty, every name is a piece or more. -/
theorem splitOn_foldl_extendName (path : StdString) (hpath : path ≠ []) (names : List StdString) :
    (names.foldl extendName path).splitOn separator =
      path.splitOn separator ++ names.flatMap (·.splitOn separator) := by
  induction names generalizing path with
  | nil => simp
  | cons name names ih =>
    have hstep : extendName path name = path ++ separator :: name := by
      unfold extendName
      rw [if_pos (List.length_pos_iff.2 hpath)]
      simp
    rw [List.foldl_cons, hstep, ih _ (by simp), List.splitOn_append_cons_self, List.flatMap_cons, List.append_assoc]

/-- **The pieces of the name of a path.** -/
theorem splitOn_pathName (names : List StdString) : (pathName names).splitOn separator = cut names := by
  unfold pathName cut
  induction names with
  | nil => rfl
  | cons name names ih =>
    by_cases hname : name = []
    · subst hname
      exact ih
    · obtain ⟨b, name, rfl⟩ := List.exists_cons_of_ne_nil hname
      have hstep : extendName [] (b :: name) = b :: name := rfl
      rw [List.foldl_cons, hstep, splitOn_foldl_extendName _ hname]
      rfl

/-! ## What the names say -/

/-- The names on a path lead along it. -/
theorem follow_namesOn (h : Leads g.next p u v) : g.follow (g.namesOn p u) u = some v := by
  induction p generalizing u with
  | nil => exact congrArg some h
  | cons i p ih =>
    obtain ⟨x, hx, hp⟩ := h
    unfold next at hx
    rw [List.getElem?_map] at hx
    obtain ⟨⟨name, y⟩, hy, rfl⟩ := Option.map_eq_some_iff.1 hx
    obtain ⟨hname, -, hread, -⟩ := mem_properties.1 (List.mem_of_getElem? hy)
    rw [namesOn_cons hy, follow, if_pos hname, hread]
    exact ih hp

theorem mem_namesOn {name : StdString} (h : name ∈ g.namesOn p u) : ∃ v w, (name, w) ∈ g.properties v := by
  induction p generalizing u with
  | nil => cases h
  | cons i p ih =>
    unfold namesOn at h
    split at h
    · cases h
    · rename_i n w hi
      rcases List.mem_cons.1 h with rfl | h
      · exact ⟨u, w, List.mem_of_getElem? hi⟩
      · exact ih h

/-- The store has an entry of its own for each name, if their components differ. -/
theorem entryOf_ne (hlen : names.length ≤ 2 ^ 32) (hnd : (names.map components).Nodup) {i j : ℕ} (hij : i < j)
    (hj : j < names.length) : ∃ e e', entryOf (CAFStore.load names .new) i = some e ∧
      entryOf (CAFStore.load names .new) j = some e' ∧ e ≠ e' := by
  obtain ⟨paths, hok⟩ := CAFStore.load_ok hlen
  have hentry : ∀ k (hk : k < names.length), ∃ e, entryOf (CAFStore.load names .new) k = some e ∧
      paths[e]? = some (components names[k]) := fun k hk =>
    CAFStore.lookup_eq (f := ⟨UInt32.ofNat k, names[k]⟩) hok (CAFStore.numbered_ids hlen)
      (CAFStore.mem_numbered.2 ⟨k, List.getElem?_eq_getElem hk, rfl⟩)
  obtain ⟨e, he, hpath⟩ := hentry i (hij.trans hj)
  obtain ⟨e', he', hpath'⟩ := hentry j hj
  refine ⟨e, e', he, he', ?_⟩
  rintro rfl
  have hcomp := Option.some.inj (hpath.symm.trans hpath')
  have hne := List.pairwise_iff_getElem.1 hnd i j (by simpa using hij.trans hj) (by simpa using hj) hij
  simp only [List.getElem_map] at hne
  exact hne hcomp

/-- Names that lead to different functions are different. -/
theorem nodup_of_follow {α : Type} {funcs : List (FunctionInfo V)} (parts : α → List StdString)
    (hnd : (funcs.map (·.func)).Nodup) {name : FunctionInfo V → α}
    (h : ∀ f ∈ funcs, g.follow (parts (name f)) global = some f.func) : (funcs.map name).Nodup := by
  have hinj : ∀ f ∈ funcs, ∀ f' ∈ funcs, name f = name f' → f = f' := by
    intro f hf f' hf' heq
    refine List.inj_on_of_nodup_map hnd hf hf' (Option.some.inj ?_)
    rw [← h f hf, ← h f' hf', heq]
  exact List.Nodup.map_on hinj (List.Nodup.of_map _ hnd)

/-- Names that are not empty and have no dots are left as they are. -/
theorem cut_of_plain (hne : names ≠ []) (h : ∀ name ∈ names, name ≠ [] ∧ separator ∉ name) : cut names = names := by
  obtain ⟨name, rest, rfl⟩ := List.exists_cons_of_ne_nil hne
  have hname := (h name List.mem_cons_self).1
  have hempty : name.isEmpty = false := by simpa using hname
  have hpieces : ∀ l : List StdString, (∀ name ∈ l, separator ∉ name) → l.flatMap (·.splitOn separator) = l := by
    intro l hl
    induction l with
    | nil => rfl
    | cons x l ih =>
      rw [List.flatMap_cons, List.splitOn_eq_singleton (hl x List.mem_cons_self),
        ih fun y hy => hl y (List.mem_cons_of_mem _ hy)]
      rfl
  unfold cut
  rw [List.all_cons, hempty, Bool.false_and, if_neg Bool.false_ne_true, List.dropWhile_cons, hempty,
    if_neg Bool.false_ne_true]
  exact hpieces _ fun x hx => (h x hx).2

/-- **Plain names do not lead astray**: it is enough that no property that is followed has an empty name or a dot in its
name, and that the global object is no function. -/
theorem cutRight_of_plain (hplain : ∀ u name w, (name, w) ∈ g.properties u → name ≠ [] ∧ separator ∉ name)
    (hglobal : g.isFunction global = false) : g.CutRight global := by
  intro v p hv hp
  have hnames : ∀ name ∈ g.namesOn p global, name ≠ [] ∧ separator ∉ name := by
    intro name hname
    obtain ⟨u, w, hmem⟩ := mem_namesOn hname
    exact hplain u name w hmem
  have hfollow := follow_namesOn hp.1
  have hne : g.namesOn p global ≠ [] := by
    intro hnil
    rw [hnil] at hfollow
    rw [← Option.some.inj hfollow, hglobal] at hv
    cases hv
  have hlast : (g.namesOn p global).getLast? ≠ some [] := fun h => (hnames _ (List.mem_of_getLast? h)).1 rfl
  unfold withoutLastEmpty
  rw [cut_of_plain hne hnames, if_neg hlast]
  exact ⟨hfollow, hfollow⟩

/-- **The names identify the functions** just if cutting them does not lead astray. -/
theorem namesIdentify_iff [DecidableEq V] (h : {v | g.Reachable global v}.Finite) :
    (∃ turns funcs, (∀ turns' ≥ turns, g.findFunctions global turns' = some funcs) ∧ g.NamesIdentify global funcs) ↔
      g.CutRight global := by
  obtain ⟨out, hfound, turns, hturns⟩ := findFunctions_found h
  have hpieces : ∀ names, components (pathName names) = withoutLastEmpty (cut names) := by
    intro names
    rw [components_eq, splitOn_pathName]
  constructor
  · rintro ⟨turns', funcs, hfuncs, hok⟩ v p hv hp
    have heq := (hturns (max turns turns') (le_max_left _ _)).symm.trans (hfuncs _ (le_max_right _ _))
    cases heq
    -- the search finds `v`, and on no other path than `p`
    have hmem : v ∈ (g.infos global 0 out).map (·.func) := by
      rw [infos_func, List.mem_filter]
      exact ⟨List.mem_map_of_mem ((hfound.mem_iff p v).2 hp), hv⟩
    obtain ⟨f, hf, rfl⟩ := List.mem_map.1 hmem
    obtain ⟨q, hq, hname, -⟩ := mem_infos hf
    rw [hp.unique ((hfound.mem_iff q f.func).1 hq), ← splitOn_pathName, ← components_eq, ← hname]
    exact ⟨hok.resolves f hf, hok.loaded f hf⟩
  · intro hcut
    refine ⟨turns, _, hturns, ?_⟩
    have hnd := (Found.findsEach hfound).nodup
    have hright : ∀ f ∈ g.infos global 0 out, g.follow (f.name.splitOn separator) global = some f.func ∧
        g.follow (components f.name) global = some f.func := by
      intro f hf
      obtain ⟨p, hp, hname, hfun⟩ := mem_infos hf
      rw [hname, hpieces, splitOn_pathName]
      exact hcut _ _ hfun ((hfound.mem_iff p f.func).1 hp)
    refine ⟨nodup_of_follow (·.splitOn separator) hnd fun f hf => (hright f hf).1, fun f hf =>
      (hright f hf).1, fun f hf => (hright f hf).2, ?_⟩
    intro kept hkept hlen i j hij hj
    have hcomp : (kept.map fun f => components f.name).Nodup := by
      have hall : ((g.infos global 0 out).map fun f => components f.name).Nodup :=
        nodup_of_follow id hnd fun f hf => (hright f hf).2
      exact hall.sublist (hkept.map _)
    refine entryOf_ne (by simpa using hlen) ?_ hij (by simpa using hj)
    rwa [List.map_map]

/-- The names of the cyclic graph are plain. -/
theorem cyclicGraph_identify : ∃ turns funcs,
    (∀ turns' ≥ turns, cyclicGraph.findFunctions 0 turns' = some funcs) ∧ cyclicGraph.NamesIdentify 0 funcs := by
  have hplain : ∀ u, ∀ property ∈ cyclicGraph.properties u, property.1 ≠ [] ∧ separator ∉ property.1 := by decide
  refine (namesIdentify_iff (Set.toFinite _)).2 (cutRight_of_plain (fun u name w h => ?_) rfl)
  exact hplain u (name, w) h

/-- A function that is kept under a name with a dot. -/
def dottedGraph : PropertyGraph Bool where
  ownPropertyNames v := if v then [] else [[97, 46, 98]]
  read _ _ := some true
  isNullish _ := false
  isFunction v := v
  nullish_names := fun v h => by cases h
  nullish_function := fun v h => by cases h

/-- The name `a.b` is cut. -/
theorem dotted_not_identified : {v | dottedGraph.Reachable false v}.Finite ∧
    ¬ ∃ turns funcs, (∀ turns' ≥ turns, dottedGraph.findFunctions false turns' = some funcs) ∧
      dottedGraph.NamesIdentify false funcs := by
  refine ⟨Set.toFinite _, ?_⟩
  rintro ⟨turns, funcs, hfuncs, hok⟩
  have hend : ∀ (n : ℕ) (s : Finder Bool), s.queue = [] → dottedGraph.loop n s = some s.funcs := by
    intro n s hs
    cases n <;> simp [loop, hs]
  have heval : dottedGraph.findFunctions false (turns + 2) = some [⟨0, [97, 46, 98], true⟩] :=
    hend turns ⟨[⟨0, [97, 46, 98], true⟩], [], [false, true], 1⟩ rfl
  cases (hfuncs (turns + 2) (by omega)).symm.trans heval
  have hcut := hok.resolves ⟨0, [97, 46, 98], true⟩ List.mem_cons_self
  have hnone : dottedGraph.follow ([97, 46, 98].splitOn separator) false = none := by decide
  rw [hnone] at hcut
  cases hcut

end PropertyGraph

end Caf
