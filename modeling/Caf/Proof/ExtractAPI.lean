import Caf.Spec.ExtractAPI

/-!
# The functions that are found

`findFunctions` is a breadth-first search: what it keeps in its queue are the nodes of the search, under the names of
their paths.

* `loop_eq`: the outer loop is the search.
* `findFunctions_finds`: every function that can be reached is found once, the nearer ones first.
-/

namespace Caf

open BreadthFirst

namespace PropertyGraph

variable {V : Type} {g : PropertyGraph V} {global u v w : V} {p q : List ℕ}

/-- A path with one more name. -/
def extendName (path name : StdString) : StdString := (if 0 < path.length then path ++ [separator] else path) ++ name

/-- The name of a path. -/
def pathName (names : List StdString) : StdString := names.foldl extendName []

/-- The functions that a search found, with ids from `id` on. -/
def infos (g : PropertyGraph V) (global : V) : ℕ → List (List ℕ × V) → List (FunctionInfo V)
  | _, [] => []
  | id, e :: rest =>
    if g.isFunction e.2 then ⟨id, pathName (g.namesOn e.1 global), e.2⟩ :: infos g global (id + 1) rest
    else infos g global id rest

theorem mem_properties {name : StdString} :
    (name, v) ∈ g.properties u ↔
      name ∈ g.ownPropertyNames u ∧ ¬ Excluded name ∧ g.read u name = some v ∧ g.isNullish v = false := by
  unfold properties Excluded
  rw [List.mem_filterMap]
  constructor
  · rintro ⟨n, hn, h⟩
    split at h
    · cases h
    · split at h
      · cases h
      · split at h
        · cases h
        · split at h
          · cases h
          · cases h
            simp_all
  · rintro ⟨hname, hex, hread, hnull⟩
    rw [not_or] at hex
    refine ⟨name, hname, ?_⟩
    rw [if_neg (by simpa using hex.1), if_neg (by simpa using hex.2), hread]
    simp [hnull]

theorem namesOn_cons {i : ℕ} {name : StdString} (hi : (g.properties u)[i]? = some (name, w)) (p : List ℕ) :
    g.namesOn (i :: p) u = name :: g.namesOn p w := by
  rw [namesOn, hi]

theorem namesOn_concat {i : ℕ} {name : StdString} (hp : Leads g.next p u v)
    (hi : (g.properties v)[i]? = some (name, w)) :
    g.namesOn (p ++ [i]) u = g.namesOn p u ++ [name] := by
  induction p generalizing u with
  | nil =>
    have heq : u = v := hp
    rw [heq]
    exact namesOn_cons hi []
  | cons k p ih =>
    obtain ⟨x, hx, hp⟩ := hp
    unfold next at hx
    rw [List.getElem?_map] at hx
    obtain ⟨⟨n, y⟩, hy, rfl⟩ := Option.map_eq_some_iff.1 hx
    rw [List.cons_append, namesOn_cons hy, namesOn_cons hy, ih hp]
    rfl

theorem pathName_concat (names : List StdString) (name : StdString) :
    pathName (names ++ [name]) = extendName (pathName names) name := by
  simp [pathName]

theorem infos_cons (id : ℕ) (e : List ℕ × V) (rest : List (List ℕ × V)) :
    g.infos global id (e :: rest) = if g.isFunction e.2
      then ⟨id, pathName (g.namesOn e.1 global), e.2⟩ :: g.infos global (id + 1) rest else g.infos global id rest :=
  rfl

/-! ## The loops -/

section

variable [DecidableEq V]

/-- An entry of the queue. -/
def entry (g : PropertyGraph V) (global : V) (e : List ℕ × V) : StdString × V :=
  (pathName (g.namesOn e.1 global), e.2)

/-- A property that the search follows. -/
def visitChild (path : StdString) (s : Finder V) (x : StdString × V) : Finder V :=
  if x.2 ∈ s.visited then s
  else { s with queue := s.queue ++ [(extendName path x.1, x.2)], visited := s.visited ++ [x.2] }

theorem foldl_visitProperty (path : StdString) (obj : V) (s : Finder V) :
    (g.ownPropertyNames obj).foldl (g.visitProperty path obj) s = (g.properties obj).foldl (visitChild path) s := by
  unfold properties
  rw [List.foldl_filterMap]
  congr 1
  funext s name
  unfold visitProperty
  split
  · rfl
  · split
    · rfl
    · cases g.read obj name with
      | none => rfl
      | some children =>
        dsimp only
        split <;> rfl

/-- **The inner loop** finds the new successors. -/
theorem foldl_visitChild (g : PropertyGraph V) (global : V) (p : List ℕ) {l : List (StdString × V)} (k : ℕ)
    {path : StdString} {s : Finder V}
    (h : ∀ j x, l[j]? = some x → pathName (g.namesOn (p ++ [k + j]) global) = extendName path x.1) :
    l.foldl (visitChild path) s =
      { s with
        queue := s.queue ++ (fresh p ((l.map Prod.snd).zipIdx k) s.visited).map (g.entry global)
        visited := s.visited ++ (fresh p ((l.map Prod.snd).zipIdx k) s.visited).map Prod.snd } := by
  induction l generalizing k s with
  | nil => simp [fresh]
  | cons x l ih =>
    have hhead := h 0 x rfl
    have htail : ∀ j y, l[j]? = some y → pathName (g.namesOn (p ++ [k + 1 + j]) global) = extendName path y.1 := by
      intro j y hy
      rw [show k + 1 + j = k + (j + 1) by omega]
      exact h (j + 1) y hy
    rw [List.foldl_cons, List.map_cons, List.zipIdx_cons, ih (k + 1) htail]
    by_cases hx : x.2 ∈ s.visited
    · have hvisit : visitChild path s x = s := if_pos hx
      rw [fresh_seen hx, hvisit]
    · have hvisit : visitChild path s x =
          { s with queue := s.queue ++ [(extendName path x.1, x.2)], visited := s.visited ++ [x.2] } := if_neg hx
      rw [fresh_new hx, hvisit]
      simp [entry, ← hhead]

/-- **The outer loop** is the search. -/
theorem loop_eq {turns : ℕ} {done queue : List (List ℕ × V)} {s : Finder V} (h : Explored g.next global done queue)
    (hqueue : s.queue = queue.map (g.entry global)) (hvisited : s.visited = (done ++ queue).map Prod.snd) :
    g.loop turns s = (search g.next turns queue s.visited).map fun out => s.funcs ++ g.infos global s.id out := by
  induction turns generalizing done queue s with
  | zero =>
    unfold loop
    rw [hqueue]
    cases queue with
    | nil => simp [search, infos]
    | cons e queue => rfl
  | succ turns ih =>
    unfold loop
    rw [hqueue]
    cases queue with
    | nil => simp [search, infos]
    | cons e queue =>
      obtain ⟨p, v⟩ := e
      have hlead : Leads g.next p global v := h.leads (p, v) (List.mem_append_right _ List.mem_cons_self)
      show g.loop turns (g.visitObject (pathName (g.namesOn p global)) v
        { s with queue := queue.map (g.entry global) }) = _
      -- the state after the turn
      have hturn : g.visitObject (pathName (g.namesOn p global)) v { s with queue := queue.map (g.entry global) } =
          { funcs := s.funcs ++ if g.isFunction v then [⟨s.id, pathName (g.namesOn p global), v⟩] else []
            queue := (queue ++ fresh p (g.next v).zipIdx s.visited).map (g.entry global)
            visited := s.visited ++ (fresh p (g.next v).zipIdx s.visited).map Prod.snd
            id := if g.isFunction v then s.id + 1 else s.id } := by
        unfold visitObject
        by_cases hnull : g.isNullish v = true
        · -- the turn does nothing with undefined or null, and neither does the search
          have hnext : g.next v = [] := by
            unfold next properties
            rw [g.nullish_names v hnull]
            rfl
          rw [if_pos hnull, g.nullish_function v hnull, hnext]
          simp [fresh]
        · rw [if_neg hnull, foldl_visitProperty, foldl_visitChild g global p 0]
          · unfold next
            by_cases hfun : g.isFunction v = true
            · simp [hfun]
            · simp [hfun]
          · rintro j ⟨name, w⟩ hj
            rw [Nat.zero_add, namesOn_concat hlead hj, pathName_concat]
      rw [hturn, ih h.step (by rw [hvisited]) (by simp [hvisited])]
      simp only [hvisited]
      rw [search_cons, Option.map_map]
      dsimp only [Function.comp_def]
      congr 1
      funext out
      rw [infos_cons]
      by_cases hfun : g.isFunction v = true
      · simp [hfun]
      · simp [hfun]

end

/-! ## What is found -/

theorem step_of_next {i : ℕ} (h : (g.next u)[i]? = some v) : g.Step u v ∧ g.isNullish v = false := by
  unfold next at h
  rw [List.getElem?_map] at h
  obtain ⟨⟨name, w⟩, hi, rfl⟩ := Option.map_eq_some_iff.1 h
  obtain ⟨hname, hex, hread, hnull⟩ := mem_properties.1 (List.mem_of_getElem? hi)
  exact ⟨⟨name, hname, hex, hread⟩, hnull⟩

theorem next_of_step (h : g.Step u v) (hv : g.isNullish v = false) : ∃ i : ℕ, (g.next u)[i]? = some v := by
  obtain ⟨name, hname, hex, hread⟩ := h
  have hmem : (name, v) ∈ g.properties u := mem_properties.2 ⟨hname, hex, hread, hv⟩
  obtain ⟨i, hi⟩ := List.getElem?_of_mem hmem
  exact ⟨i, by unfold next; rw [List.getElem?_map, hi]; rfl⟩

theorem reachesIn_of_leads (h : Leads g.next p u v) : g.ReachesIn p.length u v := by
  induction p generalizing u with
  | nil => exact h
  | cons i p ih =>
    obtain ⟨w, hw, hp⟩ := h
    exact ⟨w, (step_of_next hw).1, ih hp⟩

/-- Undefined and null lead nowhere. -/
theorem leads_of_reachesIn {n : ℕ} (h : g.ReachesIn n u v) (hv : g.isNullish v = false) :
    ∃ p, p.length = n ∧ Leads g.next p u v := by
  induction n generalizing u with
  | zero => exact ⟨[], rfl, h⟩
  | succ n ih =>
    obtain ⟨w, hstep, hw⟩ := h
    have hnull : g.isNullish w = false := by
      cases n with
      | zero =>
        have heq : w = v := hw
        rw [heq, hv]
      | succ n =>
        obtain ⟨x, ⟨name, hname, -⟩, -⟩ := hw
        by_contra hnull
        rw [g.nullish_names w (by simpa using hnull)] at hname
        cases hname
    obtain ⟨i, hi⟩ := next_of_step hstep hnull
    obtain ⟨p, hp, hlead⟩ := ih hw
    exact ⟨i :: p, by rw [List.length_cons, hp], w, hi, hlead⟩

theorem isNullish_of_isFunction (h : g.isFunction v = true) : g.isNullish v = false := by
  by_contra hnull
  rw [g.nullish_function v (by simpa using hnull)] at h
  cases h

/-- The steps of the earliest path to a function are its distance. -/
theorem distance_eq {n : ℕ} (h : Earliest g.next global v p) (hv : g.isFunction v = true)
    (hn : g.Distance global v n) : n = p.length := by
  apply le_antisymm (hn.2 _ (reachesIn_of_leads h.1))
  obtain ⟨q, hq, hlead⟩ := leads_of_reachesIn hn.1 (isNullish_of_isFunction hv)
  rw [← hq]
  exact h.length_le hlead

variable {out : List (List ℕ × V)}

theorem infos_func (global : V) (id : ℕ) (out : List (List ℕ × V)) :
    (g.infos global id out).map (·.func) = (out.map Prod.snd).filter g.isFunction := by
  induction out generalizing id with
  | nil => rfl
  | cons e out ih =>
    rw [infos_cons, List.map_cons, List.filter_cons]
    split
    · rw [List.map_cons, ih]
    · exact ih id

theorem infos_ids (id : ℕ) (out : List (List ℕ × V)) :
    (g.infos global id out).map (·.id) = List.range' id (g.infos global id out).length := by
  induction out generalizing id with
  | nil => rfl
  | cons e out ih =>
    rw [infos_cons]
    split
    · rw [List.map_cons, ih, List.length_cons, List.range'_succ]
    · exact ih id

/-- The functions are the nodes of the search that are functions. -/
theorem mem_infos {id : ℕ} {f : FunctionInfo V} (h : f ∈ g.infos global id out) :
    ∃ p, (p, f.func) ∈ out ∧ f.name = pathName (g.namesOn p global) ∧ g.isFunction f.func = true := by
  induction out generalizing id with
  | nil => cases h
  | cons e out ih =>
    rw [infos_cons] at h
    have hrest : ∀ {id}, f ∈ g.infos global id out →
        ∃ p, (p, f.func) ∈ e :: out ∧ f.name = pathName (g.namesOn p global) ∧ g.isFunction f.func = true := by
      intro id hf
      obtain ⟨p, hp, hname, hfun⟩ := ih hf
      exact ⟨p, List.mem_cons_of_mem _ hp, hname, hfun⟩
    split at h
    · rename_i hfun
      rcases List.mem_cons.1 h with rfl | h
      · exact ⟨e.1, List.mem_cons_self, rfl, hfun⟩
      · exact hrest h
    · exact hrest h

theorem reachable_iff (hv : g.isFunction v = true) : g.Reachable u v ↔ ∃ p, Leads g.next p u v := by
  constructor
  · rintro ⟨n, hn⟩
    obtain ⟨p, -, hp⟩ := leads_of_reachesIn hn (isNullish_of_isFunction hv)
    exact ⟨p, hp⟩
  · rintro ⟨p, hp⟩
    exact ⟨p.length, reachesIn_of_leads hp⟩

theorem Found.findsEach (h : Found g.next global out) : g.FindsEach global (g.infos global 0 out) := by
  refine ⟨?_, ?_, ?_, ?_⟩
  · rw [infos_func]
    exact h.nodup.filter _
  · intro v
    rw [infos_func, List.mem_filter, and_comm]
    refine and_congr_right fun hv => ?_
    rw [reachable_iff hv, List.mem_map]
    constructor
    · rintro ⟨e, he, rfl⟩
      exact ⟨e.1, ((h.mem_iff e.1 e.2).1 he).1⟩
    · rintro ⟨q, hq⟩
      obtain ⟨p, hp⟩ := h.complete q v hq
      exact ⟨_, hp, rfl⟩
  · rw [infos_ids, List.range_eq_range']
  · have hnodes : (out.map Prod.snd).Pairwise fun v w => g.isFunction v = true → g.isFunction w = true →
        ∀ m n, g.Distance global v m → g.Distance global w n → m ≤ n := by
      rw [List.pairwise_map]
      refine h.sorted.imp_of_mem ?_
      rintro ⟨p, v⟩ ⟨q, w⟩ hp hq hlt hv hw m n hm hn
      rw [distance_eq ((h.mem_iff p v).1 hp) hv hm, distance_eq ((h.mem_iff q w).1 hq) hw hn]
      exact hlt.length_le
    have hfuncs := hnodes.filter (p := g.isFunction)
    rw [← infos_func global 0 out, List.pairwise_map] at hfuncs
    refine hfuncs.imp_of_mem ?_
    intro f f' hf hf' hle
    obtain ⟨-, -, -, hfun⟩ := mem_infos hf
    obtain ⟨-, -, -, hfun'⟩ := mem_infos hf'
    exact hle hfun hfun'

/-- What `findFunctions` returns, from what the search finds. -/
theorem findFunctions_found [DecidableEq V] (h : {v | g.Reachable global v}.Finite) :
    ∃ out, Found g.next global out ∧ ∃ turns, ∀ turns' ≥ turns,
      g.findFunctions global turns' = some (g.infos global 0 out) := by
  have hnodes : ∀ q v, Leads g.next q global v → v ∈ h.toFinset := by
    intro q v hq
    rw [Set.Finite.mem_toFinset]
    exact ⟨q.length, reachesIn_of_leads hq⟩
  obtain ⟨out, hout⟩ := search_ends hnodes (le_refl _)
  refine ⟨out, search_found hout, h.toFinset.card, fun turns' hle => ?_⟩
  unfold findFunctions
  rw [loop_eq (explored_start g.next global) rfl rfl, search_mono hout hle]
  simp

/-- **Every function that can be reached is found once**, the nearer ones first, and the search ends. -/
theorem findFunctions_finds [DecidableEq V] (h : {v | g.Reachable global v}.Finite) :
    ∃ turns funcs, (∀ turns' ≥ turns, g.findFunctions global turns' = some funcs) ∧ g.FindsEach global funcs := by
  obtain ⟨out, hfound, turns, hturns⟩ := findFunctions_found h
  exact ⟨turns, _, hturns, Found.findsEach hfound⟩

/-- A global object with a function, whose prototype refers to it, and with a reference to itself. -/
def cyclicGraph : PropertyGraph (Fin 3) where
  ownPropertyNames v :=
    if v = 0 then [text "self", text "f"] else if v = 1 then [text "prototype"] else [text "constructor"]
  read v name := some (if name = text "self" then 0 else if v = 1 then 2 else 1)
  isNullish _ := false
  isFunction v := v = 1
  nullish_names := fun v h => by cases h
  nullish_function := fun v h => by cases h

theorem cyclicGraph_finds : ∃ turns funcs, (∀ turns' ≥ turns, cyclicGraph.findFunctions 0 turns' = some funcs) ∧
    cyclicGraph.FindsEach 0 funcs :=
  findFunctions_finds (Set.toFinite _)

end PropertyGraph

end Caf
