import Mathlib.Data.Finset.Card
import Mathlib.Data.List.Induction
import Mathlib.Data.List.Nodup
import Mathlib.Data.List.Shortlex

/-!
# Breadth-first search

A graph gives the list of successors of every node, and a path is a list of positions in these lists. The search keeps
a queue of nodes with the paths to them, and the nodes that it has come upon.

* `Leads`: where a path leads.
* `Earlier`: the order in which the search comes upon paths.
* `search_found`: what the search finds, with the earliest path to each node.
* `search_ends`: how many turns it takes.
-/

namespace BreadthFirst

variable {V : Type*} {next : V → List V} {s u v w : V} {p q r : List ℕ} {i j : ℕ}

/-! ## Paths -/

/-- The path leads from `s` to `v`. -/
def Leads (next : V → List V) : List ℕ → V → V → Prop
  | [], s, v => s = v
  | i :: p, s, v => ∃ w, (next s)[i]? = some w ∧ Leads next p w v

theorem leads_concat : Leads next (p ++ [i]) s w ↔ ∃ v, Leads next p s v ∧ (next v)[i]? = some w := by
  induction p generalizing s with
  | nil =>
    refine ⟨fun ⟨v, hv, hvw⟩ => ⟨s, rfl, hvw ▸ hv⟩, ?_⟩
    rintro ⟨v, rfl, hv⟩
    exact ⟨w, hv, rfl⟩
  | cons k p ih =>
    constructor
    · rintro ⟨u, hu, hp⟩
      obtain ⟨v, hv, hw⟩ := ih.1 hp
      exact ⟨v, ⟨u, hu, hv⟩, hw⟩
    · rintro ⟨v, ⟨u, hu, hv⟩, hw⟩
      exact ⟨u, hu, ih.2 ⟨v, hv, hw⟩⟩

/-- A path leads to one node. -/
theorem Leads.unique (h : Leads next p s v) (h' : Leads next p s w) : v = w := by
  induction p generalizing s with
  | nil => exact h.symm.trans h'
  | cons i p ih =>
    obtain ⟨u, hu, hv⟩ := h
    obtain ⟨u', hu', hw⟩ := h'
    rw [hu] at hu'
    cases hu'
    exact ih hv hw

/-- Shorter paths first, and paths of the same length by the first position where they differ. -/
def Earlier (p q : List ℕ) : Prop := List.Shortlex (· < ·) p q

theorem Earlier.length_le (h : Earlier p q) : p.length ≤ q.length := by
  rcases List.shortlex_def.1 h with hlt | ⟨heq, -⟩
  · exact hlt.le
  · exact heq.le

theorem Earlier.irrefl (p : List ℕ) : ¬ Earlier p p := by
  intro h
  rcases List.shortlex_def.1 h with hlt | ⟨-, hlex⟩
  · exact lt_irrefl _ hlt
  · exact List.lex_irrefl (fun x => lt_irrefl x) p hlex

theorem Earlier.trans (h : Earlier p q) (h' : Earlier q r) : Earlier p r := by
  rcases List.shortlex_def.1 h with hlt | ⟨heq, hlex⟩
  · exact .of_length_lt (hlt.trans_le h'.length_le)
  · rcases List.shortlex_def.1 h' with hlt' | ⟨heq', hlex'⟩
    · exact .of_length_lt (heq ▸ hlt')
    · exact .of_lex (heq.trans heq') (List.lex_trans lt_trans hlex hlex')

theorem lex_append (h : List.Lex (· < ·) p q) (hlen : p.length = q.length) (s t : List ℕ) :
    List.Lex (· < ·) (p ++ s) (q ++ t) := by
  induction h with
  | nil => cases hlen
  | rel hab => exact .rel hab
  | cons _ ih => exact .cons (ih (Nat.succ.inj hlen))

/-- One step more, after an earlier path. -/
theorem Earlier.concat (h : Earlier p q) (i j : ℕ) : Earlier (p ++ [i]) (q ++ [j]) := by
  rcases List.shortlex_def.1 h with hlt | ⟨heq, hlex⟩
  · apply List.Shortlex.of_length_lt
    simpa using hlt
  · exact .of_lex (by simpa using heq) (lex_append hlex heq _ _)

theorem earlier_concat (p : List ℕ) (i : ℕ) : Earlier p (p ++ [i]) := .of_length_lt (by simp)

theorem earlier_concat_concat (p : List ℕ) (h : i < j) : Earlier (p ++ [i]) (p ++ [j]) := by
  apply List.Shortlex.append_left
  rwa [List.shortlex_singleton_iff]

/-- The earliest path to a node. -/
def Earliest (next : V → List V) (s v : V) (p : List ℕ) : Prop :=
  Leads next p s v ∧ ∀ q, Leads next q s v → p = q ∨ Earlier p q

theorem Earliest.length_le (h : Earliest next s v p) (hq : Leads next q s v) : p.length ≤ q.length := by
  rcases h.2 q hq with rfl | hlt
  · exact le_refl _
  · exact hlt.length_le

theorem Earliest.unique (h : Earliest next s v p) (h' : Earliest next s v q) : p = q := by
  rcases h.2 q h'.1 with heq | hlt
  · exact heq
  · rcases h'.2 p h.1 with heq | hlt'
    · exact heq.symm
    · exact absurd (hlt.trans hlt') (Earlier.irrefl p)

/-! ## The search -/

/-- What the search has come upon: the nodes that had their turn, and then those of the queue. -/
structure Explored (next : V → List V) (s : V) (done queue : List (List ℕ × V)) : Prop where
  start : ([], s) ∈ done ++ queue
  nodup : ((done ++ queue).map Prod.snd).Nodup
  leads : ∀ e ∈ done ++ queue, Leads next e.1 s e.2
  sorted : (done ++ queue).Pairwise fun e e' => Earlier e.1 e'.1
  later : ∀ e ∈ done ++ queue, ∀ e' ∈ queue, ∀ i, Earlier e.1 (e'.1 ++ [i])
  closed : ∀ e ∈ done, ∀ i w, (next e.2)[i]? = some w →
    ∃ q, (q, w) ∈ done ++ queue ∧ (q = e.1 ++ [i] ∨ Earlier q (e.1 ++ [i]))

theorem explored_start (next : V → List V) (s : V) : Explored next s [] [([], s)] where
  start := List.mem_singleton_self _
  nodup := List.nodup_singleton s
  leads := by
    intro e he
    rw [List.mem_singleton.1 he]
    rfl
  sorted := List.pairwise_singleton _ _
  later := by
    intro e he e' he' i
    rw [List.mem_singleton.1 he, List.mem_singleton.1 he']
    exact earlier_concat [] i
  closed := fun e he => by cases he

theorem zipIdx_sorted (l : List V) : l.zipIdx.Pairwise fun x y => x.2 < y.2 := by
  rw [List.pairwise_iff_getElem]
  intro i j hi hj hij
  simpa using hij

section

variable [DecidableEq V]

/-- The successors that the search has not come upon, each with the path to it. -/
def fresh (p : List ℕ) : List (V × ℕ) → List V → List (List ℕ × V)
  | [], _ => []
  | (w, i) :: rest, seen => if w ∈ seen then fresh p rest seen else (p ++ [i], w) :: fresh p rest (seen ++ [w])

theorem fresh_seen {l : List (V × ℕ)} {seen : List V} (h : w ∈ seen) : fresh p ((w, i) :: l) seen = fresh p l seen :=
  if_pos h

theorem fresh_new {l : List (V × ℕ)} {seen : List V} (h : w ∉ seen) :
    fresh p ((w, i) :: l) seen = (p ++ [i], w) :: fresh p l (seen ++ [w]) :=
  if_neg h

/-- The nodes that the search finds, in their order. The number bounds its turns. -/
def search (next : V → List V) : ℕ → List (List ℕ × V) → List V → Option (List (List ℕ × V))
  | _, [], _ => some []
  | 0, _ :: _, _ => none
  | turns + 1, (p, v) :: queue, seen =>
    let new := fresh p (next v).zipIdx seen
    (search next turns (queue ++ new) (seen ++ new.map Prod.snd)).map ((p, v) :: ·)

theorem search_cons (turns : ℕ) (p : List ℕ) (v : V) (queue : List (List ℕ × V)) (seen : List V) :
    search next (turns + 1) ((p, v) :: queue) seen = (search next turns (queue ++ fresh p (next v).zipIdx seen)
      (seen ++ (fresh p (next v).zipIdx seen).map Prod.snd)).map ((p, v) :: ·) :=
  rfl

variable {l : List (V × ℕ)} {seen : List V} {done queue out : List (List ℕ × V)} {turns : ℕ}

/-- More turns change nothing. -/
theorem search_mono (h : search next turns queue seen = some out) {turns' : ℕ} (hle : turns ≤ turns') :
    search next turns' queue seen = some out := by
  induction turns generalizing queue seen out turns' with
  | zero =>
    cases queue with
    | nil =>
      cases turns' <;> exact h
    | cons e queue => cases h
  | succ turns ih =>
    cases queue with
    | nil =>
      cases turns' <;> exact h
    | cons e queue =>
      obtain ⟨turns', rfl⟩ : ∃ n, turns' = n + 1 := ⟨turns' - 1, by omega⟩
      obtain ⟨out', hout, rfl⟩ := Option.map_eq_some_iff.1 h
      exact Option.map_eq_some_iff.2 ⟨out', ih hout (Nat.le_of_succ_le_succ hle), rfl⟩

theorem mem_fresh {e : List ℕ × V} (h : e ∈ fresh p l seen) : ∃ i, e.1 = p ++ [i] ∧ (e.2, i) ∈ l ∧ e.2 ∉ seen := by
  induction l generalizing seen with
  | nil => cases h
  | cons x rest ih =>
    obtain ⟨w, i⟩ := x
    unfold fresh at h
    split at h
    · obtain ⟨j, hj, hmem, hnot⟩ := ih h
      exact ⟨j, hj, List.mem_cons_of_mem _ hmem, hnot⟩
    · rename_i hw
      rcases List.mem_cons.1 h with rfl | h
      · exact ⟨i, rfl, List.mem_cons_self, hw⟩
      · obtain ⟨j, hj, hmem, hnot⟩ := ih h
        exact ⟨j, hj, List.mem_cons_of_mem _ hmem, fun hseen => hnot (List.mem_append_left _ hseen)⟩

theorem fresh_nodup (h : seen.Nodup) : (seen ++ (fresh p l seen).map Prod.snd).Nodup := by
  induction l generalizing seen with
  | nil => simpa [fresh] using h
  | cons x rest ih =>
    obtain ⟨w, i⟩ := x
    unfold fresh
    split
    · exact ih h
    · rename_i hw
      have hnodup : (seen ++ [w]).Nodup := by
        refine List.nodup_append.2 ⟨h, List.nodup_singleton w, ?_⟩
        intro a ha b hb hab
        rw [List.mem_singleton.1 hb] at hab
        exact hw (hab ▸ ha)
      have := ih hnodup
      rwa [List.append_assoc] at this

/-- The paths to the new nodes are in order. -/
theorem fresh_sorted (h : l.Pairwise fun x y => x.2 < y.2) :
    (fresh p l seen).Pairwise fun e e' => Earlier e.1 e'.1 := by
  induction l generalizing seen with
  | nil => exact .nil
  | cons x rest ih =>
    obtain ⟨w, i⟩ := x
    rw [List.pairwise_cons] at h
    unfold fresh
    split
    · exact ih h.2
    · refine List.pairwise_cons.2 ⟨fun e he => ?_, ih h.2⟩
      obtain ⟨j, hj, hmem, -⟩ := mem_fresh he
      rw [hj]
      exact earlier_concat_concat p (h.1 _ hmem)

/-- A successor that the search has not come upon is found at its first position. -/
theorem fresh_finds (h : l.Pairwise fun x y => x.2 < y.2) (hw : (w, i) ∈ l) :
    w ∈ seen ∨ ∃ j ≤ i, (p ++ [j], w) ∈ fresh p l seen := by
  induction l generalizing seen with
  | nil => cases hw
  | cons x rest ih =>
    obtain ⟨u, k⟩ := x
    rw [List.pairwise_cons] at h
    by_cases hseen : w ∈ seen
    · exact .inl hseen
    right
    unfold fresh
    split
    · rename_i hu
      rcases List.mem_cons.1 hw with heq | hw
      · cases heq
        exact absurd hu hseen
      · exact (ih h.2 hw).resolve_left hseen
    · rcases List.mem_cons.1 hw with heq | hrest
      · cases heq
        exact ⟨i, le_refl i, List.mem_cons_self⟩
      · have hfound : w ∈ seen ++ [u] ∨ ∃ j ≤ i, (p ++ [j], w) ∈ fresh p rest (seen ++ [u]) := ih h.2 hrest
        rcases hfound with hmem | ⟨j, hj, hmem⟩
        · have heq : w = u := by
            rcases List.mem_append.1 hmem with hmem | hmem
            · exact absurd hmem hseen
            · exact List.mem_singleton.1 hmem
          subst heq
          exact ⟨k, (h.1 (w, i) hrest).le, List.mem_cons_self⟩
        · exact ⟨j, hj, List.mem_cons_of_mem _ hmem⟩

/-- **A turn of the search.** -/
theorem Explored.step (h : Explored next s done ((p, v) :: queue)) :
    Explored next s (done ++ [(p, v)])
      (queue ++ fresh p (next v).zipIdx ((done ++ (p, v) :: queue).map Prod.snd)) := by
  set seen := (done ++ (p, v) :: queue).map Prod.snd with hseen
  have hall : done ++ [(p, v)] ++ (queue ++ fresh p (next v).zipIdx seen) =
      done ++ (p, v) :: queue ++ fresh p (next v).zipIdx seen := by simp
  have hp : ∀ e ∈ done ++ (p, v) :: queue, ∀ i, Earlier e.1 (p ++ [i]) := fun e he i =>
    h.later e he (p, v) List.mem_cons_self i
  have hsorted := zipIdx_sorted (next v)
  have hold := List.pairwise_append.1 h.sorted
  refine ⟨?_, ?_, ?_, ?_, ?_, ?_⟩
  · rw [hall]
    exact List.mem_append_left _ h.start
  · rw [hall, List.map_append]
    exact fresh_nodup h.nodup
  · rw [hall]
    intro e he
    rcases List.mem_append.1 he with he | he
    · exact h.leads e he
    · obtain ⟨i, hi, hmem, -⟩ := mem_fresh he
      rw [hi, leads_concat]
      have hv : Leads next p s v := h.leads (p, v) (List.mem_append_right _ List.mem_cons_self)
      exact ⟨v, hv, List.mem_zipIdx_iff_getElem?.1 hmem⟩
  · rw [hall]
    refine List.pairwise_append.2 ⟨h.sorted, fresh_sorted hsorted, fun e he e' he' => ?_⟩
    obtain ⟨i, hi, -⟩ := mem_fresh he'
    rw [hi]
    exact hp e he i
  · rw [hall]
    intro e he e' he' i
    -- the earliest step from a node behind in the queue is later than all steps from `v`
    have hlater : ∀ j, Earlier (p ++ [j]) (e'.1 ++ [i]) := by
      intro j
      rcases List.mem_append.1 he' with hq | hnew
      · exact ((List.pairwise_cons.1 hold.2.1).1 e' hq).concat j i
      · obtain ⟨k, hk, -⟩ := mem_fresh hnew
        rw [hk]
        exact .of_length_lt (by simp)
    rcases List.mem_append.1 he with he | he
    · exact (hp e he 0).trans (hlater 0)
    · obtain ⟨k, hk, -⟩ := mem_fresh he
      rw [hk]
      exact hlater k
  · rw [hall]
    intro e he i w hw
    rcases List.mem_append.1 he with he | he
    · obtain ⟨q, hq, hle⟩ := h.closed e he i w hw
      exact ⟨q, List.mem_append_left _ hq, hle⟩
    · rw [List.mem_singleton.1 he] at hw ⊢
      have hmem : (w, i) ∈ (next v).zipIdx := List.mem_zipIdx_iff_getElem?.2 hw
      have hfound : w ∈ seen ∨ ∃ j ≤ i, (p ++ [j], w) ∈ fresh p (next v).zipIdx seen := fresh_finds hsorted hmem
      rcases hfound with hold | ⟨j, hj, hnew⟩
      · obtain ⟨e', he', rfl⟩ := List.mem_map.1 hold
        exact ⟨e'.1, List.mem_append_left _ he', .inr (hp e' he' i)⟩
      · refine ⟨p ++ [j], List.mem_append_right _ hnew, ?_⟩
        rcases Nat.eq_or_lt_of_le hj with rfl | hlt
        · exact .inl rfl
        · exact .inr (earlier_concat_concat p hlt)

/-- **A whole run of the search.** -/
theorem Explored.run (h : Explored next s done queue)
    (hrun : search next turns queue ((done ++ queue).map Prod.snd) = some out) : Explored next s (done ++ out) [] := by
  induction turns generalizing done queue out with
  | zero =>
    cases queue with
    | nil =>
      cases hrun
      rwa [List.append_nil]
    | cons e queue => cases hrun
  | succ turns ih =>
    cases queue with
    | nil =>
      cases hrun
      rwa [List.append_nil]
    | cons e queue =>
      obtain ⟨p, v⟩ := e
      obtain ⟨out', hout, rfl⟩ := Option.map_eq_some_iff.1 hrun
      have hstep := h.step
      rw [← List.map_append] at hout
      have := ih hstep (by simpa using hout)
      simpa using this

end

/-! ## What the search finds -/

variable {out : List (List ℕ × V)}

/-- Every path is later than the one that the search has found, or is the same. -/
theorem Explored.reaches (h : Explored next s out []) (hq : Leads next q s v) :
    ∃ p, (p, v) ∈ out ∧ (p = q ∨ Earlier p q) := by
  have hclosed := h.closed
  have hstart := h.start
  rw [List.append_nil] at hclosed hstart
  induction q using List.reverseRecOn generalizing v with
  | nil =>
    cases hq
    exact ⟨[], hstart, .inl rfl⟩
  | append_singleton q i ih =>
    obtain ⟨u, hu, hv⟩ := leads_concat.1 hq
    obtain ⟨p, hp, hle⟩ := ih hu
    obtain ⟨r, hr, hle'⟩ := hclosed _ hp i v hv
    refine ⟨r, hr, ?_⟩
    rcases hle with rfl | hlt
    · exact hle'
    · right
      rcases hle' with rfl | hlt'
      · exact hlt.concat i i
      · exact hlt'.trans (hlt.concat i i)

/-- **What the search finds**: every node that a path leads to, once, with its earliest path, in the order of the
paths. -/
structure Found (next : V → List V) (s : V) (out : List (List ℕ × V)) : Prop where
  nodup : (out.map Prod.snd).Nodup
  mem_iff : ∀ p v, (p, v) ∈ out ↔ Earliest next s v p
  complete : ∀ q v, Leads next q s v → ∃ p, (p, v) ∈ out
  sorted : out.Pairwise fun e e' => Earlier e.1 e'.1

theorem Explored.found (h : Explored next s out []) : Found next s out := by
  have hall : out ++ [] = out := List.append_nil out
  have hnodup := hall ▸ h.nodup
  have hleads := hall ▸ h.leads
  have hmem : ∀ p v, (p, v) ∈ out → Earliest next s v p := by
    intro p v hp
    refine ⟨hleads _ hp, fun q hq => ?_⟩
    obtain ⟨r, hr, hle⟩ := h.reaches hq
    have heq : (r, v) = (p, v) := List.inj_on_of_nodup_map hnodup hr hp rfl
    cases heq
    exact hle
  refine ⟨hnodup, fun p v => ⟨hmem p v, fun hp => ?_⟩, fun q v hq => ?_, hall ▸ h.sorted⟩
  · obtain ⟨r, hr, -⟩ := h.reaches hp.1
    rw [hp.unique (hmem r v hr)]
    exact hr
  · obtain ⟨p, hp, -⟩ := h.reaches hq
    exact ⟨p, hp⟩

section

variable [DecidableEq V] {turns : ℕ} {done queue : List (List ℕ × V)}

theorem search_found (h : search next turns [([], s)] [s] = some out) : Found next s out := by
  have hrun : Explored next s ([] ++ out) [] := (explored_start next s).run h
  exact hrun.found

/-- **The search ends**: a turn for each node is enough. -/
theorem Explored.ends {nodes : Finset V} (hnodes : ∀ q v, Leads next q s v → v ∈ nodes)
    (h : Explored next s done queue) (hturns : nodes.card ≤ done.length + turns) :
    ∃ out, search next turns queue ((done ++ queue).map Prod.snd) = some out := by
  induction turns generalizing done queue with
  | zero =>
    cases queue with
    | nil => exact ⟨[], rfl⟩
    | cons e queue =>
      have hsub : ((done ++ e :: queue).map Prod.snd).toFinset ⊆ nodes := by
        intro v hv
        obtain ⟨e', he', rfl⟩ := List.mem_map.1 (List.mem_toFinset.1 hv)
        exact hnodes _ _ (h.leads e' he')
      have hcard := Finset.card_le_card hsub
      rw [List.toFinset_card_of_nodup h.nodup] at hcard
      simp at hcard
      omega
  | succ turns ih =>
    cases queue with
    | nil => exact ⟨[], rfl⟩
    | cons e queue =>
      obtain ⟨p, v⟩ := e
      obtain ⟨out, hout⟩ := ih h.step (by simp; omega)
      refine ⟨(p, v) :: out, ?_⟩
      unfold search
      rw [Option.map_eq_some_iff]
      refine ⟨out, ?_, rfl⟩
      rw [← hout, ← List.map_append]
      simp

theorem search_ends {nodes : Finset V} (hnodes : ∀ q v, Leads next q s v → v ∈ nodes) (hturns : nodes.card ≤ turns) :
    ∃ out, search next turns [([], s)] [s] = some out :=
  (explored_start next s).ends hnodes (by simpa using hturns)

end

end BreadthFirst
