import Caf.Proof.Region

/-!
# Values with arrays of their own

`Made P h as T`: the values at `as` have the arrays `T`, in the order in which they are met, and each
array that is met stands in `T` once more. When `T` has no duplicates, no array occurs twice.

* `Made.transfer`: only the arrays `T` and objects without elements matter.
* `Made.holds`: everything that can be reached satisfies `P`.
-/

namespace Caf

open ObjectGraph

/-- The values at `as` satisfy `P`, with everything that can be reached from them; `T` are their
arrays. -/
inductive Made (P : Value → Prop) (h : Heap) : List Addr → List Addr → Prop
  | nil : Made P h [] []
  | flat {a v as T} : h[a]? = some v → (∀ es, v ≠ .array es) → P v → Made P h as T → Made P h (a :: as) T
  | array {a es T₁ as T₂} : h[a]? = some (.array es) → P (.array es) → Made P h es T₁ → Made P h as T₂ →
      Made P h (a :: as) (a :: (T₁ ++ T₂))

/-- Old addresses are replaced by some of them and by new ones, which do not occur among the others. -/
theorem nodup_replaced {S₁ S₂ S₃ V : List Addr} {New : Addr → Prop} (hnd : (S₁ ++ (S₂ ++ S₃)).Nodup)
    (hold : ∀ b ∈ S₁ ++ (S₂ ++ S₃), ¬ New b) (hV : V.Nodup) (hsub : ∀ b ∈ V, b ∈ S₂ ∨ New b) :
    (S₁ ++ (V ++ S₃)).Nodup ∧ ∀ b ∈ S₁ ++ (V ++ S₃), b ∈ S₁ ++ (S₂ ++ S₃) ∨ New b := by
  obtain ⟨hnd₁, hnd', hdis⟩ := List.nodup_append.1 hnd
  obtain ⟨-, hnd₃, hdis'⟩ := List.nodup_append.1 hnd'
  have hsep₁ : ∀ b ∈ S₁, ∀ c ∈ V, b ≠ c := by
    intro b hb c hc hbc
    rcases hsub c hc with hc | hc
    · exact hdis b hb c (List.mem_append_left _ hc) hbc
    · exact hold b (List.mem_append_left _ hb) (hbc ▸ hc)
  have hsep₃ : ∀ b ∈ V, ∀ c ∈ S₃, b ≠ c := by
    intro b hb c hc hbc
    rcases hsub b hb with hb | hb
    · exact hdis' b hb c hc hbc
    · exact hold c (List.mem_append_right _ (List.mem_append_right _ hc)) (hbc ▸ hb)
  constructor
  · refine List.nodup_append.2 ⟨hnd₁, List.nodup_append.2 ⟨hV, hnd₃, hsep₃⟩, ?_⟩
    intro b hb c hc
    rcases List.mem_append.1 hc with hc | hc
    · exact hsep₁ b hb c hc
    · exact hdis b hb c (List.mem_append_right _ hc)
  · intro b hb
    rcases List.mem_append.1 hb with hb | hb
    · exact .inl (List.mem_append_left _ hb)
    · rcases List.mem_append.1 hb with hb | hb
      · exact (hsub b hb).imp_left fun hb => List.mem_append_right _ (List.mem_append_left _ hb)
      · exact .inl (List.mem_append_right _ (List.mem_append_right _ hb))

namespace Made

variable {P Q : Value → Prop} {h h' : Heap} {as bs T S : List Addr} {a b : Addr}

theorem append (hm : Made P h as T) (hm' : Made P h bs S) : Made P h (as ++ bs) (T ++ S) := by
  induction hm with
  | nil => exact hm'
  | flat ha hne hP _ ih => exact .flat ha hne hP ih
  | array ha hP h₁ _ _ ih₂ =>
    rw [List.cons_append, List.cons_append, List.append_assoc]
    exact .array ha hP h₁ ih₂

/-- The values of both parts, with arrays of their own. -/
theorem split {cs : List Addr} (hm : Made P h cs T) (hcs : cs = as ++ bs) :
    ∃ T₁ T₂, T = T₁ ++ T₂ ∧ Made P h as T₁ ∧ Made P h bs T₂ := by
  induction hm generalizing as with
  | nil =>
    obtain ⟨rfl, rfl⟩ := List.append_eq_nil_iff.1 hcs.symm
    exact ⟨[], [], rfl, .nil, .nil⟩
  | @flat a v cs T ha hne hP hm ih =>
    cases as with
    | nil =>
      rw [List.nil_append] at hcs
      subst hcs
      exact ⟨[], T, rfl, .nil, .flat ha hne hP hm⟩
    | cons b as =>
      obtain ⟨rfl, hrest⟩ := List.cons_eq_cons.1 hcs
      obtain ⟨T₁, T₂, rfl, h₁, h₂⟩ := ih hrest
      exact ⟨T₁, T₂, rfl, .flat ha hne hP h₁, h₂⟩
  | @array a es U₁ cs U₂ ha hP hes hm _ ih =>
    cases as with
    | nil =>
      rw [List.nil_append] at hcs
      subst hcs
      exact ⟨[], _, rfl, .nil, .array ha hP hes hm⟩
    | cons b as =>
      obtain ⟨rfl, hrest⟩ := List.cons_eq_cons.1 hcs
      obtain ⟨T₁, T₂, rfl, h₁, h₂⟩ := ih hrest
      refine ⟨a :: (U₁ ++ T₁), T₂, ?_, .array ha hP hes h₁, h₂⟩
      rw [List.cons_append, List.append_assoc]

theorem uncons (hm : Made P h (a :: bs) T) : ∃ T₁ T₂, T = T₁ ++ T₂ ∧ Made P h [a] T₁ ∧ Made P h bs T₂ :=
  hm.split rfl

/-- **Only the arrays** and objects without elements matter. -/
theorem transfer (hm : Made P h as T)
    (hflat : ∀ (b : Addr) (v : Value), h[b]? = some v → (∀ es, v ≠ .array es) → h'[b]? = some v)
    (harray : ∀ b ∈ T, h'[b]? = h[b]?) : Made P h' as T := by
  induction hm with
  | nil => exact .nil
  | flat ha hne hP _ ih => exact .flat (hflat _ _ ha hne) hne hP (ih harray)
  | array ha hP _ _ ih₁ ih₂ =>
    have hself := harray _ List.mem_cons_self
    refine .array (hself.trans ha) hP ?_ ?_
    · exact ih₁ fun b hb => harray b (List.mem_cons_of_mem _ (List.mem_append_left _ hb))
    · exact ih₂ fun b hb => harray b (List.mem_cons_of_mem _ (List.mem_append_right _ hb))

/-- The arrays are there. -/
theorem get (hm : Made P h as T) (hb : b ∈ T) : ∃ es, h[b]? = some (.array es) ∧ P (.array es) := by
  induction hm with
  | nil => cases hb
  | flat _ _ _ _ ih => exact ih hb
  | array ha hP _ _ ih₁ ih₂ =>
    rcases List.mem_cons.1 hb with rfl | hb
    · exact ⟨_, ha, hP⟩
    · rcases List.mem_append.1 hb with hb | hb
      · exact ih₁ hb
      · exact ih₂ hb

theorem lt (hm : Made P h as T) (hb : b ∈ T) : b < h.length := by
  obtain ⟨es, hes, -⟩ := hm.get hb
  exact (List.getElem?_eq_some_iff.1 hes).1

theorem grow (hm : Made P h as T) (hx : h <+: h') : Made P h' as T := by
  refine hm.transfer (fun b v hb _ => getElem?_grows hx hb) fun b hb => ?_
  obtain ⟨es, hes, -⟩ := hm.get hb
  rw [hes, getElem?_grows hx hes]

theorem mono (hm : Made P h as T) (hPQ : ∀ v, P v → Q v) : Made Q h as T := by
  induction hm with
  | nil => exact .nil
  | flat ha hne hP _ ih => exact .flat ha hne (hPQ _ hP) ih
  | array ha hP _ _ ih₁ ih₂ => exact .array ha (hPQ _ hP) ih₁ ih₂

/-- **Everything that can be reached** satisfies `P`. -/
theorem holds (hm : Made P h as T) (ha : a ∈ as) : h.Holds P a := by
  induction hm generalizing a with
  | nil => cases ha
  | flat hv hne hP _ ih =>
    rcases List.mem_cons.1 ha with rfl | ha
    · intro b hb
      rcases Relation.ReflTransGen.cases_head hb with rfl | ⟨c, hc, -⟩
      · exact ⟨_, hv, hP⟩
      · obtain ⟨es, hes, -⟩ := succ_iff.1 hc
        rw [hv] at hes
        exact absurd (Option.some.inj hes) (hne es)
    · exact ih ha
  | array hv hP _ _ ih₁ ih₂ =>
    rcases List.mem_cons.1 ha with rfl | ha
    · intro b hb
      rcases Relation.ReflTransGen.cases_head hb with rfl | ⟨c, hc, hcb⟩
      · exact ⟨_, hv, hP⟩
      · obtain ⟨es, hes, hmem⟩ := succ_iff.1 hc
        rw [hv] at hes
        cases hes
        exact ih₁ hmem b hcb
    · exact ih₂ ha

/-- The arrays that can be reached are among `T`. -/
theorem mem_of_reach (hm : Made P h as T) (ha : a ∈ as) (hb : Reach h.graph a b) {es : List Addr}
    (hes : h[b]? = some (.array es)) : b ∈ T := by
  induction hm generalizing a with
  | nil => cases ha
  | flat hv hne _ _ ih =>
    rcases List.mem_cons.1 ha with rfl | ha
    · rcases Relation.ReflTransGen.cases_head hb with rfl | ⟨c, hc, -⟩
      · rw [hv] at hes
        exact absurd (Option.some.inj hes) (hne es)
      · obtain ⟨fs, hfs, -⟩ := succ_iff.1 hc
        rw [hv] at hfs
        exact absurd (Option.some.inj hfs) (hne fs)
    · exact ih ha hb
  | array hv _ _ _ ih₁ ih₂ =>
    rcases List.mem_cons.1 ha with rfl | ha
    · rcases Relation.ReflTransGen.cases_head hb with rfl | ⟨c, hc, hcb⟩
      · exact List.mem_cons_self
      · obtain ⟨fs, hfs, hmem⟩ := succ_iff.1 hc
        rw [hv] at hfs
        cases hfs
        exact List.mem_cons_of_mem _ (List.mem_append_left _ (ih₁ hmem hcb))
    · exact List.mem_cons_of_mem _ (List.mem_append_right _ (ih₂ ha hb))

/-- Fewer values, fewer arrays. -/
theorem sublist (hm : Made P h as T) (hs : bs.Sublist as) : ∃ S, Made P h bs S ∧ S.Sublist T := by
  induction hm generalizing bs with
  | nil =>
    rw [List.sublist_nil.1 hs]
    exact ⟨[], .nil, .slnil⟩
  | flat ha hne hP hm ih =>
    rcases List.sublist_cons_iff.1 hs with hrest | ⟨r, rfl, hrest⟩
    · exact ih hrest
    · obtain ⟨S, hm', hS⟩ := ih hrest
      exact ⟨S, .flat ha hne hP hm', hS⟩
  | @array a es T₁ as T₂ ha hP h₁ _ _ ih₂ =>
    rcases List.sublist_cons_iff.1 hs with hrest | ⟨r, rfl, hrest⟩
    · obtain ⟨S, hm', hS⟩ := ih₂ hrest
      exact ⟨S, hm', (hS.trans (List.sublist_append_right _ _)).cons _⟩
    · obtain ⟨S, hm', hS⟩ := ih₂ hrest
      exact ⟨_, .array ha hP h₁ hm', .cons_cons _ (List.Sublist.append (List.Sublist.refl _) hS)⟩

/-- The values in another order. -/
theorem perm (hp : as.Perm bs) (hm : Made P h as T) : ∃ S, Made P h bs S ∧ S.Perm T := by
  induction hp generalizing T with
  | nil => exact ⟨T, hm, .refl _⟩
  | @cons a as bs _ ih =>
    obtain ⟨T₁, T₂, rfl, h₁, h₂⟩ := hm.uncons
    obtain ⟨S, hS, hp⟩ := ih h₂
    exact ⟨T₁ ++ S, h₁.append hS, hp.append_left _⟩
  | swap a b as =>
    obtain ⟨T₁, T', rfl, h₁, hm'⟩ := hm.uncons
    obtain ⟨T₂, T₃, rfl, h₂, h₃⟩ := hm'.uncons
    refine ⟨T₂ ++ (T₁ ++ T₃), h₂.append (h₁.append h₃), ?_⟩
    rw [← List.append_assoc, ← List.append_assoc]
    exact List.perm_append_comm.append_right _
  | trans _ _ ih₁ ih₂ =>
    obtain ⟨S, hS, hp⟩ := ih₁ hm
    obtain ⟨U, hU, hp'⟩ := ih₂ hS
    exact ⟨U, hU, hp'.trans hp⟩

theorem subperm (hm : Made P h as T) (hs : bs.Subperm as) : ∃ S, Made P h bs S ∧ S.Subperm T := by
  obtain ⟨cs, hp, hs⟩ := hs
  obtain ⟨S, hS, hsub⟩ := hm.sublist hs
  obtain ⟨U, hU, hp'⟩ := perm hp hS
  exact ⟨U, hU, S, hp'.symm, hsub⟩

/-- The elements of an array. -/
theorem elements {es : List Addr} (hm : Made P h [a] T) (ha : h[a]? = some (.array es)) :
    ∃ S, T = a :: S ∧ Made P h es S := by
  cases hm with
  | flat hv hne _ _ =>
    rw [ha] at hv
    exact absurd (Option.some.inj hv).symm (hne es)
  | array hv _ h₁ h₂ =>
    rw [ha] at hv
    cases hv
    cases h₂
    exact ⟨_, by rw [List.append_nil], h₁⟩

theorem singleton {es : List Addr} (hm : Made P h es T) (ha : h[a]? = some (.array es)) (hP : P (.array es)) :
    Made P h [a] (a :: T) := by
  have harray := Made.array ha hP hm .nil
  rwa [List.append_nil] at harray

end Made

end Caf
