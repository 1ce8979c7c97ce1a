import Mathlib.Data.Set.Card
import Mathlib.Order.Interval.Finset.Nat
import Caf.Graph.Walk
import Caf.Run.Logged

/-!
# Tours of object graphs

A traversal that records every node it meets, and goes into the nodes that are not recorded. Recorded before
its successors are walked, a node is entered once, and a finite graph is left. What goes around is a program
with a log, which notes each node that it enters and each successor that it takes up there.

* `Tour.once`, `Tour.elements`: from nothing recorded, every reachable node is entered once, and each of its successors
  is taken up once.
* `Tours.bind`, `Tours.each`: programs that tour.
-/

namespace ObjectGraph

variable {L : Type*}

/-- What a traversal notes: it begins to walk the successors of a node, or takes up one of them. -/
inductive Visit where
  | enter (a : ℕ)
  | take (a e : ℕ)
  deriving DecidableEq

/-- The nodes that are entered. -/
def entered (log : List Visit) : List ℕ := log.filterMap fun
  | .enter a => some a
  | .take _ _ => none

/-- The successors that are taken up from the node `a`. -/
def taken (a : ℕ) (log : List Visit) : List ℕ := log.filterMap fun
  | .enter _ => none
  | .take b e => if b = a then some e else none

/-- What is noted about the address `e`, if it comes from a node. -/
def takes : Option ℕ → ℕ → List Visit
  | none, _ => []
  | some a, e => [.take a e]

/-- `Tour g dest P as log P'`: a traversal of the addresses `as`, which come from the node `dest` if there is one, that
starts with `P` recorded notes `log`, and leaves `P'` recorded. -/
inductive Tour (g : Graph L) : Option ℕ → Set ℕ → List ℕ → List Visit → Set ℕ → Prop
  | nil {dest P} : Tour g dest P [] [] P
  | skip {dest P a as log P'} : (∀ es, g a = some (.node es) → a ∈ P) → Tour g dest P as log P' →
      Tour g dest P (a :: as) (takes dest a ++ log) P'
  | node {dest P a es l₁ P₁ as l₂ P'} : g a = some (.node es) → a ∉ P → Tour g (some a) (insert a P) es l₁ P₁ →
      Tour g dest P₁ as l₂ P' → Tour g dest P (a :: as) (takes dest a ++ .enter a :: (l₁ ++ l₂)) P'

variable {g : Graph L} {P P' P₁ : Set ℕ} {as bs es : List ℕ} {log log' : List Visit} {a b d : ℕ} {dest : Option ℕ}

@[simp] theorem entered_nil : entered [] = [] := rfl

@[simp] theorem entered_enter : entered (.enter a :: log) = a :: entered log := rfl

@[simp] theorem entered_append : entered (log ++ log') = entered log ++ entered log' := List.filterMap_append

@[simp] theorem entered_takes : entered (takes dest a) = [] := by
  cases dest <;> rfl

@[simp] theorem taken_enter : taken a (.enter b :: log) = taken a log := rfl

@[simp] theorem taken_append : taken a (log ++ log') = taken a log ++ taken a log' := List.filterMap_append

@[simp] theorem taken_takes_self : taken a (takes (some a) b) = [b] := by
  simp [taken, takes]

theorem taken_takes_ne (h : dest ≠ some a) : taken a (takes dest b) = [] := by
  cases dest with
  | none => rfl
  | some d =>
    have hne : d ≠ a := fun hd => h (congrArg some hd)
    simp [taken, takes, hne]

namespace Tour

theorem append (h₁ : Tour g dest P as log P₁) (h₂ : Tour g dest P₁ bs log' P') :
    Tour g dest P (as ++ bs) (log ++ log') P' := by
  induction h₁ with
  | nil => exact h₂
  | skip hskip _ ih =>
    have hrest := Tour.skip hskip (ih h₂)
    rwa [← List.append_assoc] at hrest
  | node ha hn hsub _ _ ih =>
    have hrest := Tour.node ha hn hsub (ih h₂)
    simpa using hrest

/-- An address is taken up. -/
theorem take (h : Tour g none P [a] log P') : Tour g dest P [a] (takes dest a ++ log) P' := by
  cases h with
  | skip hskip hrest =>
    cases hrest
    exact .skip hskip .nil
  | node ha hn hsub hrest =>
    cases hrest
    exact .node ha hn hsub .nil

/-- **What is recorded in the end** is what was recorded before, and what was entered. -/
theorem recorded (h : Tour g dest P as log P') : ∀ b, b ∈ P' ↔ b ∈ P ∨ b ∈ entered log := by
  induction h with
  | nil => simp
  | skip _ _ ih => simpa using ih
  | node _ _ _ _ ih₁ ih₂ =>
    intro b
    rw [ih₂ b, ih₁ b]
    simp only [Set.mem_insert_iff, entered_append, entered_takes, entered_enter, List.nil_append, List.mem_cons,
      List.mem_append]
    tauto

theorem grows (h : Tour g dest P as log P') : P ⊆ P' := fun b hb => (h.recorded b).2 (.inl hb)

/-- **Nothing is entered twice.** -/
theorem fresh (h : Tour g dest P as log P') : (entered log).Nodup ∧ ∀ b ∈ entered log, b ∉ P := by
  induction h with
  | nil => simp
  | skip _ _ ih => simpa using ih
  | @node dest P a es l₁ P₁ as l₂ P' _ hn h₁ _ ih₁ ih₂ =>
    obtain ⟨hnd₁, hnew₁⟩ := ih₁
    obtain ⟨hnd₂, hnew₂⟩ := ih₂
    have hout₁ : ∀ b ∈ entered l₁, b ≠ a ∧ b ∉ P := fun b hb => by
      have hmem := hnew₁ b hb
      rwa [Set.mem_insert_iff, not_or] at hmem
    have hout₂ : ∀ b ∈ entered l₂, b ≠ a ∧ b ∉ P ∧ b ∉ entered l₁ := fun b hb => by
      have hmem := hnew₂ b hb
      rw [h₁.recorded b, Set.mem_insert_iff] at hmem
      tauto
    simp only [entered_append, entered_takes, entered_enter, List.nil_append]
    -- `a` is recorded before its successors are walked, and what they record is there for the rest
    refine ⟨List.nodup_cons.2 ⟨fun ha => ?_, List.nodup_append.2 ⟨hnd₁, hnd₂, ?_⟩⟩, fun b hb => ?_⟩
    · rcases List.mem_append.1 ha with ha | ha
      · exact (hout₁ a ha).1 rfl
      · exact (hout₂ a ha).1 rfl
    · rintro b hb₁ c hb₂ rfl
      exact (hout₂ b hb₂).2.2 hb₁
    · rcases List.mem_cons.1 hb with rfl | hb
      · exact hn
      · rcases List.mem_append.1 hb with hb | hb
        · exact (hout₁ b hb).2
        · exact (hout₂ b hb).2.1

/-- What is entered can be reached. -/
theorem reach (h : Tour g dest P as log P') :
    ∀ b ∈ entered log, (∃ a ∈ as, Reach g a b) ∧ ∃ es, g b = some (.node es) := by
  induction h with
  | nil => simp
  | skip _ _ ih =>
    intro b hb
    rw [entered_append, entered_takes, List.nil_append] at hb
    obtain ⟨⟨a, ha, hr⟩, hes⟩ := ih b hb
    exact ⟨⟨a, List.mem_cons_of_mem _ ha, hr⟩, hes⟩
  | @node dest P a es l₁ P₁ as l₂ P' ha _ _ _ ih₁ ih₂ =>
    intro b hb
    simp only [entered_append, entered_takes, entered_enter, List.nil_append] at hb
    rcases List.mem_cons.1 hb with rfl | hb
    · exact ⟨⟨b, List.mem_cons_self, .refl⟩, es, ha⟩
    · rcases List.mem_append.1 hb with hb | hb
      · obtain ⟨⟨e, he, hr⟩, hes⟩ := ih₁ b hb
        exact ⟨⟨a, List.mem_cons_self, .head ⟨es, ha, he⟩ hr⟩, hes⟩
      · obtain ⟨⟨c, hc, hr⟩, hes⟩ := ih₂ b hb
        exact ⟨⟨c, List.mem_cons_of_mem _ hc, hr⟩, hes⟩

/-- Nothing is left out: the nodes among the addresses are recorded, and those among the successors of what is
entered. -/
theorem closed (h : Tour g dest P as log P') :
    (∀ a ∈ as, ∀ es, g a = some (.node es) → a ∈ P') ∧
      ∀ b ∈ entered log, ∀ es, g b = some (.node es) → ∀ e ∈ es, ∀ fs, g e = some (.node fs) → e ∈ P' := by
  induction h with
  | nil => simp
  | @skip dest P a as log P' hskip hrest ih =>
    simp only [entered_append, entered_takes, List.nil_append]
    refine ⟨fun b hb es hes => ?_, ih.2⟩
    rcases List.mem_cons.1 hb with rfl | hb
    · exact hrest.grows (hskip es hes)
    · exact ih.1 b hb es hes
  | @node dest P a es l₁ P₁ as l₂ P' ha _ h₁ h₂ ih₁ ih₂ =>
    have hself : a ∈ P' := h₂.grows (h₁.grows (Set.mem_insert a P))
    simp only [entered_append, entered_takes, entered_enter, List.nil_append]
    refine ⟨fun b hb fs hfs => ?_, fun b hb fs hfs e he gs hgs => ?_⟩
    · rcases List.mem_cons.1 hb with rfl | hb
      · exact hself
      · exact ih₂.1 b hb fs hfs
    · rcases List.mem_cons.1 hb with rfl | hb
      · rw [ha] at hfs
        cases hfs
        exact h₂.grows (ih₁.1 e he gs hgs)
      · rcases List.mem_append.1 hb with hb | hb
        · exact h₂.grows (ih₁.2 b hb fs hfs e he gs hgs)
        · exact ih₂.2 b hb fs hfs e he gs hgs

/-- **Every reachable node is entered, once**, by a tour that starts with nothing recorded. -/
theorem once (h : Tour g dest ∅ as log P') :
    (entered log).Nodup ∧ ∀ b, b ∈ entered log ↔ (∃ a ∈ as, Reach g a b) ∧ ∃ es, g b = some (.node es) := by
  refine ⟨h.fresh.1, fun b => ⟨h.reach b, ?_⟩⟩
  rintro ⟨⟨a, ha, hr⟩, es, hes⟩
  have hin : ∀ c, c ∈ P' → c ∈ entered log := fun c hc => ((h.recorded c).1 hc).resolve_left (Set.notMem_empty c)
  -- along a path every node is recorded, and so entered, since nothing was recorded before
  apply hin
  induction hr generalizing es with
  | refl => exact h.closed.1 a ha es hes
  | tail _ hs ih =>
    obtain ⟨fs, hfs, hmem⟩ := hs
    exact h.closed.2 _ (hin _ (ih fs hfs)) fs hfs _ hmem es hes

/-- From a node that is not entered, and that the addresses do not come from, nothing is taken up. -/
theorem taken_other (h : Tour g dest P as log P') (hd : dest ≠ some b) (hb : b ∉ entered log) : taken b log = [] := by
  induction h with
  | nil => rfl
  | skip _ _ ih =>
    rw [entered_append, entered_takes, List.nil_append] at hb
    rw [taken_append, taken_takes_ne hd, ih hd hb, List.nil_append]
  | @node dest P a es l₁ P₁ as l₂ P' _ _ _ _ ih₁ ih₂ =>
    simp only [entered_append, entered_takes, entered_enter, List.nil_append, List.mem_cons, List.mem_append,
      not_or] at hb
    have hself : some a ≠ some b := fun hab => hb.1 (Option.some.inj hab).symm
    rw [taken_append, taken_takes_ne hd, taken_enter, taken_append, ih₁ hself hb.2.1, ih₂ hd hb.2.2]
    rfl

/-- From the node that the addresses come from, which is recorded, just these are taken up. -/
theorem taken_dest (h : Tour g dest P as log P') (hd : dest = some d) (hP : d ∈ P) : taken d log = as := by
  induction h with
  | nil => rfl
  | skip _ _ ih =>
    subst hd
    rw [taken_append, taken_takes_self, ih rfl hP]
    rfl
  | @node dest P a es l₁ P₁ as l₂ P' _ hn h₁ _ _ ih₂ =>
    subst hd
    have hself : some a ≠ some d := by
      rintro ⟨⟩
      exact hn hP
    have hin : d ∈ insert a P := Set.mem_insert_of_mem a hP
    -- `d` is recorded, so the walk below `a` does not enter it again
    have hsub : taken d l₁ = [] := h₁.taken_other hself fun hc => h₁.fresh.2 d hc hin
    rw [taken_append, taken_takes_self, taken_enter, taken_append, hsub, ih₂ rfl (h₁.grows hin)]
    rfl

/-- **Every successor of what is entered is taken up, once** and in order. -/
theorem elements (h : Tour g dest P as log P') (hdest : ∀ d, dest = some d → d ∈ P) (hb : b ∈ entered log)
    (hes : g b = some (.node es)) : taken b log = es := by
  induction h with
  | nil => cases hb
  | skip _ hrest ih =>
    rw [entered_append, entered_takes, List.nil_append] at hb
    have hne : _ ≠ some b := fun hd => hrest.fresh.2 b hb (hdest b hd)
    rw [taken_append, taken_takes_ne hne, ih hdest hb, List.nil_append]
  | @node dest P a fs l₁ P₁ as l₂ P' ha hn h₁ h₂ ih₁ ih₂ =>
    have hgrow : insert a P ⊆ P₁ := h₁.grows
    have hdest₂ : ∀ d, dest = some d → d ∈ P₁ := fun d hd => hgrow (Set.mem_insert_of_mem a (hdest d hd))
    simp only [entered_append, entered_takes, entered_enter, List.nil_append, List.mem_cons, List.mem_append] at hb
    have hnew : b ∉ P := by
      rcases hb with rfl | hb | hb
      · exact hn
      · exact fun hbP => h₁.fresh.2 b hb (Set.mem_insert_of_mem a hbP)
      · exact fun hbP => h₂.fresh.2 b hb (hgrow (Set.mem_insert_of_mem a hbP))
    have hne : dest ≠ some b := fun hd => hnew (hdest b hd)
    rw [taken_append, taken_takes_ne hne, taken_enter, taken_append, List.nil_append]
    by_cases hb₂ : b ∈ entered l₂
    · -- it is entered later, so the first part leaves it alone
      have hout : b ∉ P₁ := h₂.fresh.2 b hb₂
      have hself : some a ≠ some b := fun hab => hout (Option.some.inj hab ▸ hgrow (Set.mem_insert a P))
      have hfirst : taken b l₁ = [] := h₁.taken_other hself fun hc => hout ((h₁.recorded b).2 (.inr hc))
      rw [hfirst, ih₂ hdest₂ hb₂, List.nil_append]
    · rw [h₂.taken_other hne hb₂, List.append_nil]
      rcases hb with rfl | hb | hb
      · rw [ha] at hes
        cases hes
        exact h₁.taken_dest rfl (Set.mem_insert b P)
      · exact ih₁ (by rintro d ⟨⟩; exact Set.mem_insert a P) hb
      · exact absurd hb hb₂

end Tour

/-! ## Nodes that are not recorded -/

/-- The number of addresses below `N` that are not recorded. -/
noncomputable def unrecorded (N : ℕ) (P : Set ℕ) : ℕ := (Set.Iio N \ P).ncard

theorem unrecorded_le (N : ℕ) (P : Set ℕ) : unrecorded N P ≤ N := by
  have hle : (Set.Iio N \ P).ncard ≤ (Set.Iio N).ncard := Set.ncard_le_ncard Set.sdiff_subset (Set.finite_Iio N)
  have hcard : (Set.Iio N).ncard = N := by rw [Set.ncard_eq_toFinset_card', Set.toFinset_Iio, Nat.card_Iio]
  unfold unrecorded
  omega

theorem unrecorded_mono (N : ℕ) (h : P ⊆ P') : unrecorded N P' ≤ unrecorded N P :=
  Set.ncard_le_ncard (Set.sdiff_subset_sdiff_right h) ((Set.finite_Iio N).sdiff)

/-- **Recording a node leaves fewer.** -/
theorem unrecorded_insert {N : ℕ} (ha : a < N) (hn : a ∉ P) : unrecorded N (insert a P) < unrecorded N P := by
  have hsub : Set.Iio N \ insert a P ⊆ Set.Iio N \ P := Set.sdiff_subset_sdiff_right (Set.subset_insert a P)
  have hnew : ¬ Set.Iio N \ P ⊆ Set.Iio N \ insert a P := by
    intro hle
    exact (hle ⟨ha, hn⟩).2 (Set.mem_insert a P)
  exact Set.ncard_lt_ncard ⟨hsub, hnew⟩ ((Set.finite_Iio N).sdiff)

/-! ## Programs that tour -/

section Program

open Run

variable {α β ε ι : Type} {E : ε → Prop} {x : Logged Visit (Except ε) α} {seen : α → Set ℕ} {seen' : β → Set ℕ}

/-- `x` tours the addresses `as`, which come from `dest`, when `P` is recorded: it fails with the errors `E` only, and
if it returns, it leaves recorded what is `seen` in its result. -/
structure Tours (g : Graph L) (E : ε → Prop) (dest : Option ℕ) (P : Set ℕ) (as : List ℕ)
    (x : Logged Visit (Except ε) α) (seen : α → Set ℕ) : Prop where
  run : ∀ log, Outcome E (fun r => ∃ l, r.2 = log ++ l ∧ Tour g dest P as l (seen r.1)) (x log)

namespace Tours

/-- What a run that returns has toured. -/
theorem returned {a : α} (h : Tours g E dest P as x seen) (hx : x log = .ok (a, log')) :
    ∃ l, log' = log ++ l ∧ Tour g dest P as l (seen a) := by
  have hrun := h.run log
  rwa [hx] at hrun

theorem failed {e : ε} (h : Tours g E dest P as x seen) (hx : x log = .error e) : E e := by
  have hrun := h.run log
  rwa [hx] at hrun

theorem pure {a : α} (h : seen a = P) : Tours g E dest P [] (Pure.pure a) seen :=
  ⟨fun log => ⟨[], (List.append_nil log).symm, h ▸ .nil⟩⟩

theorem error {e : ε} (h : E e) : Tours g E dest P as (Run.silent (.error e)) seen := ⟨fun _ => h⟩

/-- A part that notes nothing. -/
theorem silent {r : Except ε α} (hE : ∀ e, r = .error e → E e) (hr : ∀ a, r = .ok a → seen a = P) :
    Tours g E dest P [] (Run.silent r) seen := by
  rcases r with e | a
  · exact ⟨fun _ => hE e rfl⟩
  · exact pure (hr a rfl)

/-- After a part that notes nothing. -/
theorem silentThen {r : Except ε α} {f : α → Logged Visit (Except ε) β} (hE : ∀ e, r = .error e → E e)
    (hf : ∀ a, r = .ok a → Tours g E dest P as (f a) seen') : Tours g E dest P as (Run.silent r >>= f) seen' := by
  rcases r with e | a
  · exact ⟨fun _ => hE e rfl⟩
  · exact hf a rfl

/-- **One part after the other.** -/
theorem bind {f : α → Logged Visit (Except ε) β} (hx : Tours g E dest P as x seen)
    (hf : ∀ a, P ⊆ seen a → Tours g E dest (seen a) bs (f a) seen') : Tours g E dest P (as ++ bs) (x >>= f) seen' := by
  refine ⟨fun log => (hx.run log).bind ?_⟩
  rintro ⟨a, log₁⟩ ⟨l₁, hlog₁, htour₁⟩
  refine ((hf a htour₁.grows).run log₁).mono ?_
  rintro ⟨b, log₂⟩ ⟨l₂, hlog₂, htour₂⟩
  dsimp only at hlog₁ hlog₂ htour₁ htour₂
  exact ⟨l₁ ++ l₂, by rw [hlog₂, hlog₁, List.append_assoc], htour₁.append htour₂⟩

/-- What happens afterwards notes nothing. -/
theorem andThen {f : α → Logged Visit (Except ε) β} (hx : Tours g E dest P as x seen)
    (hf : ∀ a, Tours g E dest (seen a) [] (f a) seen') : Tours g E dest P as (x >>= f) seen' := by
  have hwhole := hx.bind fun a _ => hf a
  rwa [List.append_nil] at hwhole

/-- What has happened before has recorded nothing. -/
theorem start (hx : Tours g E dest P as x seen) (hP : P = P₁) : Tours g E dest P₁ as x seen := hP ▸ hx

/-- An address that is not entered. -/
theorem skip (hskip : ∀ es, g a = some (.node es) → a ∈ P) (hx : Tours g E none P [] x seen) :
    Tours g E none P [a] x seen := by
  refine ⟨fun log => (hx.run log).mono ?_⟩
  rintro r ⟨l, hlog, htour⟩
  exact ⟨l, hlog, .skip hskip htour⟩

/-- **A node is recorded, and then its successors are walked.** -/
theorem enter {f : Unit → Logged Visit (Except ε) α} (ha : g a = some (.node es)) (hn : a ∉ P)
    (hf : Tours g E (some a) (insert a P) es (f ()) seen) : Tours g E none P [a] (note [.enter a] >>= f) seen := by
  refine ⟨fun log => (hf.run (log ++ [.enter a])).mono ?_⟩
  rintro r ⟨l, hlog, htour⟩
  have hwhole : Tour g none P [a] (.enter a :: (l ++ [])) (seen r.1) := .node ha hn htour .nil
  rw [List.append_nil] at hwhole
  exact ⟨.enter a :: l, by rw [hlog, List.append_assoc, List.singleton_append], hwhole⟩

/-- An address is taken up. -/
theorem take {f : Unit → Logged Visit (Except ε) α} (hf : Tours g E none P [a] (f ()) seen) :
    Tours g E dest P [a] (note (takes dest a) >>= f) seen := by
  refine ⟨fun log => (hf.run (log ++ takes dest a)).mono ?_⟩
  rintro r ⟨l, hlog, htour⟩
  exact ⟨takes dest a ++ l, by rw [hlog, List.append_assoc], htour.take⟩

/-- **A loop.** -/
theorem each {step : β → ι → Logged Visit (Except ε) β} {addrs : ι → List ℕ} {is : List ι} {s : β}
    (hstep : ∀ i ∈ is, ∀ t, P ⊆ seen' t → Tours g E dest (seen' t) (addrs i) (step t i) seen') (hs : P ⊆ seen' s) :
    Tours g E dest (seen' s) (is.flatMap addrs) (is.foldlM step s) seen' := by
  induction is generalizing s with
  | nil => exact .pure rfl
  | cons i is ih =>
    rw [List.foldlM_cons, List.flatMap_cons]
    refine (hstep i List.mem_cons_self s hs).bind fun t ht => ?_
    exact ih (fun j hj => hstep j (List.mem_cons_of_mem _ hj)) (hs.trans ht)

/-- A loop over addresses. -/
theorem eachAddress {step : β → ℕ → Logged Visit (Except ε) β} {s : β}
    (hstep : ∀ a ∈ as, ∀ t, P ⊆ seen' t → Tours g E dest (seen' t) [a] (step t a) seen') (hs : P ⊆ seen' s) :
    Tours g E dest (seen' s) as (as.foldlM step s) seen' := by
  have hloop := each hstep hs
  rwa [← List.map_eq_flatMap, List.map_id'] at hloop

/-- A loop that counts. -/
theorem eachIndexed {step : β → ι × ℕ → Logged Visit (Except ε) β} {addrs : ι → List ℕ} {is : List ι} {s : β}
    (hstep : ∀ i ∈ is, ∀ n t, P ⊆ seen' t → Tours g E dest (seen' t) (addrs i) (step t (i, n)) seen')
    (hs : P ⊆ seen' s) : Tours g E dest (seen' s) (is.flatMap addrs) (is.zipIdx.foldlM step s) seen' := by
  have hmem : ∀ i ∈ is.zipIdx, i.1 ∈ is := by
    intro i hi
    have hfst := List.mem_map_of_mem (f := Prod.fst) hi
    rwa [List.zipIdx_map_fst] at hfst
  have hloop : Tours g E dest (seen' s) (is.zipIdx.flatMap fun i => addrs i.1) _ _ :=
    each (fun i hi t ht => hstep i.1 (hmem i hi) i.2 t ht) hs
  rwa [← List.flatMap_map, List.zipIdx_map_fst] at hloop

/-- A loop over addresses that counts. -/
theorem eachAddressIndexed {step : β → ℕ × ℕ → Logged Visit (Except ε) β} {s : β}
    (hstep : ∀ a ∈ as, ∀ n t, P ⊆ seen' t → Tours g E dest (seen' t) [a] (step t (a, n)) seen') (hs : P ⊆ seen' s) :
    Tours g E dest (seen' s) as (as.zipIdx.foldlM step s) seen' := by
  have hloop := eachIndexed hstep hs
  rwa [← List.map_eq_flatMap, List.map_id'] at hloop

end Tours

end Program

end ObjectGraph
