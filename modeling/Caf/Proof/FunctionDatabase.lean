import Mathlib.Data.List.Induction
import Caf.Proof.Store
import Caf.Spec.FunctionDatabase

/-!
# Cached lookups

The value of every node is what its parent's value resolves to, so a path of the trie leads to what the plain
resolution gives. A name that is empty or ends in a dot is resolved without its last component.

* `getNode_ok`: the node of a path.
* `looksUp_iff`: when the lookups are plain path resolution.
-/

namespace Caf

open FunctionDatabase

variable {V : Type} {resolve : V → StdString → Option V} {global : V} {db db' : FunctionDatabase V} {x : StdString}

/-! ## Nodes -/

/-- The value of a node. -/
def FunctionDatabase.valueAt (db : FunctionDatabase V) (node : ℕ) : Option V := db.nodes[node]?.map (·.value)

/-- **What the trie caches**: the value of a child is what the value of its parent resolves to. -/
structure NodesOK (resolve : V → StdString → Option V) (global : V) (db : FunctionDatabase V) : Prop where
  root : db.valueAt 0 = some global
  child : ∀ {m c k}, db.getChild m c = some k → ∃ v w, db.valueAt m = some v ∧ db.valueAt k = some w ∧
    resolve v c = some w

/-- The nodes of `db` are still there, with the same values. -/
def KeepsNodes (db db' : FunctionDatabase V) : Prop := ∀ m v, db.valueAt m = some v → db'.valueAt m = some v

theorem nodesOK_new : NodesOK resolve global (.new global) where
  root := rfl
  child := by
    intro m c k h
    have hnone : (FunctionDatabase.new global).getChild m c = none := by
      rcases m with _ | m <;> rfl
    rw [hnone] at h
    cases h

theorem nodes_addChild (db : FunctionDatabase V) (node : ℕ) (c : StdString) (w : V) (m : ℕ) :
    (db.addChild node c w).2.nodes[m]? = if m = db.nodes.length then some ⟨w, []⟩ else
      db.nodes[m]?.map fun n => if node = m then { n with children := (c, db.nodes.length) :: n.children } else n := by
  unfold addChild
  dsimp only
  rcases Nat.lt_trichotomy m db.nodes.length with hlt | rfl | hgt
  · rw [if_neg (by omega), List.getElem?_append_left (by simpa using hlt), List.getElem?_modify]
    rfl
  · rw [if_pos rfl, List.getElem?_append_right (by simp)]
    simp
  · rw [if_neg (by omega), List.getElem?_eq_none (by simp; omega), List.getElem?_eq_none (by omega)]
    rfl

theorem valueAt_addChild (db : FunctionDatabase V) (node : ℕ) (c : StdString) (w : V) (m : ℕ) :
    (db.addChild node c w).2.valueAt m = if m = db.nodes.length then some w else db.valueAt m := by
  unfold valueAt
  rw [nodes_addChild]
  split
  · rfl
  · rw [Option.map_map]
    congr 1
    funext n
    dsimp only [Function.comp_apply]
    split <;> rfl

theorem getChild_addChild {node m k : ℕ} {c d : StdString} {w : V}
    (h : (db.addChild node c w).2.getChild m d = some k) :
    db.getChild m d = some k ∨ m = node ∧ d = c ∧ k = db.nodes.length := by
  unfold getChild at h ⊢
  obtain ⟨n, hn, hk⟩ := Option.bind_eq_some_iff.1 h
  rw [nodes_addChild] at hn
  by_cases hm : m = db.nodes.length
  · rw [if_pos hm] at hn
    cases hn
    cases hk
  · rw [if_neg hm] at hn
    obtain ⟨n, hn', rfl⟩ := Option.map_eq_some_iff.1 hn
    rw [hn']
    by_cases hnode : node = m
    · rw [if_pos hnode, List.lookup_cons] at hk
      by_cases hd : d = c
      · rw [hd, beq_self_eq_true] at hk
        exact .inr ⟨hnode.symm, hd, (Option.some.inj hk).symm⟩
      · rw [beq_false_of_ne hd] at hk
        exact .inl hk
    · rw [if_neg hnode] at hk
      exact .inl hk

/-- **A new child** is what it resolves to. -/
theorem NodesOK.addChild (h : NodesOK resolve global db) {node : ℕ} {c : StdString} {v w : V}
    (hnode : db.valueAt node = some v) (hw : resolve v c = some w) :
    NodesOK resolve global (db.addChild node c w).2 ∧ KeepsNodes db (db.addChild node c w).2 := by
  have hlt : ∀ {m u}, db.valueAt m = some u → m ≠ db.nodes.length := by
    intro m u hm hlen
    rw [valueAt, List.getElem?_eq_none hlen.ge] at hm
    cases hm
  have hgrows : KeepsNodes db (db.addChild node c w).2 := by
    intro m u hm
    rw [valueAt_addChild, if_neg (hlt hm)]
    exact hm
  refine ⟨⟨hgrows _ _ h.root, ?_⟩, hgrows⟩
  intro m d k hk
  rcases getChild_addChild hk with hold | ⟨rfl, rfl, rfl⟩
  · obtain ⟨u, u', hm, hk, hu⟩ := h.child hold
    exact ⟨u, u', hgrows _ _ hm, hgrows _ _ hk, hu⟩
  · exact ⟨v, w, hgrows _ _ hnode, by rw [valueAt_addChild, if_pos rfl], hw⟩

/-- **The node of a path** holds what the path resolves to. -/
theorem getNode_ok {path : List StdString} {node : ℕ} {v w : V} (h : NodesOK resolve global db)
    (hnode : db.valueAt node = some v) (hpath : resolvePath resolve v path = some w) :
    ∃ m db', getNode resolve path node db = .ok (m, db') ∧ NodesOK resolve global db' ∧ KeepsNodes db db' ∧
      db'.valueAt m = some w ∧ db'.funcIdToNode = db.funcIdToNode := by
  induction path generalizing db node v with
  | nil =>
    cases hpath
    exact ⟨node, db, rfl, h, fun _ _ hm => hm, hnode, rfl⟩
  | cons c rest ih =>
    unfold resolvePath at hpath
    rw [List.foldlM_cons] at hpath
    obtain ⟨u, hu, hrest⟩ := Option.bind_eq_some_iff.1 hpath
    cases hchild : db.getChild node c with
    | some child =>
      -- the child holds what `resolve` would have given
      obtain ⟨v', u', hv', hu', hres⟩ := h.child hchild
      rw [hnode] at hv'
      cases hv'
      rw [hu] at hres
      cases hres
      obtain ⟨m, db', hget, hok, hgrows, hm, hids⟩ := ih h hu' hrest
      refine ⟨m, db', ?_, hok, hgrows, hm, hids⟩
      rw [getNode, hchild]
      exact hget
    | none =>
      obtain ⟨n, hn, hval⟩ := Option.map_eq_some_iff.1 hnode
      obtain ⟨hadd, hgrow⟩ := h.addChild hnode hu
      have hnew : (db.addChild node c u).2.valueAt (db.addChild node c u).1 = some u := by
        rw [valueAt_addChild]
        exact if_pos rfl
      obtain ⟨m, db', hget, hok, hgrows, hm, hids⟩ := ih hadd hnew hrest
      refine ⟨m, db', ?_, hok, fun m v hmv => hgrows _ _ (hgrow _ _ hmv), hm, hids⟩
      rw [getNode, hchild]
      dsimp only
      rw [hn]
      dsimp only
      rw [hval, hu]
      exact hget

/-! ## Sequences of additions -/

/-- The name added last, with one more function. -/
theorem lastName_concat (adds : List Function) (fn : Function) (id : FunctionIdType) :
    lastName (adds ++ [fn]) id = if fn.id = id then some fn.name else lastName adds id := by
  unfold lastName
  rw [List.reverse_append, List.reverse_singleton, List.singleton_append, List.find?_cons]
  by_cases h : fn.id = id <;> simp [h]

theorem getFunction_of_valueAt {id : FunctionIdType} {m : ℕ} {v : V} (hid : db.funcIdToNode id = some m)
    (hm : db.valueAt m = some v) : db.getFunction id = .ok (some v) := by
  obtain ⟨n, hn, rfl⟩ := Option.map_eq_some_iff.1 hm
  unfold getFunction
  rw [hid]
  dsimp only
  rw [hn]

/-- The nodes of the functions: for each id, the value of the name that was added last. -/
structure HoldsNames (resolve : V → StdString → Option V) (global : V) (adds : List Function)
    (db : FunctionDatabase V) :
    Prop where
  nodes : NodesOK resolve global db
  ids : ∀ id, (lastName adds id = none ∧ db.funcIdToNode id = none) ∨
    ∃ name m v, lastName adds id = some name ∧ db.funcIdToNode id = some m ∧ db.valueAt m = some v ∧
      resolvePath resolve global (components name) = some v

/-- **Every sequence of additions** of names that resolve succeeds. -/
theorem addFunctions_holds (adds : List Function)
    (h : ∀ fn ∈ adds, (resolvePath resolve global (components fn.name)).isSome) :
    ∃ db, (FunctionDatabase.new global).addFunctions resolve adds = .ok db ∧ HoldsNames resolve global adds db := by
  induction adds using List.reverseRecOn with
  | nil => exact ⟨_, rfl, nodesOK_new, fun id => .inl ⟨rfl, rfl⟩⟩
  | append_singleton adds fn ih =>
    obtain ⟨db, hdb, hnodes, hids⟩ := ih fun g hg => h g (List.mem_append_left _ hg)
    obtain ⟨w, hw⟩ := Option.isSome_iff_exists.1 (h fn (List.mem_append_right _ (List.mem_singleton_self fn)))
    obtain ⟨m, db', hget, hok, hgrows, hm, hkeep⟩ := getNode_ok hnodes hnodes.root hw
    refine ⟨{ db' with funcIdToNode := Function.update db'.funcIdToNode fn.id (some m) }, ?_,
      ⟨hok.root, hok.child⟩, fun id => ?_⟩
    · unfold addFunctions at hdb ⊢
      rw [List.foldlM_append, hdb]
      show ((getNode resolve (components fn.name) 0 db) >>= _) >>= _ = _
      rw [hget]
      rfl
    · rw [lastName_concat]
      dsimp only
      by_cases hid : fn.id = id
      · right
        rw [if_pos hid, hid]
        exact ⟨fn.name, m, w, rfl, Function.update_self _ _ _, hm, hw⟩
      · rw [if_neg hid, Function.update_of_ne (Ne.symm hid), hkeep]
        refine (hids id).imp_right ?_
        rintro ⟨name, k, v, hname, hk, hv, hpath⟩
        exact ⟨name, k, v, hname, hk, hgrows _ _ hv, hpath⟩

theorem HoldsNames.getFunction {adds : List Function} (h : HoldsNames resolve global adds db) (id : FunctionIdType) :
    db.getFunction id = .ok ((lastName adds id).bind fun name => resolvePath resolve global (components name)) := by
  rcases h.ids id with ⟨hname, hid⟩ | ⟨name, m, v, hname, hid, hm, hpath⟩
  · rw [hname]
    unfold FunctionDatabase.getFunction
    rw [hid]
    rfl
  · rw [getFunction_of_valueAt hid hm, hname, Option.bind_some, hpath]

/-- What resolves along all components resolves along those that the loop finds. -/
theorem resolvePath_components {v : V} (h : resolvePath resolve global (x.splitOn separator) = some v) :
    (resolvePath resolve global (components x)).isSome := by
  rcases splitOn_eq_components x with ⟨hx, -⟩ | hx
  · rw [← hx, h]
    rfl
  · unfold resolvePath at h ⊢
    rw [hx, List.foldlM_append] at h
    obtain ⟨u, hu, -⟩ := Option.bind_eq_some_iff.1 h
    rw [hu]
    rfl

/-- **The last component** does no harm just if the code resolves as the name says. -/
theorem resolvePath_eq_iff (h : (resolvePath resolve global (x.splitOn separator)).isSome) :
    resolvePath resolve global (components x) = resolvePath resolve global (x.splitOn separator) ↔
      LastHarmless resolve global x := by
  obtain ⟨v, hv⟩ := Option.isSome_iff_exists.1 h
  obtain ⟨w, hw⟩ := Option.isSome_iff_exists.1 (resolvePath_components hv)
  unfold LastHarmless
  rcases splitOn_eq_components x with ⟨hx, hlast⟩ | hx
  · rw [hx]
    refine ⟨fun _ path u hpath => ?_, fun _ => rfl⟩
    rw [hpath, List.getLast?_concat] at hlast
    exact absurd rfl hlast
  · rw [hx]
    have hsnoc : resolvePath resolve global (components x ++ [[]]) = resolve w [] := by
      unfold resolvePath at hw ⊢
      rw [List.foldlM_append, hw]
      show resolve w [] >>= some = _
      exact bind_pure _
    rw [hsnoc, hw]
    -- the condition asks whether the empty component leads from `w` back to `w`
    constructor
    · intro heq path u hpath hu
      have hpre : components x = path := List.append_cancel_right hpath
      rw [← hpre, hw] at hu
      cases hu
      exact heq.symm
    · intro hall
      exact (hall _ _ rfl hw).symm

theorem lastName_mem {adds : List Function} {id : FunctionIdType} {name : StdString}
    (h : lastName adds id = some name) :
    ∃ fn ∈ adds, fn.id = id ∧ fn.name = name := by
  obtain ⟨fn, hfn, rfl⟩ := Option.map_eq_some_iff.1 h
  exact ⟨fn, List.mem_reverse.1 (List.mem_of_find?_eq_some hfn), by simpa using List.find?_some hfn, rfl⟩

/-- The name added last, from the additions under the id. -/
theorem lastName_eq_filter (adds : List Function) (id : FunctionIdType) :
    lastName adds id = (adds.filter (·.id = id)).getLast?.map (·.name) := by
  unfold lastName
  rw [← List.head?_filter, List.filter_reverse, List.head?_reverse]

theorem lastName_congr {adds adds' : List Function} (h : SameForEachId adds adds') (id : FunctionIdType) :
    lastName adds' id = lastName adds id := by
  rw [lastName_eq_filter, lastName_eq_filter, h id]

/-- **The order of different ids** does not matter. -/
theorem sameLookups {adds adds' : List Function} (hlast : ∀ id, lastName adds' id = lastName adds id)
    (h : ∀ fn ∈ adds, (resolvePath resolve global (fn.name.splitOn separator)).isSome)
    (h' : ∀ fn ∈ adds', (resolvePath resolve global (fn.name.splitOn separator)).isSome) :
    ∃ db db', (FunctionDatabase.new global).addFunctions resolve adds = .ok db ∧
      (FunctionDatabase.new global).addFunctions resolve adds' = .ok db' ∧ SameLookups db db' := by
  have hres : ∀ l : List Function, (∀ fn ∈ l, (resolvePath resolve global (fn.name.splitOn separator)).isSome) →
      ∃ db, (FunctionDatabase.new global).addFunctions resolve l = .ok db ∧ HoldsNames resolve global l db := by
    intro l hl
    refine addFunctions_holds l fun fn hfn => ?_
    obtain ⟨v, hv⟩ := Option.isSome_iff_exists.1 (hl fn hfn)
    exact resolvePath_components hv
  obtain ⟨db, hdb, hholds⟩ := hres adds h
  obtain ⟨db', hdb', hholds'⟩ := hres adds' h'
  refine ⟨db, db', hdb, hdb', fun id => ?_⟩
  rw [hholds.getFunction, hholds'.getFunction, hlast]

theorem lastName_perm {order order' : List Function} (hperm : order.Perm order')
    (hids : ∀ f ∈ order, ∀ g ∈ order, f.id = g.id → f = g) (id : FunctionIdType) :
    lastName order' id = lastName order id := by
  have hfind : ∀ l : List Function, (∀ f ∈ l, ∀ g ∈ l, f.id = g.id → f = g) → ∀ name,
      lastName l id = some name ↔ ∃ f ∈ l, f.id = id ∧ f.name = name := by
    intro l hl name
    refine ⟨lastName_mem, ?_⟩
    rintro ⟨f, hf, rfl, rfl⟩
    unfold lastName
    obtain ⟨g, hg⟩ : ∃ g, l.reverse.find? (·.id = f.id) = some g := by
      rw [← Option.isSome_iff_exists, List.find?_isSome]
      exact ⟨f, List.mem_reverse.2 hf, decide_eq_true rfl⟩
    have hgid : g.id = f.id := by simpa using List.find?_some hg
    rw [hg, hl g (List.mem_reverse.1 (List.mem_of_find?_eq_some hg)) f hf hgid]
    rfl
  have hids' : ∀ f ∈ order', ∀ g ∈ order', f.id = g.id → f = g := fun f hf g hg =>
    hids f (hperm.mem_iff.2 hf) g (hperm.mem_iff.2 hg)
  refine Option.ext fun name => ?_
  rw [hfind order' hids' name, hfind order hids name]
  simp only [hperm.mem_iff]

/-- **`Populate`** does not depend on the order. -/
theorem populatesAlike (s : CAFStore) (hs : DifferentIds s) : PopulatesAlike resolve global s := by
  intro fs order order' hfs hperm hperm' hres
  have hids := hs fs hfs
  refine sameLookups (fun id => ?_) (fun f hf => hres f (hperm.mem_iff.1 hf)) fun f hf => hres f (hperm'.mem_iff.1 hf)
  rw [lastName_perm hperm'.symm hids, lastName_perm hperm.symm hids]

/-- **Cached lookup is plain path resolution**, just if the empty components at the end of names do no harm. -/
theorem looksUp_iff {adds : List Function}
    (h : ∀ fn ∈ adds, (resolvePath resolve global (fn.name.splitOn separator)).isSome) :
    (LooksUp resolve global adds ∧ ∀ s, DifferentIds s → PopulatesAlike resolve global s) ↔
      ∀ id name, lastName adds id = some name → LastHarmless resolve global name := by
  have hname : ∀ {id name}, lastName adds id = some name →
      (resolvePath resolve global (name.splitOn separator)).isSome := by
    intro id name hlast
    obtain ⟨fn, hfn, -, rfl⟩ := lastName_mem hlast
    exact h fn hfn
  obtain ⟨db, hdb, hholds⟩ := addFunctions_holds adds fun fn hfn =>
    let ⟨_, hv⟩ := Option.isSome_iff_exists.1 (h fn hfn)
    resolvePath_components hv
  constructor
  · rintro ⟨⟨⟨db', hdb', hget⟩, -⟩, -⟩ id name hlast
    cases hdb.symm.trans hdb'
    have heq := Except.ok.inj ((hholds.getFunction id).symm.trans (hget id))
    rw [hlast, Option.bind_some, Option.bind_some] at heq
    exact (resolvePath_eq_iff (hname hlast)).1 heq
  · intro hall
    refine ⟨⟨⟨db, hdb, fun id => ?_⟩, fun adds' hsame => ?_⟩, populatesAlike⟩
    · rw [hholds.getFunction]
      cases hlast : lastName adds id with
      | none => rfl
      | some name => exact congrArg _ ((resolvePath_eq_iff (hname hlast)).2 (hall id name hlast))
    · refine sameLookups (lastName_congr hsame) h fun fn hfn => h fn ?_
      have hmem : fn ∈ adds'.filter (·.id = fn.id) := List.mem_filter.2 ⟨hfn, decide_eq_true rfl⟩
      rw [hsame fn.id] at hmem
      exact List.mem_of_mem_filter hmem

/-- Objects with the properties `a` and the empty name, each one step further. -/
def chainResolve (v : ℕ) (name : StdString) : Option ℕ := if name = [97] ∨ name = [] then some (v + 1) else none

/-- `a.a` and `a`: the second name ends in the middle of the first. -/
theorem chain_looksUp : LooksUp chainResolve 0 [⟨0, [97, 46, 97]⟩, ⟨1, [97]⟩] ∧
    ∀ s, DifferentIds s → PopulatesAlike chainResolve 0 s := by
  refine (looksUp_iff (by decide)).2 fun id name hlast path v hpath _ => ?_
  obtain ⟨fn, hfn, -, rfl⟩ := lastName_mem hlast
  -- no name ends with a dot
  have hplain : ∀ fn ∈ [(⟨0, [97, 46, 97]⟩ : Function), ⟨1, [97]⟩], (fn.name.splitOn separator).getLast? ≠ some [] := by
    decide
  exact absurd (hpath ▸ List.getLast?_concat) (hplain fn hfn)

/-- `a.` is looked up as `a`. -/
theorem dotted_not_lookedUp :
    (∀ fn ∈ [(⟨0, [97, 46]⟩ : Function)], (resolvePath chainResolve 0 (fn.name.splitOn separator)).isSome) ∧
      ¬ (LooksUp chainResolve 0 [⟨0, [97, 46]⟩] ∧ ∀ s, DifferentIds s → PopulatesAlike chainResolve 0 s) := by
  refine ⟨by decide, ?_⟩
  rintro ⟨⟨⟨db, hdb, hget⟩, -⟩, -⟩
  -- the plain resolution goes one step further
  have hone : ((FunctionDatabase.new 0).addFunctions chainResolve [⟨0, [97, 46]⟩] >>= fun db => db.getFunction 0) =
      .ok (some 1) := rfl
  rw [hdb] at hone
  cases hone.symm.trans (hget 0)

/-! ## The functions of a loaded store -/

theorem mem_of_mapM_ok {α β ε : Type} {f : α → Except ε β} {l : List α} {ys : List β} (h : l.mapM f = .ok ys) {y : β}
    (hy : y ∈ ys) : ∃ a ∈ l, f a = .ok y := by
  induction l generalizing ys with
  | nil =>
    cases h
    cases hy
  | cons a l ih =>
    rw [List.mapM_cons] at h
    cases ha : f a with
    | error e =>
      rw [ha] at h
      cases h
    | ok z =>
      cases hl : l.mapM f with
      | error e =>
        rw [ha, hl] at h
        cases h
      | ok zs =>
        rw [ha, hl] at h
        cases h
        rcases List.mem_cons.1 hy with rfl | hy
        · exact ⟨a, List.mem_cons_self, ha⟩
        · obtain ⟨b, hb, hfb⟩ := ih hl hy
          exact ⟨b, List.mem_cons_of_mem _ hb, hfb⟩

/-- The functions that are iterated are functions that were added. -/
theorem mem_functions {s : CAFStore} {paths : List (List StdString)} {fs gs : List Function}
    (h : CAFStore.StoreOK s paths fs) (hgs : s.functions = .ok gs) {g : Function} (hg : g ∈ gs) : g ∈ fs := by
  obtain ⟨i, hi, hget⟩ := mem_of_mapM_ok hgs hg
  obtain ⟨k, hk, rfl⟩ := List.mem_iff_getElem.1 hi
  obtain ⟨hlen, hall⟩ := List.forall₂_iff_get.1 h.ids
  obtain ⟨-, hpath⟩ := hall k hk (hlen ▸ hk)
  obtain ⟨f, hf, hfind⟩ := CAFStore.entry_eq h (List.getElem_mem (hlen ▸ hk)) hpath
  have hfg : f = g := Except.ok.inj (hf.symm.trans hget)
  rw [← hfg]
  exact List.mem_reverse.1 (List.mem_of_find?_eq_some hfind)

/-- **A loaded store** has functions with different ids. -/
theorem differentIds_load {names : List StdString} (hlen : names.length ≤ 2 ^ 32) :
    DifferentIds (CAFStore.load names .new) := by
  obtain ⟨paths, hok⟩ := CAFStore.load_ok hlen
  intro gs hgs f hf g hg hid
  exact List.inj_on_of_nodup_map (CAFStore.numbered_ids hlen) (mem_functions hok hgs hf) (mem_functions hok hgs hg) hid

end Caf
