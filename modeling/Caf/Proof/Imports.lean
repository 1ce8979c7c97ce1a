import Mathlib.Data.List.TakeWhile
import Caf.Proof.Calls
import Caf.Spec.Imports

/-!
# When native modules are imported first

The builder imports a module for a name with a dot. The modules it has imported are those of the dotted names so far,
which it has met in the order of the reference evaluation; only the first occurrence of a name matters.

* `imports_names`: the names of a script, and those that the reference evaluation meets.
* `PartWritten`: what a program declares, by induction on the script.
* `importsNativeModules_iff`: when all is imported first.
-/

namespace Caf

open ObjectGraph

/-! ## Names of modules -/

theorem getModuleName_native : ∀ m ∈ nativeModuleNames, getModuleName m = m := by decide

theorem isInModule_native : ∀ m ∈ nativeModuleNames, isInModule m = false := by decide

/-- Names of modules start with a small letter. -/
theorem head_native : ∀ m ∈ nativeModuleNames, ∃ ch rest, m = ch :: rest ∧ 97 ≤ ch ∧ ch ≤ 122 := by
  have h : ∀ m ∈ nativeModuleNames, (m.head?.any fun ch => 97 ≤ ch && ch ≤ 122) = true := by decide
  intro m hm
  have hm := h m hm
  rcases m with - | ⟨ch, rest⟩
  · simp at hm
  · exact ⟨ch, rest, rfl, by simpa using hm⟩

theorem getModuleName_mem {name : StdString} (h : isInModule name = true) : getModuleName name ∈ nativeModuleNames := by
  unfold isInModule at h
  rcases name with - | ⟨ch, rest⟩
  · simp at h
  · simp only [Bool.and_eq_true, List.contains_iff_mem] at h
    exact h.2

/-- **A name whose first component is a native module** is in the module, or is that of the module. -/
theorem native_cases {name : StdString} (h : getModuleName name ∈ nativeModuleNames) :
    isInModule name = true ∨ name ∈ nativeModuleNames := by
  by_cases hdot : separator ∈ name
  · left
    obtain ⟨ch, rest, hm, h₁, h₂⟩ := head_native _ h
    rcases name with - | ⟨ch', name⟩
    · cases hdot
    · have hch : ch' = ch := by
        unfold getModuleName at hm
        rw [List.takeWhile_cons] at hm
        split at hm
        · exact (List.cons.inj hm).1
        · cases hm
      subst hch
      simp [isInModule, h₁, h₂, hdot, h]
  · right
    have hself : getModuleName name = name := by
      unfold getModuleName
      rw [List.takeWhile_eq_self_iff]
      intro ch hch
      rw [bne_iff_ne]
      rintro rfl
      exact hdot hch
    rwa [hself] at h

/-! ## Names of variables -/

theorem decimal_digit {n : ℕ} {d : UInt8} (hd : d ∈ decimal n) : 48 ≤ d ∧ d ≤ 57 := by
  obtain ⟨ch, hch, rfl⟩ := List.mem_map.1 hd
  have hdigit := Nat.isDigit_of_mem_toDigits (by decide) (by decide) hch
  simp only [Char.isDigit, Bool.and_eq_true, decide_eq_true_eq, ge_iff_le, UInt32.le_iff_toNat_le] at hdigit
  obtain ⟨hlow, hhigh⟩ := hdigit
  have hlow : 48 ≤ ch.toNat := hlow
  have hhigh : ch.toNat ≤ 57 := hhigh
  have hval : (UInt8.ofNat ch.toNat).toNat = ch.toNat := by
    rw [UInt8.toNat_ofNat', Nat.mod_eq_of_lt (by omega)]
  rw [UInt8.le_iff_toNat_le, UInt8.le_iff_toNat_le, hval]
  exact ⟨hlow, hhigh⟩

theorem varName_not_native (n : ℕ) : varName n ∉ nativeModuleNames := by
  intro h
  obtain ⟨ch, rest, he, hch, -⟩ := head_native _ h
  unfold varName at he
  rw [← (List.cons.inj he).1] at hch
  exact absurd hch (by decide)

theorem varName_not_wrapper (n : ℕ) : varName n ∉ wrapperNames := by
  have h : ∀ x ∈ wrapperNames, x.head? = some 95 → 95 ∈ x.tail := by decide
  intro hx
  have hd := decimal_digit (n := n) (h _ hx rfl)
  exact absurd hd.2 (by decide)

section Generated

variable {h : Heap} {store : CAFStore} {tc : TestCase} {fuel : ℕ} {b b' : SynthesisBuilder (List Statement)}

/-- The variables that a script declares are numbered. -/
def Generated (script : List Statement) : Prop := ∀ x ∈ script.filterMap Statement.declared, ∃ n, x = varName n

theorem emit_generated {st : Statement} (he : b.emit recording st = .ok b')
    (hst : st.declared = none ∨ ∃ n, st.declared = some (varName n)) (hb : Generated b.output) :
    Generated b'.output := by
  have hwrite : recording.write st b.output = .ok (b.output ++ [st]) := by cases st <;> rfl
  simp only [SynthesisBuilder.emit, hwrite, bind, Except.bind, pure, Except.pure, Except.ok.injEq] at he
  subst he
  intro x hx
  rw [List.filterMap_append, List.mem_append] at hx
  rcases hx with hx | hx
  · exact hb x hx
  · obtain ⟨st', hst', hx⟩ := List.mem_filterMap.1 hx
    rw [List.mem_singleton.1 hst'] at hx
    rcases hst with hst | ⟨n, hst⟩
    · rw [hst] at hx
      cases hx
    · rw [hst] at hx
      exact ⟨n, (Option.some.inj hx).symm⟩

theorem eachVariable_keeps {W : Type} {P : SynthesisBuilder W → Prop}
    {read : Addr → SynthesisBuilder W → Except Error (StdString × SynthesisBuilder W)}
    {use : StdString → SynthesisBuilder W → Except Error (SynthesisBuilder W)}
    (hread : ∀ a b r, P b → read a b = .ok r → P r.2) (huse : ∀ x b b', P b → use x b = .ok b' → P b')
    {as : List Addr} {b : SynthesisBuilder W} {r : List StdString × SynthesisBuilder W} (hb : P b)
    (hr : SynthesisBuilder.eachVariable read use as b = .ok r) : P r.2 := by
  induction as generalizing b r with
  | nil =>
    cases hr
    exact hb
  | cons a as ih =>
    simp only [SynthesisBuilder.eachVariable, bind_eq_ok] at hr
    obtain ⟨r₁, h₁, b₂, h₂, r₃, h₃, he⟩ := hr
    cases he
    have hrest := ih (huse _ _ _ (hread _ _ _ hb h₁) h₂) h₃
    exact hrest

theorem synthesisConstant_generated {a : Addr} {r : StdString × SynthesisBuilder (List Statement)}
    (hb : Generated b.output) (hr : SynthesisBuilder.synthesisConstant recording h fuel a b = .ok r) :
    Generated r.2.output := by
  induction fuel generalizing a b r with
  | zero => cases hr
  | succ fuel ih =>
    unfold SynthesisBuilder.synthesisConstant at hr
    split at hr
    · obtain ⟨x, -, hr⟩ := bind_eq_ok.1 hr
      cases hr
      exact hb
    · split at hr
      · cases hr
      · obtain ⟨x, -, hr⟩ := bind_eq_ok.1 hr
        cases hr
        exact hb
      · simp only [bind_eq_ok] at hr
        obtain ⟨b₁, h₁, r₂, h₂, hr⟩ := hr
        cases hr
        have hb₁ : Generated b₁.output := emit_generated h₁ (.inr ⟨_, rfl⟩) hb
        have hpush : ∀ (dest x : StdString) (c c' : SynthesisBuilder (List Statement)), Generated c.output →
            c.emit recording (.arrayPush dest x) = .ok c' → Generated c'.output := by
          intro dest x c c' hc he
          exact emit_generated he (.inl rfl) hc
        exact eachVariable_keeps (P := fun b => Generated b.output) (fun a c r hc hr => ih hc hr) (hpush _) hb₁ h₂
      · obtain ⟨b₁, h₁, hr⟩ := bind_eq_ok.1 hr
        cases hr
        exact emit_generated h₁ (.inr ⟨_, rfl⟩) hb

theorem synthesisCall_generated {call : FunctionCall} (hb : Generated b.output)
    (hr : TestCaseSynthesiser.synthesisCall recording store h fuel call b = .ok b') : Generated b'.output := by
  simp only [TestCaseSynthesiser.synthesisCall, bind_eq_ok] at hr
  obtain ⟨r₁, h₁, r₂, h₂, f, -, r₃, h₃, he⟩ := hr
  cases he
  have hb₁ : Generated r₁.2.output := by
    unfold SynthesisBuilder.synthesisThis at h₁
    split at h₁
    · exact synthesisConstant_generated hb h₁
    · cases h₁
      exact hb
  have hb₂ : Generated r₂.2.output := by
    refine eachVariable_keeps (P := fun b => Generated b.output) (fun a c r hc hr => synthesisConstant_generated hc hr)
      (fun x c c' hc he => ?_) hb₁ h₂
    cases he
    exact hc
  simp only [SynthesisBuilder.synthesisFunctionCall, bind_eq_ok] at h₃
  obtain ⟨b₃, h₃, he⟩ := h₃
  cases he
  have hcalled : Generated b₃.output := emit_generated h₃ (.inr ⟨_, rfl⟩) hb₂
  exact hcalled

/-- **The variables of a script are numbered.** -/
theorem WrittenAs.generated {script : List Statement} (hw : WrittenAs store h tc fuel script) : Generated script := by
  obtain ⟨b', he⟩ := hw
  have he := emits_quiet.1 he _ recording []
  rw [recording_writeAll] at he
  have hcalls : ∀ (calls : List FunctionCall) (b b' : SynthesisBuilder (List Statement)), Generated b.output →
      TestCaseSynthesiser.synthesisCalls recording store h fuel calls b = .ok b' → Generated b'.output := by
    intro calls
    induction calls with
    | nil =>
      intro b b' hb hr
      cases hr
      exact hb
    | cons call calls ih =>
      intro b b' hb hr
      simp only [TestCaseSynthesiser.synthesisCalls, bind_eq_ok] at hr
      obtain ⟨b₁, h₁, hr⟩ := hr
      exact ih b₁ b' (synthesisCall_generated hb h₁) hr
  have hnil : Generated [] := by
    intro x hx
    cases hx
  exact hcalls tc.calls _ _ hnil he

end Generated

/-! ## The names of a script -/

section Names

variable {store : CAFStore} {h : Heap} {tc : TestCase} {Fs : List (Step CallOp (Forest Literal))}
  {S : List Referent} {script : List Statement}

/-- The name of a function in a statement. -/
def Statement.functionName (store : CAFStore) : Statement → Option StdString
  | .variableDef _ l => Caf.functionName store l
  | .functionCall _ f _ _ _ => some f
  | _ => none

/-- The names of functions in a script. -/
def scriptNames (store : CAFStore) (script : List Statement) : List StdString :=
  script.filterMap (Statement.functionName store)

/-- The names of functions in a step. -/
def stepNames (store : CAFStore) (st : Step CallOp (Forest Literal)) : List StdString :=
  (st.head.leaves ++ st.args.leaves).filterMap (functionName store) ++ [store.nameOf st.op.1]

theorem foldl_names (ls : List Literal) (names : List StdString) :
    ls.foldl (fun names l => names ++ (functionName store l).toList) names =
      names ++ ls.filterMap (functionName store) := by
  induction ls generalizing names with
  | nil => simp
  | cons l ls ih =>
    rw [List.foldl_cons, ih, List.append_assoc]
    cases hl : functionName store l with
    | none => simp [hl]
    | some name => simp [hl]

/-- **The reference evaluation** meets the names of the forests. -/
theorem namesOf_eq (h₁ : WalkSteps h.graph 0 [] tc.steps Fs S) : namesOf store h tc = Fs.flatMap (stepNames store) := by
  obtain ⟨events, P, names, hrun, -⟩ := h₁.run_start (namesInterp store)
    (fun (op : CallOp) _ _ names => ((), names ++ [store.nameOf op.1])) []
  have hdepth : DepthLE (h.length + 1) Fs := depthLE_of_walk h₁ (Nat.le_refl _)
  obtain ⟨st, heval, hst, -⟩ := h₁.eval_eq ResultsBelow.nil (EvalState.start_views []) rfl hdepth hrun
  have hnames := runSteps_leaves (f := fun names l => names ++ (functionName store l).toList)
    (k := fun names op => names ++ [store.nameOf op.1]) (fun _ _ => rfl) (fun _ _ => rfl) (fun _ _ _ => rfl)
    (fun _ _ _ _ => rfl) hrun
  have hfold : ∀ (Fs : List (Step CallOp (Forest Literal))) (names : List StdString),
      Fs.foldl (fun names st => st.args.leaves.foldl (fun names l => names ++ (functionName store l).toList)
        (st.head.leaves.foldl (fun names l => names ++ (functionName store l).toList) names) ++
          [store.nameOf st.op.1]) names = names ++ Fs.flatMap (stepNames store) := by
    intro Fs
    induction Fs with
    | nil => simp
    | cons st Fs ih =>
      intro names
      rw [List.foldl_cons, ih, foldl_names, foldl_names, List.flatMap_cons, stepNames]
      simp only [List.filterMap_append, List.append_assoc]
  rw [namesOf, heval]
  show st.host = _
  rw [hst, hnames, hfold, List.nil_append]

/-- Add the name of a function value. -/
def meetLiteral (store : CAFStore) (names : List StdString) (l : Literal) : List StdString :=
  (functionName store l).elim names (Run.meet names)

theorem subset_meetLiteral (names : List StdString) (l : Literal) : names ⊆ meetLiteral store names l := by
  intro name hname
  unfold meetLiteral
  cases functionName store l with
  | none => exact hname
  | some name' => exact Run.mem_meet.2 (.inl hname)

/-- The host that takes note of the first occurrences of names. A function is known by its name. -/
def namesHost (store : CAFStore) : Host (List StdString) Unit where
  literal l names := ((), meetLiteral store names l)
  newArray names := ((), names)
  push _ _ names := names
  call op _ _ names := ((), Run.meet names op.1)
  Known l _ names := ∀ name, functionName store l = some name → name ∈ names
  known_literal l names := by
    intro name hname
    rw [meetLiteral, hname]
    exact Run.mem_meet.2 (.inr rfl)
  literal_known := by
    intro l v names hk
    have hl : meetLiteral store names l = names := by
      unfold meetLiteral
      cases hname : functionName store l with
      | none => rfl
      | some name => exact Run.meet_of_mem (hk name hname)
    rw [hl]
  keep_literal l' hk name hname := subset_meetLiteral _ l' (hk name hname)
  keep_newArray hk := hk
  keep_push _ _ hk := hk
  keep_call _ _ _ hk name hname := Run.mem_meet.2 (.inl (hk name hname))

/-- A script has met its names. -/
theorem run_names {e e' : Execution (List StdString) Unit} (hr : (namesHost store).run script e = some e') :
    e'.host = (scriptNames store script).foldl Run.meet e.host := by
  induction script generalizing e with
  | nil =>
    cases hr
    rfl
  | cons st script ih =>
    simp only [Host.run, Option.bind_eq_bind, Option.bind_eq_some_iff] at hr
    obtain ⟨e₁, hst, hrun⟩ := hr
    have hhost : e₁.host = (st.functionName store).elim e.host (Run.meet e.host) := by
      cases st with
      | variableDef x l =>
        obtain ⟨-, rfl⟩ := Host.declare_eq hst
        rfl
      | emptyArrayVariableDef x =>
        obtain ⟨-, rfl⟩ := Host.declare_eq hst
        rfl
      | arrayPush x y =>
        simp only [Host.step, Option.bind_eq_bind, Option.bind_eq_some_iff, Option.pure_def, Option.some.injEq] at hst
        obtain ⟨a, -, v, -, rfl⟩ := hst
        rfl
      | functionCall ret f ctor recv args =>
        simp only [Host.step, Option.bind_eq_bind, Option.bind_eq_some_iff] at hst
        obtain ⟨hs, -, vs, -, hst⟩ := hst
        obtain ⟨-, rfl⟩ := Host.declare_eq hst
        rfl
    rw [ih hrun, hhost, scriptNames, scriptNames, List.filterMap_cons]
    cases st.functionName store <;> rfl

/-- **The names of the script** are first met in the order of the reference evaluation. -/
theorem firsts_names (h₁ : WalkSteps h.graph 0 [] tc.steps Fs S) (hscript : Script store h tc Fs script) :
    Run.firsts (scriptNames store script) = Run.firsts (namesOf store h tc) := by
  obtain ⟨events, P, names, hrun, -⟩ := h₁.run_start (namesHost store).interp ((namesHost store).perform store) []
  obtain ⟨e, he, hhost, -⟩ := hscript.runs (namesHost store) [] hrun
  -- the reference evaluation meets the names of the leaves, step by step
  have hnames := runSteps_leaves (f := meetLiteral store) (k := fun names op => Run.meet names (store.nameOf op.1))
    (fun _ _ => rfl) (fun _ _ => rfl) (fun _ _ _ => rfl) (fun _ _ _ _ => rfl) hrun
  have hleaves : ∀ (ls : List Literal) (names : List StdString), ls.foldl (meetLiteral store) names =
      (ls.filterMap (functionName store)).foldl Run.meet names := by
    intro ls
    induction ls with
    | nil => exact fun _ => rfl
    | cons l ls ih =>
      intro names
      rw [List.foldl_cons, ih, meetLiteral, List.filterMap_cons]
      cases functionName store l <;> rfl
  have hfold : ∀ (Fs : List (Step CallOp (Forest Literal))) (names : List StdString),
      Fs.foldl (fun names st => Run.meet (st.args.leaves.foldl (meetLiteral store)
        (st.head.leaves.foldl (meetLiteral store) names)) (store.nameOf st.op.1)) names =
        (Fs.flatMap (stepNames store)).foldl Run.meet names := by
    intro Fs
    induction Fs with
    | nil => exact fun _ => rfl
    | cons st Fs ih =>
      intro names
      rw [List.foldl_cons, ih, hleaves, hleaves, List.flatMap_cons, stepNames]
      simp only [List.filterMap_append, List.foldl_append, List.foldl_cons, List.foldl_nil]
  have hmet := run_names he
  rw [hhost, hnames, hfold] at hmet
  rw [namesOf_eq h₁]
  exact hmet.symm

end Names

/-! ## What a program declares -/

section Program

variable {store : CAFStore} {formatDouble : Double → StdString} {libDir name : StdString} {xs vars : List StdString}
  {script before after : List Statement} {st st' : Statement} {js : JsStatement} {p : JsProgram} {x : StdString}

theorem Scoped.declared_not_mem (h : Scoped xs (before ++ st :: after)) (hx : st.declared = some x) :
    x ∉ xs ++ before.filterMap Statement.declared := by
  induction before generalizing xs with
  | nil =>
    rw [List.filterMap_nil, List.append_nil]
    exact h.2.1 x hx
  | cons st' before ih =>
    have hrest := ih h.2.2
    rw [List.append_assoc] at hrest
    rw [List.filterMap_cons]
    cases hst' : st'.declared with
    | none => rwa [hst'] at hrest
    | some y => rwa [hst'] at hrest

/-- A variable is declared by one statement. -/
theorem Scoped.declared_unique (h : Scoped [] script) (hst : st ∈ script) (hst' : st' ∈ script)
    (hx : st.declared = some x) (hx' : st'.declared = some x) : st' = st := by
  obtain ⟨before, after, rfl⟩ := List.append_of_mem hst
  rcases List.mem_append.1 hst' with hb | hb
  · have hnot := h.declared_not_mem hx
    exact absurd (List.mem_filterMap.2 ⟨st', hb, hx'⟩) hnot
  · rcases List.mem_cons.1 hb with rfl | hb
    · rfl
    · obtain ⟨between, rest, rfl⟩ := List.append_of_mem hb
      have h' : Scoped [] ((before ++ st :: between) ++ st' :: rest) := by simpa using h
      have hnot := h'.declared_not_mem hx'
      have hmem : st ∈ before ++ st :: between := by simp
      exact absurd (List.mem_filterMap.2 ⟨st, hmem, hx⟩) hnot

theorem translate_declared (h : translate store formatDouble st = .ok js) :
    js.declared = st.declared ∧ ∀ m, js ≠ .require m := by
  cases st with
  | variableDef x l =>
    simp only [translate] at h
    cases hl : writeLiteralValue store formatDouble l with
    | error e =>
      rw [hl] at h
      cases h
    | ok literal =>
      rw [hl] at h
      cases h
      exact ⟨rfl, fun m hm => (by cases hm)⟩
  | _ =>
    cases h
    exact ⟨rfl, fun m hm => (by cases hm)⟩

/-- The function that a statement names is the one whose module is imported. -/
theorem requiredName_eq (h : translate store formatDouble st = .ok js) :
    requiredName st js = st.functionName store := by
  cases st with
  | variableDef x l =>
    cases l with
    | function id =>
      simp only [translate, writeLiteralValue, bind, Except.bind] at h
      cases hf : store.getFunction id with
      | error e =>
        rw [hf] at h
        cases h
      | ok f =>
        rw [hf] at h
        cases h
        simp only [requiredName, Statement.functionName, functionName, CAFStore.nameOf, hf]
    | _ => rfl
  | _ => rfl

/-- **The names that are written** are those of the script. -/
theorem names_iff (hscoped : Scoped [] script) (hst : st ∈ script) (h : translate store formatDouble st = .ok js) :
    js.Names script name ↔ st.functionName store = some name := by
  cases st with
  | variableDef x l =>
    simp only [translate] at h
    cases hl : writeLiteralValue store formatDouble l with
    | error e =>
      rw [hl] at h
      cases h
    | ok literal =>
      rw [hl] at h
      cases h
      cases l with
      | function id =>
        have hname : store.nameOf id = literal := by
          simp only [writeLiteralValue, bind_eq_ok] at hl
          obtain ⟨f, hf, hl⟩ := hl
          cases hl
          simp only [CAFStore.nameOf, hf]
        simp only [JsStatement.Names, Statement.functionName, functionName, hname, Option.some.injEq]
        constructor
        · exact And.left
        · intro he
          exact ⟨he, id, hst⟩
      | _ =>
        simp only [JsStatement.Names, Statement.functionName, functionName]
        constructor
        · rintro ⟨-, id, hid⟩
          -- the variable would be declared twice
          cases hscoped.declared_unique hst hid rfl rfl
        · intro he
          cases he
  | functionCall ret f ctor recv args =>
    cases h
    have hf : (writtenCall f ctor ([recv].filter (!·.isEmpty)) args).functionName = f := by
      unfold writtenCall
      split
      · rfl
      · split <;> rfl
    simp only [JsStatement.Names, Statement.functionName, hf, Option.some.injEq]
  | _ =>
    cases h
    simp only [JsStatement.Names, Statement.functionName, reduceCtorEq]

/-- **A program declares** its variables and the modules it has imported, once each. -/
structure Declares (vars : List StdString) (p : JsProgram) : Prop where
  requires : ∀ m, JsStatement.require m ∈ p.statements ↔ m ∈ p.imported
  native : ∀ m ∈ p.imported, m ∈ nativeModuleNames
  once : (p.statements.filterMap JsStatement.declared).Nodup
  names : ∀ x, x ∈ p.statements.filterMap JsStatement.declared ↔ x ∈ vars ∨ x ∈ p.imported

/-- A module is imported for a name with a dot, unless it is there. -/
theorem requireName_cases (name : Option StdString) (p : JsProgram) :
    (p.requireName (.nodejs libDir) name = p ∧
      ∀ n, name = some n → isInModule n = true → getModuleName n ∈ p.imported) ∨
    ∃ n, name = some n ∧ isInModule n = true ∧ getModuleName n ∉ p.imported ∧ p.requireName (.nodejs libDir) name =
      ⟨p.statements ++ [.require (getModuleName n)], p.imported ++ [getModuleName n]⟩ := by
  cases name with
  | none =>
    left
    exact ⟨rfl, fun n hn => (by cases hn)⟩
  | some n =>
    simp only [JsProgram.requireName, Option.elim_some, JsProgram.requireFor, Dialect.nodejs, Option.some.injEq,
      forall_eq', exists_eq_left']
    by_cases hin : isInModule n = true
    · by_cases hm : getModuleName n ∈ p.imported
      · left
        simp [hin, hm]
      · right
        simp [hin, hm]
    · left
      simp [hin]

theorem mem_requireName_imported {name : Option StdString} {m : StdString} :
    m ∈ (p.requireName (.nodejs libDir) name).imported ↔
      m ∈ p.imported ∨ ∃ n, name = some n ∧ isInModule n = true ∧ getModuleName n = m := by
  rcases requireName_cases name p with ⟨he, hhere⟩ | ⟨n, rfl, hin, -, he⟩
  · rw [he]
    constructor
    · exact Or.inl
    · rintro (hm | ⟨n, hn, hin, rfl⟩)
      · exact hm
      · exact hhere n hn hin
  · rw [he]
    simp only [List.mem_append, List.mem_singleton, Option.some.injEq]
    constructor
    · rintro (hm | rfl)
      · exact .inl hm
      · exact .inr ⟨n, rfl, hin, rfl⟩
    · rintro (hm | ⟨n', rfl, -, rfl⟩)
      · exact .inl hm
      · exact .inr rfl

/-- An import names no function. -/
theorem eachAfter_requireName {name : Option StdString} :
    Run.EachAfter (RequiredBefore script) (p.requireName (.nodejs libDir) name).statements ↔
      Run.EachAfter (RequiredBefore script) p.statements := by
  rcases requireName_cases name p with ⟨he, -⟩ | ⟨n, -, -, -, he⟩
  · rw [he]
  · rw [he, Run.eachAfter_concat]
    apply and_iff_left
    intro name hname
    cases hname

theorem Declares.requireName (hp : Declares vars p) (hvars : ∀ x ∈ vars, ∃ n, x = varName n) (name : Option StdString) :
    Declares vars (p.requireName (.nodejs libDir) name) := by
  rcases requireName_cases name p with ⟨he, -⟩ | ⟨n, -, hin, hm, he⟩
  · rw [he]
    exact hp
  · have hnative := getModuleName_mem hin
    -- the module is no variable
    have hnew : getModuleName n ∉ p.statements.filterMap JsStatement.declared := by
      rw [hp.names]
      rintro (hx | hx)
      · obtain ⟨k, hk⟩ := hvars _ hx
        rw [hk] at hnative
        exact varName_not_native k hnative
      · exact hm hx
    have hdeclared : (p.statements ++ [JsStatement.require (getModuleName n)]).filterMap JsStatement.declared =
        p.statements.filterMap JsStatement.declared ++ [getModuleName n] := by
      rw [List.filterMap_append]
      rfl
    rw [he]
    constructor
    · intro m
      simp only [List.mem_append, List.mem_singleton, hp.requires m, JsStatement.require.injEq]
    · intro m hm
      rcases List.mem_append.1 hm with hm | hm
      · exact hp.native m hm
      · rwa [List.mem_singleton.1 hm]
    · rw [hdeclared, List.nodup_append]
      refine ⟨hp.once, List.nodup_singleton _, ?_⟩
      intro x hx y hy
      rw [List.mem_singleton.1 hy]
      rintro rfl
      exact hnew hx
    · intro x
      rw [hdeclared, List.mem_append, hp.names x, List.mem_append, or_assoc]

theorem Declares.add (hp : Declares vars p) (hjs : ∀ m, js ≠ .require m)
    (hx : ∀ x, js.declared = some x → (∃ n, x = varName n) ∧ x ∉ vars) :
    Declares (vars ++ js.declared.toList) (p.add js) := by
  have hdeclared : (p.add js).statements.filterMap JsStatement.declared =
      p.statements.filterMap JsStatement.declared ++ js.declared.toList := by
    rw [JsProgram.add, List.filterMap_append, List.filterMap_cons]
    cases js.declared <;> rfl
  constructor
  · intro m
    have hne : JsStatement.require m ≠ js := fun he => hjs m he.symm
    simp only [JsProgram.add, List.mem_append, List.mem_singleton, hne, or_false, hp.requires m]
  · exact hp.native
  · rw [hdeclared, List.nodup_append]
    refine ⟨hp.once, by cases js.declared <;> simp, ?_⟩
    intro y hy z hz
    obtain ⟨⟨n, hn⟩, hnot⟩ := hx z (Option.mem_toList.1 hz)
    rintro rfl
    rcases (hp.names y).1 hy with hv | hi
    · exact hnot hv
    · rw [hn] at hi
      exact varName_not_native n (hp.native _ hi)
  · intro y
    rw [hdeclared, List.mem_append, hp.names y, List.mem_append]
    simp only [JsProgram.add]
    tauto

/-- What is known of the program when a part of the script is written. -/
structure PartWritten (store : CAFStore) (script part : List Statement) (p : JsProgram) : Prop where
  declares : Declares (part.filterMap Statement.declared) p
  imported : ∀ m, m ∈ p.imported ↔ ∃ name ∈ scriptNames store part, isInModule name = true ∧ getModuleName name = m
  required : Run.EachAfter (RequiredBefore script) p.statements ↔ Run.EachAfter ImportedBefore (scriptNames store part)

theorem written_nil : PartWritten store script [] ⟨(Dialect.nodejs libDir).prologue, []⟩ := by
  constructor
  · constructor
    · simp [Dialect.nodejs]
    · simp
    · exact List.nodup_nil
    · simp [Dialect.nodejs, JsStatement.declared]
  · simp [scriptNames]
  · apply iff_of_true
    · have hinit : Run.EachAfter (RequiredBefore script) ([] ++ [.init libDir]) := by
        rw [Run.eachAfter_concat]
        refine ⟨Run.eachAfter_nil, ?_⟩
        intro name hname
        cases hname
      exact hinit
    · exact Run.eachAfter_nil

/-- The module of the function that is named is imported if its name comes at the right time. -/
theorem requiredBefore_iff (hscoped : Scoped [] script) (hst : st ∈ script)
    (htranslate : translate store formatDouble st = .ok js) {part : List Statement}
    (hp : PartWritten store script part p)
    (hvars : ∀ x ∈ part.filterMap Statement.declared, ∃ n, x = varName n) :
    RequiredBefore script (p.requireName (.nodejs libDir) (requiredName st js)).statements js ↔
      ∀ name, st.functionName store = some name → ImportedBefore (scriptNames store part) name := by
  have hdeclares : Declares _ (p.requireName (.nodejs libDir) (requiredName st js)) := hp.declares.requireName hvars _
  unfold RequiredBefore
  apply forall_congr'
  intro name
  rw [names_iff hscoped hst htranslate]
  apply imp_congr_right
  intro hname
  rw [hdeclares.requires, mem_requireName_imported, requiredName_eq htranslate, hp.imported, hname]
  unfold ImportedBefore
  constructor
  · intro h hnative
    rw [getModuleName_native name hnative] at h
    rcases h hnative with h | ⟨n, hn, hin, -⟩
    · exact h
    · rw [← Option.some.inj hn, isInModule_native name hnative] at hin
      cases hin
  · intro h hnative
    rcases native_cases hnative with hin | hself
    · exact .inr ⟨name, rfl, hin, rfl⟩
    · rw [getModuleName_native name hself]
      exact .inl (h hself)

/-- **Whatever has been written**, its declarations are right, and its imports are if the names are in order. -/
theorem written_of_writeAll (hscoped : Scoped [] script) (hgenerated : Generated script) {part rest : List Statement}
    (hpart : script = part ++ rest) (hp : (programWriter (.nodejs libDir) store formatDouble).writeAll part
      ⟨(Dialect.nodejs libDir).prologue, []⟩ = .ok p) : PartWritten store script part p := by
  -- by induction on what has been written, since the program grows at its end
  induction part using List.reverseRecOn generalizing rest p with
  | nil =>
    cases hp
    exact written_nil
  | append_singleton part st ih =>
    rw [writeAll_append] at hp
    obtain ⟨p₀, hp₀, hp⟩ := bind_eq_ok.1 hp
    obtain ⟨p₁, hp₁, hp⟩ := bind_eq_ok.1 hp
    cases hp
    have hpart' : script = part ++ st :: rest := by rw [hpart, List.append_assoc, List.singleton_append]
    have hst : st ∈ script := by simp [hpart']
    have hw := ih hpart' hp₀
    have hvars : ∀ x ∈ part.filterMap Statement.declared, ∃ n, x = varName n := by
      intro x hx
      apply hgenerated x
      rw [hpart, List.filterMap_append, List.filterMap_append]
      exact List.mem_append_left _ (List.mem_append_left _ hx)
    rw [program_write] at hp₁
    cases htranslate : translate store formatDouble st with
    | error e =>
      rw [htranslate] at hp₁
      cases hp₁
    | ok js =>
      rw [htranslate] at hp₁
      cases hp₁
      obtain ⟨hdeclared, hjs⟩ := translate_declared htranslate
      have hnames : scriptNames store (part ++ [st]) = scriptNames store part ++ (st.functionName store).toList := by
        rw [scriptNames, List.filterMap_append, List.filterMap_cons]
        cases st.functionName store <;> rfl
      constructor
      · have hlast : (part ++ [st]).filterMap Statement.declared =
            part.filterMap Statement.declared ++ js.declared.toList := by
          rw [hdeclared, List.filterMap_append, List.filterMap_cons]
          cases st.declared <;> rfl
        rw [hlast]
        refine (hw.declares.requireName hvars _).add hjs ?_
        intro x hx
        rw [hdeclared] at hx
        constructor
        · exact hgenerated x (List.mem_filterMap.2 ⟨st, hst, hx⟩)
        · rw [hpart'] at hscoped
          have hnot := hscoped.declared_not_mem hx
          rwa [List.nil_append] at hnot
      · intro m
        show m ∈ (p₀.requireName (.nodejs libDir) (requiredName st js)).imported ↔ _
        rw [mem_requireName_imported, hw.imported, requiredName_eq htranslate, hnames]
        simp only [List.mem_append, Option.mem_toList, or_and_right, exists_or]
      · have hlast : RequiredBefore script (p₀.requireName (.nodejs libDir) (requiredName st js)).statements js ↔ _ :=
          requiredBefore_iff hscoped hst htranslate hw hvars
        show Run.EachAfter _ ((p₀.requireName (.nodejs libDir) (requiredName st js)).statements ++ [js]) ↔ _
        rw [Run.eachAfter_concat, eachAfter_requireName, hw.required, hlast, hnames]
        cases st.functionName store with
        | none => simp
        | some name =>
          rw [Option.toList_some, Run.eachAfter_concat]
          simp

/-- **Modules are imported first if the names are in order.** -/
theorem importsFirst_iff (hscoped : Scoped [] script) (hgenerated : Generated script)
    (hp : (programWriter (.nodejs libDir) store formatDouble).writeAll script ⟨(Dialect.nodejs libDir).prologue, []⟩ =
      .ok p) : ImportsFirst script p.statements ↔ ImportsInOrder (scriptNames store script) := by
  have hw := written_of_writeAll hscoped hgenerated (List.append_nil script).symm hp
  have hwrapper : ∀ m ∈ nativeModuleNames, m ∈ wrapperNames → m = text "module" := by decide
  constructor
  · intro h
    constructor
    · intro name hname hin he
      have hdeclared := (hw.declares.names _).2 (.inr ((hw.imported _).2 ⟨name, hname, hin, rfl⟩))
      have hmodule : text "module" ∈ wrapperNames := by decide
      rw [he] at hdeclared
      exact h.unbound _ hdeclared hmodule
    · exact hw.required.1 h.required
  · intro h
    constructor
    · exact hw.required.2 h.imported
    · exact hw.declares.once
    · intro x hx hbound
      rcases (hw.declares.names x).1 hx with hv | hi
      · obtain ⟨n, rfl⟩ := hgenerated x hv
        exact varName_not_wrapper n hbound
      · obtain ⟨name, hname, hin, hm⟩ := (hw.imported x).1 hi
        apply h.notModule name hname hin
        rw [hm]
        exact hwrapper x (hw.declares.native x hi) hbound

end Program

/-! ## When modules are imported first -/

theorem importsInOrder_firsts {names : List StdString} : ImportsInOrder (Run.firsts names) ↔ ImportsInOrder names := by
  have himported : Run.EachAfter ImportedBefore (Run.firsts names) ↔ Run.EachAfter ImportedBefore names := by
    apply Run.eachAfter_firsts
    intro before before' name hsub h hname
    obtain ⟨dotted, hd, hin, hm⟩ := h hname
    exact ⟨dotted, hsub hd, hin, hm⟩
  constructor
  · intro h
    exact ⟨fun name hname => h.notModule name (Run.mem_firsts.2 hname), himported.1 h.imported⟩
  · intro h
    exact ⟨fun name hname => h.notModule name (Run.mem_firsts.1 hname), himported.2 h.imported⟩

theorem recording_writeScript (script out : List Statement) :
    recording.writeScript script out = .ok (out ++ script) := by
  have hwrite := recording_writeAll script out
  simp only [Writer.writeScript, recording, bind, Except.bind] at hwrite ⊢
  rw [hwrite]

section Imports

variable {store : CAFStore} {formatDouble : Double → StdString} {libDir : StdString} {h : Heap} {tc : TestCase}

/-- **Native modules are imported first if and only if** the names of functions come in order, or a string has a
negative `char`, so that nothing is written. -/
theorem importsNativeModules_iff (hw : WellFormed h tc) (hcalled : store.HasCalled tc)
    (hvalues : store.HasFunctionValues h tc) : ImportsNativeModules store formatDouble libDir h tc ↔
      (NoNegativeChar h tc → ImportsInOrder (namesOf store h tc)) := by
  obtain ⟨Fs, S, h₁⟩ := walkSteps_exists hw
  obtain ⟨script, hscript⟩ := synthesis_script h₁ hcalled
  have hdepth : ∀ fuel, h.length + 1 ≤ fuel → DepthLE fuel Fs := fun fuel hfuel => depthLE_of_walk h₁ hfuel
  have hgenerated : Generated script := (hscript.written _ (hdepth _ (Nat.le_refl _))).generated
  have hwritable : (∃ p, (programWriter (.nodejs libDir) store formatDouble).writeAll script
      ⟨(Dialect.nodejs libDir).prologue, []⟩ = .ok p) ↔ NoNegativeChar h tc := by
    rw [writeAll_ok_iff, hscript.literals, writable_iff h₁]
    exact and_iff_left hvalues
  have hfirst : ∀ p, (programWriter (.nodejs libDir) store formatDouble).writeAll script
      ⟨(Dialect.nodejs libDir).prologue, []⟩ = .ok p →
        (ImportsFirst script p.statements ↔ ImportsInOrder (namesOf store h tc)) := by
    intro p hp
    rw [importsFirst_iff hscript.wellScoped hgenerated hp, ← importsInOrder_firsts, firsts_names h₁ hscript,
      importsInOrder_firsts]
  have hcode : ∀ fuel out, h.length + 1 ≤ fuel → ((∃ b, TestCaseSynthesiser.synthesis
      (nodejsSynthesisBuilder store formatDouble libDir) store h fuel tc (.new ⟨[], []⟩) = .ok b ∧ b.output = out) ↔
        ∃ p, (programWriter (.nodejs libDir) store formatDouble).writeAll script
          ⟨(Dialect.nodejs libDir).prologue, []⟩ = .ok p ∧ p.nodejsOutput = out) :=
    fun fuel out hfuel => synthesis_eq_ok_iff (nodejs_follows libDir) hscript (hdepth fuel hfuel)
  constructor
  · rintro ⟨N, hN⟩ hchar
    obtain ⟨p, hp⟩ := hwritable.2 hchar
    have hfuel := Nat.le_max_right N (h.length + 1)
    obtain ⟨b, hb, -⟩ := (hcode _ _ hfuel).2 ⟨p, hp, rfl⟩
    obtain ⟨script', program, hall, hprogram, -, hfirst'⟩ := hN _ (Nat.le_max_left N (h.length + 1)) b hb
    -- there is only one script, and only one program
    have hscript' : script' = script := by
      have he := (hscript.written _ (hdepth _ hfuel)).synthesis recording []
      rw [hall recording [], recording_writeScript, recording_writeScript] at he
      exact Except.ok.inj he
    obtain ⟨p', hp', hout⟩ :=
      (synthesis_eq_ok_iff (Follows.refl _) hscript (hdepth _ hfuel)).1 ⟨program, hprogram, rfl⟩
    rw [hp] at hp'
    cases hp'
    rw [hscript', ← hout] at hfirst'
    exact (hfirst p hp).1 hfirst'
  · intro horder
    refine ⟨h.length + 1, ?_⟩
    intro fuel hfuel b hb
    obtain ⟨p, hp, hout⟩ := (hcode fuel b.output hfuel).1 ⟨b, hb, rfl⟩
    obtain ⟨program, hprogram, hout'⟩ :=
      (synthesis_eq_ok_iff (Follows.refl _) hscript (hdepth fuel hfuel)).2 ⟨p, hp, rfl⟩
    refine ⟨script, program, (hscript.written fuel (hdepth fuel hfuel)).synthesis, hprogram, ?_, ?_⟩
    · rw [hout', ← hout]
      rfl
    · rw [hout']
      exact (hfirst p hp).2 (horder (hwritable.1 ⟨p, hp⟩))

/-- A store with one function, ... -/
def nameStore (name : StdString) : CAFStore := CAFStore.new.addFunction ⟨9, name⟩

/-- ... and a call of it. -/
def nameCase : TestCase := ⟨0, [⟨9, none, false, []⟩]⟩

theorem name_wellFormed : WellFormed [] nameCase := by
  intro i call hcall a ha
  match i, hcall with
  | 0, hcall =>
    cases hcall
    cases ha

theorem name_hasCalled {name : StdString} (hname : (nameStore name).getFunction 9 = .ok ⟨9, name⟩) :
    (nameStore name).HasCalled nameCase := by
  intro call hcall
  rw [List.mem_singleton.1 hcall]
  exact ⟨⟨9, name⟩, hname⟩

theorem name_hasFunctionValues (name : StdString) : (nameStore name).HasFunctionValues [] nameCase := by
  intro a id _ hid
  cases hid

/-- `fs` is imported for `fs.close`. -/
theorem close_imports : ImportsNativeModules (nameStore (text "fs.close")) (fun _ => []) (text "lib") [] nameCase := by
  refine (importsNativeModules_iff name_wellFormed (name_hasCalled rfl) (name_hasFunctionValues _)).2 fun _ => ?_
  have hnames : namesOf (nameStore (text "fs.close")) [] nameCase = [] ++ [text "fs.close"] := rfl
  rw [hnames]
  constructor
  · decide
  · rw [Run.eachAfter_concat]
    refine ⟨Run.eachAfter_nil, fun hnative => ?_⟩
    exact absurd hnative (by decide)

/-- `events` is not imported for `events`, and the import for `module.Module` declares `module` again. -/
theorem events_not_imported : WellFormed [] nameCase ∧
    ((nameStore (text "events")).HasCalled nameCase ∧ (nameStore (text "events")).HasFunctionValues [] nameCase ∧
      ¬ ImportsNativeModules (nameStore (text "events")) (fun _ => []) (text "lib") [] nameCase) ∧
    (nameStore (text "module.Module")).HasCalled nameCase ∧
      (nameStore (text "module.Module")).HasFunctionValues [] nameCase ∧
      ¬ ImportsNativeModules (nameStore (text "module.Module")) (fun _ => []) (text "lib") [] nameCase := by
  refine ⟨name_wellFormed, ⟨name_hasCalled rfl, name_hasFunctionValues _, ?_⟩, name_hasCalled rfl,
    name_hasFunctionValues _, ?_⟩
  · rintro ⟨N, hN⟩
    obtain ⟨script, program, -, hprogram, -, hfirst⟩ := hN (N + 1) (Nat.le_succ N) _ rfl
    cases hprogram
    have hrequired := hfirst.required [.init (text "lib")] (.tryCall (varName 0) ⟨.plain, text "events", []⟩) [] rfl
    have hbefore := hrequired (text "events") rfl (by decide)
    simp at hbefore
  · rintro ⟨N, hN⟩
    obtain ⟨script, program, -, hprogram, -, hfirst⟩ := hN (N + 1) (Nat.le_succ N) _ rfl
    cases hprogram
    have hmodule : text "module" ∈ wrapperNames := by decide
    exact hfirst.unbound (text "module") List.mem_cons_self hmodule

end Imports

end Caf
