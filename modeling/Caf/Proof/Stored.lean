import Caf.Proof.Calls
import Caf.Spec.Stored

/-!
# Storing keeps the script

A test case that was stored and loaded walks to the same forests, but for a missing `this`, which
has become Undefined, and the NaNs, which are written alike. A constructor call does not use its
receiver. So the scripts have the same effects once the plain calls have their `this`.

* `sameScript_of_walks`: scripts with the same effects, by their forests.
* `storesScriptOf_fillPlainThis`: what storing keeps.
* `script_not_kept`: what it does not keep.
-/

namespace Caf

open ObjectGraph

variable {B : ScriptBuilder} {store : CAFStore} {formatDouble : Double → StdString} {h h' : Heap} {tc tc' : TestCase}
  {Fs Gs : List (Step CallOp (Forest Literal))} {S T : List Referent} {fuel : ℕ} {script : List Statement}

/-! ## Code -/

/-- Synthesis finds every function that is called. -/
theorem hasCalled_of_synthesisCalls {W : Type} {w : Writer W} {calls : List FunctionCall} {b b' : SynthesisBuilder W}
    (hs : TestCaseSynthesiser.synthesisCalls w store h fuel calls b = .ok b') :
    ∀ call ∈ calls, ∃ f, store.getFunction call.funcId = .ok f := by
  induction calls generalizing b with
  | nil => simp
  | cons call calls ih =>
    simp only [TestCaseSynthesiser.synthesisCalls, TestCaseSynthesiser.synthesisCall, bind_eq_ok] at hs
    obtain ⟨b₁, ⟨r₁, -, r₂, -, f, hf, -⟩, hrest⟩ := hs
    intro c hc
    rcases List.mem_cons.1 hc with rfl | hc
    · exact ⟨f, hf⟩
    · exact ih hrest c hc

theorem hasCalled_of_synthesis {W : Type} {w : Writer W} {b b' : SynthesisBuilder W}
    (hs : TestCaseSynthesiser.synthesis w store h fuel tc b = .ok b') : store.HasCalled tc := by
  simp only [TestCaseSynthesiser.synthesis, bind_eq_ok] at hs
  obtain ⟨out, -, b₁, hcalls, -⟩ := hs
  exact hasCalled_of_synthesisCalls hcalls

/-- The code is that of the program. -/
theorem code_eq_ok_iff (hscript : Script store h tc Fs script) (hf : DepthLE fuel Fs) {code : StdString} :
    B.code store formatDouble h fuel tc = .ok code ↔
      ∃ p, (programWriter B.dialect store formatDouble).writeAll script ⟨B.dialect.prologue, []⟩ = .ok p ∧
        p.code = code := by
  cases B with
  | javaScript =>
    rw [ScriptBuilder.code, map_eq_ok]
    exact synthesis_eq_ok_iff javaScript_follows hscript hf
  | nodejs libDir =>
    rw [ScriptBuilder.code, map_eq_ok]
    constructor
    · rintro ⟨b, hb, rfl⟩
      obtain ⟨p, hp, hout⟩ := (synthesis_eq_ok_iff (nodejs_follows libDir) hscript hf).1 ⟨b, hb, rfl⟩
      exact ⟨p, hp, congrArg NodejsOutput.code hout⟩
    · rintro ⟨p, hp, rfl⟩
      obtain ⟨b, hb, hout⟩ := (synthesis_eq_ok_iff (nodejs_follows libDir) hscript hf).2 ⟨p, hp, rfl⟩
      exact ⟨b, hb, congrArg NodejsOutput.code hout⟩

theorem program_eq_ok_iff (hscript : Script store h tc Fs script) (hf : DepthLE fuel Fs) {p : JsProgram} :
    B.program store formatDouble h fuel tc = .ok p ↔
      (programWriter B.dialect store formatDouble).writeAll script ⟨B.dialect.prologue, []⟩ = .ok p := by
  rw [ScriptBuilder.program, map_eq_ok]
  refine (synthesis_eq_ok_iff (Follows.refl _) hscript hf).trans ?_
  simp

/-- **When there is code.** -/
theorem code_ok_iff (h₁ : WalkSteps h.graph 0 [] tc.steps Fs S) (hf : DepthLE fuel Fs) :
    (∃ code, B.code store formatDouble h fuel tc = .ok code) ↔ store.HasCalled tc ∧
      ∀ st ∈ Fs, st.head.All (Literal.Writable store) ∧ st.args.All (Literal.Writable store) := by
  constructor
  · rintro ⟨code, hcode⟩
    have hcalled : store.HasCalled tc := by
      cases B with
      | javaScript =>
        rw [ScriptBuilder.code, map_eq_ok] at hcode
        obtain ⟨b, hb, -⟩ := hcode
        exact hasCalled_of_synthesis hb
      | nodejs libDir =>
        rw [ScriptBuilder.code, map_eq_ok] at hcode
        obtain ⟨b, hb, -⟩ := hcode
        exact hasCalled_of_synthesis hb
    obtain ⟨script, hscript⟩ := synthesis_script h₁ hcalled
    obtain ⟨p, hp, -⟩ := (code_eq_ok_iff hscript hf).1 hcode
    exact ⟨hcalled, (hscript.literals _).1 (writeAll_ok_iff.1 ⟨p, hp⟩)⟩
  · rintro ⟨hcalled, hwritable⟩
    obtain ⟨script, hscript⟩ := synthesis_script h₁ hcalled
    obtain ⟨p, hp⟩ := (@writeAll_ok_iff store formatDouble script ⟨B.dialect.prologue, []⟩ B.dialect).2
      ((hscript.literals _).2 hwritable)
    exact ⟨p.code, (code_eq_ok_iff hscript hf).2 ⟨p, hp, rfl⟩⟩

/-- The prologue starts the library. -/
theorem run_prologue {σ V : Type} (E : Engine σ V) (s : σ) :
    ∃ s', E.run B.dialect.prologue (.start s) = some (.start s') := by
  cases B with
  | javaScript => exact ⟨s, rfl⟩
  | nodejs libDir => exact ⟨E.init libDir s, rfl⟩

/-- **Scripts with the same effects.** -/
theorem sameScript_of_walks (h₁ : WalkSteps h.graph 0 [] tc.steps Fs S) (h₂ : WalkSteps h'.graph 0 [] tc'.steps Gs T)
    (hcalled : store.HasCalled tc ↔ store.HasCalled tc')
    (hwritable : (∀ st ∈ Fs, st.head.All (Literal.Writable store) ∧ st.args.All (Literal.Writable store)) ↔
      ∀ st ∈ Gs, st.head.All (Literal.Writable store) ∧ st.args.All (Literal.Writable store))
    (hrun : ∀ {σ V : Type} (E : Engine σ V) (r : Realm σ V) {es : List (Event CallOp (Realm σ V) V)}
      {P : List V} {r' : Realm σ V}, let H := E.host B.dialect store formatDouble
      runSteps H.interp (H.perform store) Fs [] r = some (es, P, r') →
        ∃ es', runSteps H.interp (H.perform store) Gs [] r = some (es', P, r')) :
    SameScript B store formatDouble h tc h' tc' := by
  refine ⟨max (h.length + 1) (h'.length + 1), fun fuel hfuel => ?_⟩
  have hf₁ : DepthLE fuel Fs := depthLE_of_walk h₁ (Nat.le_trans (Nat.le_max_left _ _) hfuel)
  have hf₂ : DepthLE fuel Gs := depthLE_of_walk h₂ (Nat.le_trans (Nat.le_max_right _ _) hfuel)
  have hok₁ := @code_ok_iff B store formatDouble _ _ _ _ _ h₁ hf₁
  have hok₂ := @code_ok_iff B store formatDouble _ _ _ _ _ h₂ hf₂
  cases hcode : B.code store formatDouble h fuel tc with
  | error e =>
    refine .inl ⟨e, ?_⟩
    cases hcode' : B.code store formatDouble h' fuel tc' with
    | error e' => exact ⟨e', rfl, rfl⟩
    | ok code' =>
      obtain ⟨hc, hw⟩ := hok₂.1 ⟨code', hcode'⟩
      obtain ⟨code, hok⟩ := hok₁.2 ⟨hcalled.2 hc, hwritable.2 hw⟩
      rw [hcode] at hok
      cases hok
  | ok code =>
    obtain ⟨hc, hw⟩ := hok₁.1 ⟨code, hcode⟩
    obtain ⟨code', hcode'⟩ := hok₂.2 ⟨hcalled.1 hc, hwritable.1 hw⟩
    obtain ⟨script, hscript⟩ := synthesis_script h₁ hc
    obtain ⟨script', hscript'⟩ := synthesis_script h₂ (hcalled.1 hc)
    obtain ⟨p, hp, rfl⟩ := (code_eq_ok_iff hscript hf₁).1 hcode
    obtain ⟨p', hp', rfl⟩ := (code_eq_ok_iff hscript' hf₂).1 hcode'
    refine .inr ⟨p, p', (program_eq_ok_iff hscript hf₁).2 hp, rfl, (program_eq_ok_iff hscript' hf₂).2 hp', hcode',
      fun E s => ?_⟩
    obtain ⟨s', hbegin⟩ := @run_prologue B _ _ E s
    obtain ⟨events, P, r, hr, -⟩ := h₁.run_start (E.host B.dialect store formatDouble).interp
      ((E.host B.dialect store formatDouble).perform store) (Realm.start s')
    obtain ⟨events', hr'⟩ := hrun E (Realm.start s') hr
    obtain ⟨x, hx, hxr, -⟩ := run_writtenProgram hscript hp hbegin hr
    obtain ⟨x', hx', hxr', -⟩ := run_writtenProgram hscript' hp' hbegin hr'
    exact ⟨x, x', hx, hx', hxr.trans hxr'.symm⟩

/-! ## Filling in `this` -/

/-- Fill in the `this` of a step, unless it is a constructor call. -/
def fillPlainStep (st : Step CallOp (Forest Literal)) : Step CallOp (Forest Literal) :=
  if st.op.2 then st else fillStep st

theorem walk_fillPlainThis {i : ℕ} {S S' : List Referent} {calls : List FunctionCall}
    (hw : WalkSteps h.graph i S (calls.map FunctionCall.step) Fs S') :
    WalkSteps h.withUndefined.graph i S ((calls.map (FunctionCall.fillPlainThis h.length)).map FunctionCall.step)
      (Fs.map fillPlainStep) S' := by
  induction calls generalizing i S Fs with
  | nil =>
    cases hw
    exact .nil
  | cons call calls ih =>
    cases hw with
    | @cons _ _ op as bs F₁ S₁ F₂ S₂ _ Fs _ h₁ h₂ h₃ =>
      have h₂' := h₂.transfer h.withUndefined_graph
      by_cases hc : call.ctor = true
      · have hcall : call.fillPlainThis h.length = call := if_pos hc
        have hst : fillPlainStep ⟨(call.funcId, call.ctor), F₁, F₂⟩ = ⟨(call.funcId, call.ctor), F₁, F₂⟩ := if_pos hc
        simp only [List.map_cons, hcall, hst]
        exact .cons (h₁.transfer h.withUndefined_graph) h₂' (ih h₃)
      · have hcall : call.fillPlainThis h.length = call.fillThis h.length := if_neg hc
        have hst : fillPlainStep ⟨(call.funcId, call.ctor), F₁, F₂⟩ = fillStep ⟨(call.funcId, call.ctor), F₁, F₂⟩ :=
          if_neg hc
        simp only [List.map_cons, hcall, hst]
        exact .cons (walk_fillCall h₁) h₂' (ih h₃)

theorem all_fillThis {P : Literal → Prop} (hP : P .undefined) (F : Forest Literal) : (fillThis F).All P ↔ F.All P := by
  cases F with
  | nil => simp [fillThis, Forest.All, hP]
  | _ => rfl

theorem all_fillPlainStep {P : Literal → Prop} (hP : P .undefined) (st : Step CallOp (Forest Literal)) :
    (fillPlainStep st).head.All P ∧ (fillPlainStep st).args.All P ↔ st.head.All P ∧ st.args.All P := by
  unfold fillPlainStep
  split
  · rfl
  · exact and_congr_left fun _ => all_fillThis hP st.head

section Run

variable {L σ V : Type} {I : Interp Literal σ V} {perform : CallOp → List V → List V → σ → V × σ}

/-- A missing `this` is filled in without an effect. -/
theorem run_fillThis (hu : ∀ s, (I.leaf .undefined s).2 = s) {F : Forest Literal} {pool pool' hs : List V} {s s' : σ}
    (hr : F.run I none pool s = some (hs, pool', s')) :
    ∃ hs', (fillThis F).run I none pool s = some (hs', pool', s') := by
  cases F with
  | nil =>
    obtain ⟨-, rfl, rfl⟩ := Forest.run_nil_eq hr
    refine ⟨[(I.leaf .undefined s').1], ?_⟩
    simp only [fillThis, Forest.run, Interp.pushInto, hu, Option.bind_eq_bind, Option.bind_some, Option.pure_def]
  | _ => exact ⟨hs, hr⟩

/-- **Constructor calls do not see whether `this` is filled in**, on a host whose constructors do not use it. -/
theorem runSteps_fillPlain (hu : ∀ s, (I.leaf .undefined s).2 = s)
    (hc : ∀ op hs hs' vs s, op.2 = true → perform op hs vs s = perform op hs' vs s) {pool pool' : List V} {s s' : σ}
    {es : List (Event CallOp σ V)}
    (hr : runSteps I perform (Fs.map fillPlainStep) pool s = some (es, pool', s')) :
    ∃ es', runSteps I perform (Fs.map fillStep) pool s = some (es', pool', s') := by
  induction Fs generalizing pool s es with
  | nil => exact ⟨es, hr⟩
  | cons st Fs ih =>
    rw [List.map_cons] at hr
    obtain ⟨hs, p₁, s₁, vs, p₂, s₂, es₁, h₁, h₂, -, h₃⟩ := runSteps_cons_eq hr
    obtain ⟨es₂, h₃'⟩ := ih h₃
    by_cases hop : st.op.2 = true
    · have hst : fillPlainStep st = st := if_pos hop
      rw [hst] at h₁ h₂ h₃'
      obtain ⟨hs', h₁'⟩ := run_fillThis hu h₁
      rw [hc st.op hs hs' vs s₂ hop] at h₃'
      exact ⟨_, @runSteps_cons _ _ _ _ _ _ _ _ _ _ _ _ (fillStep st) _ _ _ _ _ _ _ _ h₁' h₂ rfl h₃'⟩
    · have hst : fillPlainStep st = fillStep st := if_neg hop
      rw [hst] at h₁ h₂ h₃'
      exact ⟨_, runSteps_cons h₁ h₂ rfl h₃'⟩

end Run

/-! ## Loading -/

/-- The literals of the pool are written like the ones they stand for. -/
theorem writeLiteralValue_pooled (l : Literal) :
    writeLiteralValue store formatDouble l.pooled = writeLiteralValue store formatDouble l := by
  cases l with
  | float x =>
    by_cases hx : x.isNaN = true
    · rw [Literal.pooled_nan hx]
      simp only [writeLiteralValue, hx, if_true]
      rfl
    · rw [Literal.pooled_float (by simpa using hx)]
  | _ => rfl

theorem host_pooled {σ V : Type} (E : Engine σ V) (D : Dialect) (l : Literal) (r : Realm σ V) :
    (E.host D store formatDouble).literal l.pooled r = (E.host D store formatDouble).literal l r := by
  have htext : literalText store formatDouble l.pooled = literalText store formatDouble l := by
    simp only [literalText, writeLiteralValue_pooled]
  have hreq : ∀ literal, r.requireForLiteral E D l.pooled literal = r.requireForLiteral E D l literal := by
    intro literal
    cases l with
    | float x =>
      simp only [Literal.pooled]
      split <;> rfl
    | _ => rfl
  simp only [Engine.host, htext, hreq]

theorem writable_pooled (l : Literal) : l.pooled.Writable store ↔ l.Writable store := by
  rw [← @writeLiteralValue_ok_iff store (fun _ => []) l, ← @writeLiteralValue_ok_iff store (fun _ => []) l.pooled,
    writeLiteralValue_pooled]

/-- **Storing keeps the script**, once the plain calls without `this` have Undefined for it. -/
theorem storesScriptOf_fillPlainThis (B : ScriptBuilder) (store : CAFStore) (formatDouble : Double → StdString)
    (hw : WellFormed h tc) (hf : FitsU32 h tc) (hi : NoInfinity h tc) :
    StoresScriptOf B store formatDouble h tc h.withUndefined (tc.fillPlainThis h.length) := by
  obtain ⟨Fs, S, h₁⟩ := walkSteps_exists hw
  obtain ⟨c, tr, hs, -, -⟩ := serialize_walk h₁
  refine ⟨_, hs, fun junk fuel hfuel => ?_⟩
  obtain ⟨tc', d, T, hd, hb⟩ := exists_deserialized hf hi.admitted h₁ ObjectPool.new_ok
    (show (⟨_, junk⟩ : MemoryInputStream).data = encodeTestCase tc.storeRootEntryIndex (Fs.map fillStep) ++ [] from
      (List.append_nil _).symm) hfuel
  refine ⟨tc', d, hd, ?_⟩
  have h₂ := hb.walk
  rw [LiteralView.exact_heap] at h₂
  have hundef : Literal.Writable store .undefined := ⟨by simp, by simp⟩
  have hfilled := walk_fillPlainThis h₁
  refine sameScript_of_walks hfilled h₂ ?_ ?_ fun E r es P r' hr => ?_
  · -- the calls have the same functions
    have hids : (tc.fillPlainThis h.length).calls.map FunctionCall.funcId = tc'.calls.map FunctionCall.funcId := by
      have hcorr := (corresponds_of_walks exact_judges hw h₁ hb.walk hb.hasThis hb.root.symm).calls
      have hsame : tc.calls.map FunctionCall.funcId = tc'.calls.map FunctionCall.funcId := by
        refine List.forall₂_eq_eq_eq ▸ ?_
        rw [List.forall₂_map_left_iff, List.forall₂_map_right_iff]
        exact hcorr.imp fun _ _ hcall => hcall.funcId
      rw [← hsame, TestCase.fillPlainThis, List.map_map]
      refine List.map_congr_left fun call _ => ?_
      simp only [Function.comp, FunctionCall.fillPlainThis]
      split <;> rfl
    have hiff : ∀ t : TestCase, store.HasCalled t ↔
        ∀ id ∈ t.calls.map FunctionCall.funcId, ∃ f, store.getFunction id = .ok f := fun t => by
      simp [CAFStore.HasCalled]
    rw [hiff, hiff, hids]
  · -- and the leaves can be written alike
    have hmap : ∀ F : Forest Literal, (F.map Literal.pooled).All (Literal.Writable store) ↔
        F.All (Literal.Writable store) := fun F => by
      rw [Forest.all_map]
      simp only [writable_pooled]
    simp only [List.forall_mem_map, Step.map, LiteralView.forest, LiteralView.exact, hmap, fillStep,
      all_fillThis hundef]
    exact forall₂_congr fun st _ => all_fillPlainStep hundef st
  · obtain ⟨es', hr'⟩ := runSteps_fillPlain (fun r => rfl) (fun op hs hs' vs r hop => by
      simp only [Host.perform, Engine.host, writtenCall, hop, if_true]) hr
    refine ⟨es', ?_⟩
    rw [show (Fs.map fillStep).map (Step.map LiteralView.exact.forest) =
      (Fs.map fillStep).map (Step.map (Forest.map Literal.pooled)) from rfl,
      runSteps_map _ (fun l r => host_pooled E _ l r) rfl rfl]
    exact hr'

theorem sample_storesScriptOf :
    StoresScriptOf (.nodejs (text "lib")) sampleStore (fun _ => []) sampleHeap sampleCase sampleHeap.withUndefined
      (sampleCase.fillPlainThis sampleHeap.length) :=
  storesScriptOf_fillPlainThis _ sampleStore _ sample_wellFormed sample_fitsU32 sample_noInfinity

/-- A call of `f` without `this` is loaded as one with the receiver Undefined: `f()` becomes `f.apply(_0)`. -/
theorem script_not_kept : WellFormed [] oneCall ∧ FitsU32 [] oneCall ∧ NoInfinity [] oneCall ∧
    ¬ StoresScriptOf .javaScript sampleStore (fun _ => []) [] oneCall [] oneCall := by
  have hnone : ∀ a, ¬ oneCall.Reaches [] a := by
    rintro a ⟨call, hcall, r, hr, -⟩
    rw [List.mem_singleton.1 hcall] at hr
    cases hr
  refine ⟨oneCall_wellFormed, ⟨by decide, by decide, by decide, fun a _ ha => absurd ha (hnone a),
    fun a _ ha => absurd ha (hnone a), fun arrays _ ha => ?_⟩, fun a _ ha => absurd ha (hnone a), ?_⟩
  · cases arrays with
    | nil => decide
    | cons a arrays => exact absurd (ha a List.mem_cons_self).1 (hnone a)
  · rintro ⟨out, hout, hload⟩
    cases hout
    obtain ⟨tc', d, hd, N, hN⟩ := hload (fun _ => 0) 100 (by decide)
    cases hd
    rcases hN (N + 1) (Nat.le_succ N) with ⟨e, e', he, -⟩ | ⟨p, p', hp, -, hp', -, hrun⟩
    · cases he
    · cases hp
      cases hp'
      obtain ⟨x, x', hx, hx', hr⟩ := hrun smallEngine []
      cases hx
      cases hx'
      have hlog := congrArg Realm.log hr
      cases hlog

end Caf
