import Caf.Proof.JavaScript

/-!
# The calls of a script

A call with a receiver is written as `f.apply(receiver, a, b)`, where `apply` has two parameters
only. So the function is invoked with the elements of `a`, if it is invoked at all.

* `evalCall_log`: what a written call invokes.
* `exists_program`: the program of a test case and its run.
* `makesCalls_iff`: when the invocations are those that the test case asks for.
-/

namespace Caf

open ObjectGraph

section Log

variable {σ V : Type} {E : Engine σ V} {D : Dialect} {store : CAFStore} {formatDouble : Double → StdString}
  {script : List Statement} {e e' : Execution (Realm σ V) V}

/-- The invocations of a call expression. -/
def Engine.invocations (E : Engine σ V) (c : JsCall V) (s : σ) : List (Invocation V) :=
  match c.form, c.args with
  | .plain, args => [⟨c.functionName, false, none, args⟩]
  | .new, args => [⟨c.functionName, true, none, args⟩]
  | .apply, [] => [⟨c.functionName, false, some E.undefined, []⟩]
  | .apply, [thisArg] => [⟨c.functionName, false, some thisArg, []⟩]
  | .apply, thisArg :: argsArray :: _ =>
    ((E.createListFromArrayLike argsArray s).1.map fun args => ⟨c.functionName, false, some thisArg, args⟩).toList

theorem evalCall_log (c : JsCall V) (r : Realm σ V) :
    (E.evalCall c r).2.log = r.log ++ E.invocations c r.objects := by
  obtain ⟨form, f, args⟩ := c
  match form, args with
  | .plain, args => rfl
  | .new, args => rfl
  | .apply, [] => rfl
  | .apply, [thisArg] => rfl
  | .apply, thisArg :: argsArray :: _ =>
    simp only [Engine.evalCall, Engine.invocations]
    rcases E.createListFromArrayLike argsArray r.objects with ⟨- | args, s⟩
    · simp
    · rfl

theorem length_invocations_le (c : JsCall V) (s : σ) : (E.invocations c s).length ≤ 1 := by
  obtain ⟨form, f, args⟩ := c
  match form, args with
  | .plain, args => exact Nat.le_refl 1
  | .new, args => exact Nat.le_refl 1
  | .apply, [] => exact Nat.le_refl 1
  | .apply, [thisArg] => exact Nat.le_refl 1
  | .apply, thisArg :: argsArray :: _ => exact Option.length_toList_le

/-- The invocations of an event. -/
def made (E : Engine σ V) (D : Dialect) (e : Event (StdString × Bool) (Realm σ V) V) : List (Invocation V) :=
  E.invocations (writtenCall e.op.1 e.op.2 e.head e.args) (e.before.requireFor E D e.op.1).objects

theorem length_made_le (event : Event (StdString × Bool) (Realm σ V) V) : (made E D event).length ≤ 1 :=
  length_invocations_le _ _

theorem Realm.requireFor_log (name : StdString) (r : Realm σ V) : (r.requireFor E D name).log = r.log := by
  unfold Realm.requireFor
  cases D.moduleOf name with
  | none => rfl
  | some m => dsimp only; split <;> rfl

/-- Only calls are logged. -/
theorem step_log {st : Statement} (h : (E.host D store formatDouble).step st e = some e') :
    ∃ events, e'.events = e.events ++ events ∧ e'.host.log = e.host.log ++ events.flatMap (made E D) := by
  cases st with
  | variableDef x l =>
    obtain ⟨-, rfl⟩ := Host.declare_eq h
    refine ⟨[], by simp, ?_⟩
    cases l with
    | function id => simp [Engine.host, Realm.requireForLiteral, Realm.requireFor_log]
    | _ => simp [Engine.host, Realm.requireForLiteral]
  | emptyArrayVariableDef x =>
    obtain ⟨-, rfl⟩ := Host.declare_eq h
    exact ⟨[], by simp, by simp [Engine.host]⟩
  | arrayPush x y =>
    simp only [Host.step, Option.bind_eq_bind, Option.bind_eq_some_iff, Option.pure_def, Option.some.injEq] at h
    obtain ⟨a, -, v, -, rfl⟩ := h
    exact ⟨[], by simp, by simp [Engine.host]⟩
  | functionCall ret f ctor recv args =>
    simp only [Host.step, Option.bind_eq_bind, Option.bind_eq_some_iff] at h
    obtain ⟨hs, -, vs, -, h⟩ := h
    obtain ⟨-, rfl⟩ := Host.declare_eq h
    refine ⟨_, rfl, ?_⟩
    simp [Engine.host, evalCall_log, Realm.requireFor_log, made]

/-- **The log of a script.** -/
theorem run_log (h : (E.host D store formatDouble).run script e = some e') :
    ∃ events, e'.events = e.events ++ events ∧ e'.host.log = e.host.log ++ events.flatMap (made E D) := by
  induction script generalizing e with
  | nil =>
    cases h
    exact ⟨[], by simp, by simp⟩
  | cons st script ih =>
    simp only [Host.run, Option.bind_eq_bind, Option.bind_eq_some_iff] at h
    obtain ⟨e₁, hst, hrun⟩ := h
    obtain ⟨es₁, he₁, hl₁⟩ := step_log hst
    obtain ⟨es₂, he₂, hl₂⟩ := ih hrun
    exact ⟨es₁ ++ es₂, by rw [he₂, he₁, List.append_assoc], by rw [hl₂, hl₁, List.flatMap_append, List.append_assoc]⟩

end Log

/-! ## The program of a test case -/

section Program

variable {σ V : Type} {E : Engine σ V} {D : Dialect} {store : CAFStore} {formatDouble : Double → StdString}
  {h : Heap} {tc : TestCase} {Fs : List (Step CallOp (Forest Literal))} {S : List Referent} {script : List Statement}
  {fuel : ℕ}

/-- The literals that occur can be written if the script can. -/
theorem writable_iff (h₁ : WalkSteps h.graph 0 [] tc.steps Fs S) :
    (∀ st ∈ Fs, st.head.All (Literal.Writable store) ∧ st.args.All (Literal.Writable store)) ↔
      NoNegativeChar h tc ∧ store.HasFunctionValues h tc := by
  rw [h₁.all_iff]
  refine ⟨fun hl => ⟨fun a s ha hs => ?_, fun a id ha hid => ?_⟩, fun ⟨hs, hf⟩ st hst a ha b l hr hb => ?_⟩
  · obtain ⟨call, hcall, r, hr, hra⟩ := ha
    exact (hl _ (List.mem_map_of_mem hcall) r hr a _ hra (Heap.graph_literal.2 hs)).1 s rfl
  · obtain ⟨call, hcall, r, hr, hra⟩ := ha
    exact (hl _ (List.mem_map_of_mem hcall) r hr a _ hra (Heap.graph_literal.2 hid)).2 id rfl
  · obtain ⟨call, hcall, rfl⟩ := List.mem_map.1 hst
    have hb' := Heap.graph_literal.1 hb
    refine ⟨?_, ?_⟩
    · rintro s rfl
      exact hs b s ⟨call, hcall, a, ha, hr⟩ hb'
    · rintro id rfl
      exact hf b id ⟨call, hcall, a, ha, hr⟩ hb'

/-- The script as a program. -/
theorem writeScript_program : (programWriter D store formatDouble).writeScript script .empty =
    (programWriter D store formatDouble).writeAll script ⟨D.prologue, []⟩ := by
  simp only [Writer.writeScript, bind, Except.bind]
  simp only [programWriter, JsProgram.empty, List.nil_append]
  cases Writer.writeAll _ script _ <;> rfl

/-- **There is code if there is a program**, for every builder whose code is that of a program. -/
theorem synthesis_eq_ok_iff {W : Type} {w : Writer W} {f : JsProgram → W} {out : W}
    (hfol : Follows w (programWriter D store formatDouble) f) (hscript : Script store h tc Fs script)
    (hf : DepthLE fuel Fs) :
    (∃ b, TestCaseSynthesiser.synthesis w store h fuel tc (.new (f .empty)) = .ok b ∧ b.output = out) ↔
      ∃ p, (programWriter D store formatDouble).writeAll script ⟨D.prologue, []⟩ = .ok p ∧ f p = out := by
  have hs := (hscript.written fuel hf).synthesis w (f .empty)
  rw [hfol.writeScript, writeScript_program] at hs
  cases hb : TestCaseSynthesiser.synthesis w store h fuel tc (.new (f .empty)) <;>
    cases hp : (programWriter D store formatDouble).writeAll script ⟨D.prologue, []⟩ <;>
    rw [hb, hp] at hs <;> simp_all [Except.map]

/-- **Running the program of a test case.** It starts with the prologue. -/
theorem run_writtenProgram (hscript : Script store h tc Fs script) {p : JsProgram}
    (hp : (programWriter D store formatDouble).writeAll script ⟨D.prologue, []⟩ = .ok p) {s s' : σ}
    (hbegin : E.run D.prologue (.start s) = some (.start s')) {events : List (Event CallOp (Realm σ V) V)}
    {pool : List V} {r : Realm σ V}
    (hr : runSteps (E.host D store formatDouble).interp ((E.host D store formatDouble).perform store) Fs []
      (Realm.start s') = some (events, pool, r)) :
    ∃ e, E.run p.statements (.start s) = some e ∧ e.realm = r ∧
      r.log = (events.map (namedEvent store)).flatMap (made E D) := by
  obtain ⟨e, he, rfl, hev⟩ := hscript.runs (E.host D store formatDouble) _ hr
  obtain ⟨added, hadded, hrun, -⟩ := run_program hp he rfl
  obtain ⟨es, hes, hlog⟩ := run_log he
  refine ⟨e.js, ?_, rfl, ?_⟩
  · rw [hadded]
    exact Engine.run_append hbegin hrun
  · simp only [Execution.start, Realm.start, List.nil_append] at hes hlog
    rw [hlog, ← hes, hev]

end Program

/-! ## The arguments of `apply` -/

section Arguments

variable {σ V : Type} {E : Engine σ V} {store : CAFStore} {formatDouble : Double → StdString} {h : Heap} {tc : TestCase}

/-- The written call invokes what was asked for if its arguments are passed. -/
theorem made_eq_iff (event : Event (StdString × Bool) (Realm σ V) V) (hhead : event.head.length ≤ 1) :
    made E .javaScript event = [requestedInvocation event] ↔ PassesArguments E event := by
  obtain ⟨⟨f, ctor⟩, hs, vs, r, v⟩ := event
  have hreq : r.requireFor E .javaScript f = r := rfl
  unfold made requestedInvocation PassesArguments
  simp only [hreq]
  cases ctor with
  | true => simp [writtenCall, Engine.invocations]
  | false =>
    rcases hs with - | ⟨thisArg, hs⟩
    · simp [writtenCall, Engine.invocations]
    · obtain rfl : hs = [] := List.length_eq_zero_iff.1 (by simp only [List.length_cons] at hhead; omega)
      rcases vs with - | ⟨a, rest⟩
      · simp [writtenCall, Engine.invocations]
      · simp only [writtenCall, Engine.invocations, Bool.false_eq_true, if_false]
        rcases hl : E.createListFromArrayLike a r.objects with ⟨- | args, s⟩
        · simp [hl]
        · simp [hl, eq_comm]

theorem flatMap_eq_map_iff {α β : Type} {f : α → List β} {g : α → β} {l : List α} (hf : ∀ a ∈ l, (f a).length ≤ 1) :
    l.flatMap f = l.map g ↔ ∀ a ∈ l, f a = [g a] := by
  refine ⟨fun he => ?_, fun he => ?_⟩
  · induction l with
    | nil => simp
    | cons a l ih =>
      have hlen : ∀ l' : List α, (∀ b ∈ l', (f b).length ≤ 1) → (l'.flatMap f).length ≤ l'.length := by
        intro l' hl'
        induction l' with
        | nil => exact Nat.le_refl 0
        | cons b l' ih =>
          have := ih fun c hc => hl' c (List.mem_cons_of_mem _ hc)
          have := hl' b List.mem_cons_self
          simp only [List.flatMap_cons, List.length_append, List.length_cons]
          omega
      have hrest := hlen l fun b hb => hf b (List.mem_cons_of_mem _ hb)
      have htotal := congrArg List.length he
      have hone := hf a List.mem_cons_self
      simp only [List.flatMap_cons, List.length_append, List.length_map, List.length_cons] at htotal
      have ha : (f a).length = 1 := by omega
      obtain ⟨b, hb⟩ := List.length_eq_one_iff.1 ha
      simp only [List.flatMap_cons, List.map_cons, hb, List.singleton_append, List.cons.injEq] at he
      intro c hc
      rcases List.mem_cons.1 hc with rfl | hc
      · rw [hb, he.1]
      · exact ih (fun b hb => hf b (List.mem_cons_of_mem _ hb)) he.2 c hc
  · induction l with
    | nil => rfl
    | cons a l ih =>
      rw [List.flatMap_cons, he a List.mem_cons_self, ih (fun b hb => hf b (List.mem_cons_of_mem _ hb))
        fun b hb => he b (List.mem_cons_of_mem _ hb)]
      rfl

/-- **The script makes the calls of the test case if and only if** no string has a negative `char` and every
call passes its arguments. -/
theorem makesCalls_iff {s : σ} (hw : WellFormed h tc) (hcalled : store.HasCalled tc)
    (hvalues : store.HasFunctionValues h tc) : MakesCalls E store formatDouble h tc s ↔
      NoNegativeChar h tc ∧ PassesAllArguments E store formatDouble h tc s := by
  obtain ⟨Fs, S, h₁⟩ := walkSteps_exists hw
  obtain ⟨script, hscript⟩ := synthesis_script h₁ hcalled
  obtain ⟨events, P, r, hrun, -⟩ := h₁.run_start (E.host .javaScript store formatDouble).interp
    ((E.host .javaScript store formatDouble).perform store) (Realm.start s)
  have hdepth : ∀ fuel, h.length + 1 ≤ fuel → DepthLE fuel Fs := fun fuel hfuel => depthLE_of_walk h₁ hfuel
  have heval : ∀ fuel, h.length + 1 ≤ fuel → ∃ st, evalSteps (E.host .javaScript store formatDouble).interp
      ((E.host .javaScript store formatDouble).perform store) h.graph fuel tc.steps
      (EvalState.start (.start s)) = some (events, st) := fun fuel hfuel => by
    obtain ⟨st, he, -⟩ := h₁.eval_eq ResultsBelow.nil (EvalState.start_views _) rfl (hdepth fuel hfuel) hrun
    exact ⟨st, he⟩
  have hwritable : (∃ p, (programWriter .javaScript store formatDouble).writeAll script ⟨[], []⟩ = .ok p) ↔
      NoNegativeChar h tc := by
    rw [writeAll_ok_iff, hscript.literals, writable_iff h₁]
    exact and_iff_left hvalues
  -- the log is what was asked for if the arguments are passed
  have hlog : (events.map (namedEvent store)).flatMap (made E .javaScript) =
      (events.map fun event => requestedInvocation (namedEvent store event)) ↔
        ∀ event ∈ events, PassesArguments E (namedEvent store event) := by
    have hhead : ∀ event ∈ events, (namedEvent store event).head.length ≤ 1 := by
      intro event hevent
      obtain ⟨F, hF, -, hlen, -⟩ := runSteps_shape hrun hevent
      obtain ⟨st, hst, -, hlen', -⟩ := h₁.shape hF
      obtain ⟨call, -, rfl⟩ := List.mem_map.1 hst
      show event.head.length ≤ 1
      rw [hlen, hlen']
      exact Option.length_toList_le
    rw [List.flatMap_map, flatMap_eq_map_iff fun event _ => length_made_le _]
    exact forall₂_congr fun event hevent => made_eq_iff _ (hhead event hevent)
  refine ⟨?_, ?_⟩
  · rintro ⟨N, hN⟩
    obtain ⟨b, program, e, events', st', -, hprogram, -, hrun', heval', hlog'⟩ :=
      hN _ (Nat.le_max_left N (h.length + 1))
    have hfuel := Nat.le_max_right N (h.length + 1)
    obtain ⟨p, hp, hout⟩ := (synthesis_eq_ok_iff (Follows.refl _) hscript (hdepth _ hfuel)).1 ⟨program, hprogram, rfl⟩
    obtain ⟨e₀, he₀, hr₀, hl₀⟩ := run_writtenProgram hscript hp rfl hrun
    obtain ⟨st, he⟩ := heval _ hfuel
    rw [← hout, id, he₀] at hrun'
    rw [he] at heval'
    cases hrun'
    cases heval'
    rw [hr₀, hl₀] at hlog'
    exact ⟨hwritable.1 ⟨p, hp⟩, h.length + 1, fun fuel hfuel =>
      (heval fuel hfuel).elim fun st he => ⟨events, st, he, hlog.1 hlog'⟩⟩
  · rintro ⟨hchar, N, hN⟩
    obtain ⟨events', st', heval', hpass⟩ := hN _ (Nat.le_max_left N (h.length + 1))
    obtain ⟨st, he⟩ := heval _ (Nat.le_max_right N (h.length + 1))
    rw [he] at heval'
    cases heval'
    obtain ⟨p, hp⟩ := hwritable.2 hchar
    obtain ⟨e, he, hr, hl⟩ := run_writtenProgram hscript hp rfl hrun
    refine ⟨h.length + 1, fun fuel hfuel => ?_⟩
    obtain ⟨b, hb, hcode⟩ := (synthesis_eq_ok_iff javaScript_follows hscript (hdepth fuel hfuel)).2 ⟨p, hp, rfl⟩
    obtain ⟨program, hprogram, hout⟩ :=
      (synthesis_eq_ok_iff (Follows.refl _) hscript (hdepth fuel hfuel)).2 ⟨p, hp, rfl⟩
    obtain ⟨st, hst⟩ := heval fuel hfuel
    refine ⟨b, program, e, events, st, hb, hprogram, ?_, ?_, hst, ?_⟩
    · rw [hcode, hout, id]
    · rw [hout, id, he]
    · rw [hr, hl, hlog.2 hpass]

end Arguments

/-! ## A small engine -/

/-- The values of a small engine: primitive values, as they are written, and arrays. -/
inductive JsValue where
  | primitive (literal : StdString)
  | array (address : ℕ)
  deriving DecidableEq

/-- An engine with arrays. No other value is like an array, and functions do nothing. -/
def smallEngine : Engine (List (List JsValue)) JsValue where
  literal := .primitive
  newArray s := (.array s.length, s ++ [[]])
  push a v s :=
    match a with
    | .array i => s.modify i (· ++ [v])
    | .primitive _ => s
  createListFromArrayLike a s :=
    match a with
    | .array i => (s[i]?, s)
    | .primitive literal => (if literal = text "undefined" ∨ literal = text "null" then some [] else none, s)
  call _ _ _ s := (some (.primitive (text "undefined")), s)
  construct _ _ s := (some (.array s.length), s ++ [[]])
  require _ s := s
  init _ s := s

theorem sample_hasFunctionValues : sampleStore.HasFunctionValues sampleHeap sampleCase := by
  intro a id ha hid
  have := sample_mem ha
  simp only [List.mem_cons, List.not_mem_nil, or_false] at this
  rcases this with rfl | rfl | rfl <;> cases hid

theorem sample_makesCalls_iff :
    MakesCalls smallEngine sampleStore (fun _ => []) sampleHeap sampleCase [] ↔ NoNegativeChar sampleHeap sampleCase ∧
      PassesAllArguments smallEngine sampleStore (fun _ => []) sampleHeap sampleCase [] :=
  makesCalls_iff sample_wellFormed sample_hasCalled sample_hasFunctionValues

/-- The number `1`, ... -/
def appliedHeap : Heap := [.literal (.integer 1)]

/-- ... as `this` and the argument of a call of `f`, which is written as `f.apply(_0, _0)`. -/
def appliedCase : TestCase := ⟨0, [⟨7, some 0, false, [0]⟩]⟩

theorem applied_wellFormed : WellFormed appliedHeap appliedCase := by
  intro i call hcall a ha
  match i, hcall with
  | 0, hcall =>
    cases hcall
    obtain rfl : a = 0 := by simpa [FunctionCall.roots] using ha
    intro b hb
    have hb0 := Heap.mem_of_reach (h := appliedHeap) (K := [0]) (by decide) List.mem_cons_self hb
    rw [List.mem_singleton.1 hb0]
    exact ⟨_, rfl, fun i hi => by cases hi⟩

/-- `f` is not invoked: a number is not like an array. -/
theorem calls_not_made : WellFormed appliedHeap appliedCase ∧ sampleStore.HasCalled appliedCase ∧
    sampleStore.HasFunctionValues appliedHeap appliedCase ∧
    ¬ MakesCalls smallEngine sampleStore (fun _ => []) appliedHeap appliedCase [] := by
  refine ⟨applied_wellFormed, fun call hcall => ?_, fun a id _ hid => ?_, ?_⟩
  · rw [List.mem_singleton.1 hcall]
    exact ⟨⟨7, [102]⟩, rfl⟩
  · match a, hid with
    | 0, hid => cases hid
  · rintro ⟨N, hN⟩
    obtain ⟨b, program, e, events, st, -, hprogram, -, hrun, heval, hlog⟩ := hN (N + 1) (Nat.le_succ N)
    cases hprogram
    cases hrun
    cases heval
    cases hlog

end Caf
