import Caf.Spec.Visits

/-!
# The traversals with and without a log

Noting visits decides nothing: without its log, each logged traversal is the one that it is a copy of.
-/

namespace Caf

open Run

variable {h : Heap}

namespace TestCaseSerializer

theorem serializeValueLogged_erases (h : Heap) : ∀ fuel a s,
    Erases (serializeValueLogged h fuel a s) (serializeValue h fuel a s) := by
  intro fuel
  induction fuel with
  | zero => exact fun a s => .silent _
  | succ fuel ih =>
    intro a s
    unfold serializeValueLogged serializeValue
    cases h[a]? with
    | none => exact .silent _
    | some value =>
      refine (Erases.silent _).bind fun v => ?_
      cases v with
      | literal l => exact .pure _
      | placeholder index => exact .pure _
      | array elements =>
        exact .note_bind _ (.foldlM elements (fun t element => .note_bind _ (ih element t)) _)

theorem serializeThisLogged_erases (fuel : ℕ) (call : FunctionCall) (s : TestCaseSerializer) :
    Erases (serializeThisLogged h fuel call s) (serializeThis h fuel call s) := by
  unfold serializeThisLogged serializeThis
  cases call.thisValue with
  | none => exact .pure _
  | some a => exact serializeValueLogged_erases h fuel a s

theorem serializeFunctionCallLogged_erases (fuel : ℕ) (call : FunctionCall) (s : TestCaseSerializer) :
    Erases (serializeFunctionCallLogged h fuel call s) (serializeFunctionCall h fuel call s) := by
  refine (serializeThisLogged_erases fuel call _).bind fun t => ?_
  exact .foldlM call.args (fun t arg => serializeValueLogged_erases h fuel arg t) _

theorem serializeCallsLogged_erases (fuel : ℕ) (calls : List FunctionCall) : ∀ i s,
    Erases (serializeCallsLogged h fuel i calls s) (serializeCalls h fuel i calls s) := by
  induction calls with
  | nil => exact fun i s => .pure s
  | cons call calls ih =>
    intro i s
    exact (serializeFunctionCallLogged_erases fuel call s).bind fun t => ih (i + 1) _

theorem serializeLogged_erases (h : Heap) (tc : TestCase) : Erases (serializeLogged h tc) (serialize h tc) :=
  serializeCallsLogged_erases _ _ _ _

end TestCaseSerializer

section Synthesis

variable {W : Type} {w : Writer W} {store : CAFStore} {fuel : ℕ}

namespace SynthesisBuilder

theorem eachVariableLogged_erases {dest : Option Addr}
    {readLogged : Addr → SynthesisBuilder W → Logged ObjectGraph.Visit (Except Error) (StdString × SynthesisBuilder W)}
    {read : Addr → SynthesisBuilder W → Except Error (StdString × SynthesisBuilder W)}
    {use : StdString → SynthesisBuilder W → Except Error (SynthesisBuilder W)}
    (hread : ∀ a b, Erases (readLogged a b) (read a b)) (as : List Addr) : ∀ b,
    Erases (eachVariableLogged dest readLogged use as b) (eachVariable read use as b) := by
  induction as with
  | nil => exact fun b => .pure _
  | cons a as ih =>
    intro b
    refine .note_bind _ ((hread a b).bind fun r => (Erases.silent _).bind fun b' => (ih b').bind fun rs => .pure _)

theorem synthesisConstantLogged_erases : ∀ fuel a (b : SynthesisBuilder W),
    Erases (synthesisConstantLogged w h fuel a b) (synthesisConstant w h fuel a b) := by
  intro fuel
  induction fuel with
  | zero => exact fun a b => .silent _
  | succ fuel ih =>
    intro a b
    unfold synthesisConstantLogged synthesisConstant
    cases b.synthesisedVariables a with
    | some i => exact (Erases.silent _).bind fun x => .pure _
    | none =>
      cases h[a]? with
      | none => exact .silent _
      | some v =>
        cases v with
        | placeholder i => exact (Erases.silent _).bind fun x => .pure _
        | literal l => exact (Erases.silent _).bind fun b' => .pure _
        | array elements =>
          refine (Erases.silent _).bind fun b' => .note_bind _ ?_
          exact (eachVariableLogged_erases ih elements b').bind fun r => .pure _

theorem synthesisThisLogged_erases (thisValue : Option Addr) (b : SynthesisBuilder W) :
    Erases (b.synthesisThisLogged w h fuel thisValue) (b.synthesisThis w h fuel thisValue) := by
  cases thisValue with
  | none => exact .pure _
  | some a => exact synthesisConstantLogged_erases fuel a b

end SynthesisBuilder

namespace TestCaseSynthesiser

open SynthesisBuilder

theorem synthesisCallLogged_erases (call : FunctionCall) (b : SynthesisBuilder W) :
    Erases (synthesisCallLogged w store h fuel call b) (synthesisCall w store h fuel call b) := by
  refine (synthesisThisLogged_erases call.thisValue b).bind fun r => ?_
  refine (eachVariableLogged_erases (synthesisConstantLogged_erases fuel) call.args r.2).bind fun rs => ?_
  exact (Erases.silent _).bind fun f => (Erases.silent _).bind fun q => .pure _

theorem synthesisCallsLogged_erases (calls : List FunctionCall) : ∀ b : SynthesisBuilder W,
    Erases (synthesisCallsLogged w store h fuel calls b) (synthesisCalls w store h fuel calls b) := by
  induction calls with
  | nil => exact fun b => .pure b
  | cons call calls ih => exact fun b => (synthesisCallLogged_erases call b).bind ih

theorem synthesisLogged_erases (w : Writer W) (store : CAFStore) (h : Heap) (fuel : ℕ) (tc : TestCase)
    (b : SynthesisBuilder W) : Erases (synthesisLogged w store h fuel tc b) (synthesis w store h fuel tc b) := by
  refine (Erases.silent _).bind fun out => (synthesisCallsLogged_erases tc.calls _).bind fun b' => ?_
  exact (Erases.silent _).bind fun out' => .pure _

end TestCaseSynthesiser

end Synthesis

namespace TestCaseDumper

variable (store : CAFStore) (formatDouble : Double → StdString) (demangle : Option (StdString → Option StdString))
  (fuel : ℕ)

theorem dumpValueLogged_erases : ∀ fuel a d,
    Erases (dumpValueLogged store formatDouble demangle h fuel a d)
      (dumpValue store formatDouble demangle h fuel a d) := by
  intro fuel
  induction fuel with
  | zero => exact fun a d => .silent _
  | succ fuel ih =>
    intro a d
    unfold dumpValueLogged dumpValue
    cases d.context.valueToIndex a with
    | some index => exact .pure _
    | none =>
      cases h[a]? with
      | none => exact .silent _
      | some v =>
        cases v with
        | literal l => exact .silent _
        | placeholder index => exact .pure _
        | array elements =>
          refine .note_bind _ (Erases.bind (.foldlM _ (fun t e => ?_) _) fun t => .pure _)
          exact .note_bind _ (ih e.1 _)

theorem dumpThisLogged_erases (thisValue : Option Addr) (d : TestCaseDumper) :
    Erases (dumpThisLogged store formatDouble demangle h fuel thisValue d)
      (dumpThis store formatDouble demangle h fuel thisValue d) := by
  cases thisValue with
  | none => exact .pure d
  | some a => exact (dumpValueLogged_erases store formatDouble demangle fuel a _).bind fun t => .pure _

theorem dumpFunctionCallLogged_erases (call : FunctionCall) (d : TestCaseDumper) :
    Erases (dumpFunctionCallLogged store formatDouble demangle h fuel call d)
      (dumpFunctionCall store formatDouble demangle h fuel call d) := by
  refine (Erases.silent _).bind fun func => ?_
  refine (dumpThisLogged_erases store formatDouble demangle fuel call.thisValue _).bind fun t => ?_
  refine Erases.bind (.foldlM _ (fun t arg => ?_) _) fun t => .pure _
  exact dumpValueLogged_erases store formatDouble demangle fuel arg.1 _

theorem dumpLogged_erases (h : Heap) (tc : TestCase) (printer : Printer) :
    Erases (dumpLogged store formatDouble demangle h tc printer) (dump store formatDouble demangle h tc printer) := by
  refine .foldlM _ (fun d call => ?_) _
  exact (dumpFunctionCallLogged_erases store formatDouble demangle (h.length + 1) call.1 _).bind fun t => .pure _

end TestCaseDumper

namespace PlaceholderFixer

variable {fixer : Fixer} {fuel : ℕ}

theorem fixElementsLogged_erases
    {fixLogged : Addr → List Addr → Logged ObjectGraph.Visit FuzzM (Addr × List Addr)}
    {fix : Addr → List Addr → FuzzM (Addr × List Addr)} (hfix : ∀ a F, Erases (fixLogged a F) (fix a F)) (array : Addr)
    (is : List ℕ) : ∀ F, Erases (fixElementsLogged fixLogged array is F) (fixElements fix array is F) := by
  induction is with
  | nil => exact fun F => .pure F
  | cons i is ih =>
    intro F
    refine (Erases.silent _).bind fun e => .note_bind _ ((hfix e F).bind fun r => ?_)
    exact (Erases.silent _).bind fun _ => ih r.2

theorem fixValueLogged_erases (callIndex : ℕ) : ∀ fuel a F,
    Erases (fixValueLogged fixer callIndex fuel a F) (fixValue fixer callIndex fuel a F) := by
  intro fuel
  induction fuel with
  | zero => exact fun a F => .silent _
  | succ fuel ih =>
    intro a F
    refine (Erases.silent _).bind fun v => ?_
    cases v with
    | literal l => exact .pure _
    | placeholder index => exact (Erases.silent _).bind fun a' => .pure _
    | array es =>
      dsimp only
      split
      · exact .pure _
      · exact .note_bind _ ((fixElementsLogged_erases ih a _ _).bind fun F' => .pure _)

theorem fixValuesLogged_erases (callIndex : ℕ) (as : List Addr) : ∀ F,
    Erases (fixValuesLogged fixer callIndex fuel as F) (fixValues fixer callIndex fuel as F) := by
  induction as with
  | nil => exact fun F => .pure _
  | cons a as ih =>
    intro F
    exact (fixValueLogged_erases callIndex fuel a F).bind fun r => (ih r.2).bind fun rs => .pure _

theorem fixCallsLogged_erases (calls : List FunctionCall) : ∀ i F,
    Erases (fixCallsLogged fixer fuel i calls F) (fixCalls fixer fuel i calls F) := by
  induction calls with
  | nil => exact fun i F => .pure _
  | cons call calls ih =>
    intro i F
    have hcall : Erases (fixCallLogged fixer i fuel call F) (fixCall fixer i fuel call F) :=
      (fixValuesLogged_erases i _ F).bind fun r => (fixValuesLogged_erases i _ r.2).bind fun rs => .pure _
    exact hcall.bind fun r => (ih (i + 1) r.2).bind fun calls' => .pure _

theorem fixLogged_erases (fixer : Fixer) (start : ℕ) (tc : TestCase) :
    Erases (fixLogged fixer start tc) (fix fixer start tc) :=
  (Erases.silent _).bind fun _ => (fixCallsLogged_erases _ _ _).bind fun _ => .pure _

end PlaceholderFixer

end Caf
