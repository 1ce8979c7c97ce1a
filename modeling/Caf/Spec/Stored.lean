import Caf.Spec.Deserializer
import Caf.Spec.JavaScript
import Caf.Spec.Correspondence
import Caf.Spec.Serializer

/-!
# The scripts of stored test cases

The code of a test case by either builder, and what it means that storing a test case keeps its
script: the same invocations, and the same objects, on every engine.
-/

namespace Caf

open ObjectGraph

/-- The builders. -/
inductive ScriptBuilder where
  | javaScript
  | nodejs (libDir : StdString)

namespace ScriptBuilder

def dialect : ScriptBuilder → Dialect
  | javaScript => .javaScript
  | nodejs libDir => .nodejs libDir

variable (B : ScriptBuilder) (store : CAFStore) (formatDouble : Double → StdString) (h : Heap) (fuel : ℕ)
  (tc : TestCase)

/-- The code that a fresh builder has for a test case. -/
def code : Except Error StdString :=
  match B with
  | javaScript =>
    (TestCaseSynthesiser.synthesis (javaScriptSynthesisBuilder store formatDouble) store h fuel tc
      (.new [])).map fun b => b.output
  | nodejs libDir =>
    (TestCaseSynthesiser.synthesis (nodejsSynthesisBuilder store formatDouble libDir) store h fuel tc
      (.new ⟨[], []⟩)).map fun b => b.output.code

/-- The program. -/
def program : Except Error JsProgram :=
  (TestCaseSynthesiser.synthesis (programWriter B.dialect store formatDouble) store h fuel tc (.new .empty)).map
    fun b => b.output

end ScriptBuilder

/-- **The two test cases have scripts with the same effects**, or both have none. The code of a script is that of a
program; whatever the engine, the programs make the same invocations in the same order. -/
def SameScript (B : ScriptBuilder) (store : CAFStore) (formatDouble : Double → StdString) (h : Heap) (tc : TestCase)
    (h' : Heap) (tc' : TestCase) : Prop :=
  ∃ N, ∀ fuel, N ≤ fuel →
    (∃ e e', B.code store formatDouble h fuel tc = .error e ∧ B.code store formatDouble h' fuel tc' = .error e') ∨
      ∃ p p', B.program store formatDouble h fuel tc = .ok p ∧ B.code store formatDouble h fuel tc = .ok p.code ∧
        B.program store formatDouble h' fuel tc' = .ok p' ∧ B.code store formatDouble h' fuel tc' = .ok p'.code ∧
        ∀ {σ V : Type} (E : Engine σ V) (s : σ), ∃ x x', E.run p.statements (.start s) = some x ∧
          E.run p'.statements (.start s) = some x' ∧ x.realm = x'.realm

/-- Storing `tc` and loading it with a fresh pool gives a test case with the script of `tc₀`. -/
def StoresScriptOf (B : ScriptBuilder) (store : CAFStore) (formatDouble : Double → StdString) (h : Heap)
    (tc : TestCase) (h₀ : Heap) (tc₀ : TestCase) : Prop :=
  ∃ out, TestCaseSerializer.serialize h tc = .ok out ∧
    ∀ (junk : ℕ → UInt8) (fuel : ℕ), out.out.length ≤ fuel →
      ∃ tc' s, TestCaseDeserializer.deserialize fuel (.new ⟨out.out, junk⟩ .new) = .ok (tc', s) ∧
        SameScript B store formatDouble h₀ tc₀ s.pool.heap tc'

/-- The call with a missing `this` replaced by the object `u`, unless it is a constructor call. -/
def FunctionCall.fillPlainThis (u : Addr) (call : FunctionCall) : FunctionCall :=
  if call.ctor then call else call.fillThis u

/-- The test case with a missing `this` of its plain calls replaced by the object `u`. -/
def TestCase.fillPlainThis (u : Addr) (tc : TestCase) : TestCase :=
  { tc with calls := tc.calls.map (FunctionCall.fillPlainThis u) }

end Caf
