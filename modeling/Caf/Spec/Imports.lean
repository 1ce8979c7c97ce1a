import Caf.Run.Order
import Caf.Spec.JavaScript

/-!
# Imports of a Node.js script

A script may name a function of a native module after it has imported the module, under the name that `let` declares.
Node wraps a script in a function, which binds names of its own; no `let` may declare them again.

* `ImportsFirst`: what is asked of a program.
* `ImportsInOrder`: the order of names with which the builder achieves it.
-/

namespace Caf

open ObjectGraph

/-- The names that Node's wrapper of a script binds. -/
def wrapperNames : List StdString := ["exports", "require", "module", "__filename", "__dirname"].map text

/-- The name that `let` declares. -/
def JsStatement.declared : JsStatement → Option StdString
  | init _ => none
  | require m => some m
  | letLiteral x _ => some x
  | letArray x => some x
  | push _ _ => none
  | tryCall x _ => some x

/-- A statement names a function: as a callee, or as the value of a variable that stands for a function in the
script. -/
def JsStatement.Names (script : List Statement) (name : StdString) : JsStatement → Prop
  | letLiteral x literal => literal = name ∧ ∃ id, Statement.variableDef x (.function id) ∈ script
  | tryCall _ call => call.functionName = name
  | _ => False

/-- If the module of a function that `st` names is native, it was imported before. -/
def RequiredBefore (script : List Statement) (before : List JsStatement) (st : JsStatement) : Prop :=
  ∀ name, st.Names script name → getModuleName name ∈ nativeModuleNames →
    JsStatement.require (getModuleName name) ∈ before

/-- **Every native module is imported first**, and every name is declared once. -/
structure ImportsFirst (script : List Statement) (program : List JsStatement) : Prop where
  required : Run.EachAfter (RequiredBefore script) program
  declaredOnce : (program.filterMap JsStatement.declared).Nodup
  unbound : ∀ x ∈ program.filterMap JsStatement.declared, x ∉ wrapperNames

/-- The name of a function value. -/
def functionName (store : CAFStore) : Literal → Option StdString
  | .function id => some (store.nameOf id)
  | _ => none

/-- Take note of the names of functions, ... -/
def namesInterp (store : CAFStore) : Interp Literal (List StdString) Unit where
  leaf l names := ((), names ++ (functionName store l).toList)
  node _ names := ((), names)
  push _ _ names := names

/-- ... in the order in which the reference evaluation meets function values and calls functions. -/
def namesOf (store : CAFStore) (h : Heap) (tc : TestCase) : List StdString :=
  match evalSteps (namesInterp store) (fun op _ _ names => ((), names ++ [store.nameOf op.1])) h.graph (h.length + 1)
    tc.steps (EvalState.start []) with
  | some (_, st) => st.host
  | none => []

/-- A name that is that of a native module comes after another one that is in the module. -/
def ImportedBefore (before : List StdString) (name : StdString) : Prop :=
  name ∈ nativeModuleNames → ∃ dotted ∈ before, isInModule dotted = true ∧ getModuleName dotted = name

/-- **The order of names.** The module `module` is in the way of the wrapper. -/
structure ImportsInOrder (names : List StdString) : Prop where
  notModule : ∀ name ∈ names, isInModule name = true → getModuleName name ≠ text "module"
  imported : Run.EachAfter ImportedBefore names

/-- **The code of a test case imports native modules first.** It is the code of a program, which is written for the
script that all builders write. -/
def ImportsNativeModules (store : CAFStore) (formatDouble : Double → StdString) (libDir : StdString) (h : Heap)
    (tc : TestCase) : Prop :=
  ∃ N, ∀ fuel, N ≤ fuel → ∀ b,
    TestCaseSynthesiser.synthesis (nodejsSynthesisBuilder store formatDouble libDir) store h fuel tc (.new ⟨[], []⟩) =
      .ok b → ∃ script program,
    (∀ {W : Type} (w : Writer W) (out : W),
      (TestCaseSynthesiser.synthesis w store h fuel tc (.new out)).map (·.output) = w.writeScript script out) ∧
    TestCaseSynthesiser.synthesis (programWriter (.nodejs libDir) store formatDouble) store h fuel tc (.new .empty) =
      .ok program ∧
    b.output.code = program.output.code ∧ ImportsFirst script program.output.statements

end Caf
