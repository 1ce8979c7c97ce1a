import Caf.Bytes.JsLiteral
import Caf.Spec.Synthesis

/-!
# JavaScript

The builders for JavaScript and Node.js write text. What they write are JavaScript programs of a
few forms, which a second writer keeps as they are. An `Engine` says what the language leaves to
its objects; a name of a function designates that function in it. The invocations that a program
makes are logged.

* `javaScriptSynthesisBuilder`, `nodejsSynthesisBuilder`: the builders.
* `JsStatement`, `programWriter`: the programs.
* `JsStatement.step`: how they run.
-/

namespace Caf

open ObjectGraph

/-! ## The builders -/

/-- The value of a `char`, which is signed. -/
def charValue (ch : UInt8) : Int := if ch < 128 then ch.toNat else ch.toNat - 256

def isprint (ch : UInt8) : Bool := 32 ≤ ch && ch < 127

def toHexDigit (value : Int) : Except Error UInt8 :=
  if 0 ≤ value ∧ value < 16 then
    .ok (if value < 10 then 48 + UInt8.ofNat value.toNat else 97 + UInt8.ofNat (value - 10).toNat)
  else .error .assertion

/-- One turn of the loop of `EscapeString`. -/
def escapeChar (ch : UInt8) : Except Error StdString :=
  if isprint ch then
    if ch == 34 then .ok (text "\\\"")
    else if ch == 39 then .ok (text "\\'")
    else if ch == 92 then .ok (text "\\\\")
    else .ok [ch]
  else if ch == 10 then .ok (text "\\n")
  else if ch == 9 then .ok (text "\\t")
  else if ch == 13 then .ok (text "\\r")
  else do
    let high ← toHexDigit ((charValue ch).tdiv 16)
    let low ← toHexDigit ((charValue ch).tmod 16)
    return text "\\x" ++ [high, low]

def escapeString : StdString → Except Error StdString
  | [] => .ok []
  | ch :: s => do
    let escaped ← escapeChar ch
    let ret ← escapeString s
    return escaped ++ ret

/-- An integer as `operator<<` writes it. -/
def integerText (value : Int) : StdString :=
  if value < 0 then 45 :: decimal value.natAbs else decimal value.natAbs

section Builders

-- `formatDouble` is how `operator<<` writes a finite number
variable (store : CAFStore) (formatDouble : Double → StdString)

def writeLiteralValue : Literal → Except Error StdString
  | .undefined => .ok (text "undefined")
  | .null => .ok (text "null")
  | .boolean value => .ok (if value then text "true" else text "false")
  | .integer value => .ok (integerText value.toInt)
  | .float number =>
    if number.isNaN then .ok (text "NaN")
    else if number.isInf then .ok ((if number.signBit then text "-" else []) ++ text "Infinity")
    else .ok (formatDouble number)
  | .string value => do return text "'" ++ (← escapeString value) ++ text "'"
  | .function funcId => do return (← store.getFunction funcId).name

/-- The loop over the arguments. -/
def writeArgs : Bool → List StdString → StdString
  | _, [] => []
  | firstArg, argVarName :: argVarNames =>
    (if firstArg then [] else text ", ") ++ argVarName ++ writeArgs false argVarNames

/-- `JavaScriptSynthesisBuilder`. -/
def javaScriptSynthesisBuilder : Writer StdString where
  enterMainFunction := .ok
  leaveFunction := .ok
  writeVariableDef varName value output := do
    let literal ← writeLiteralValue store formatDouble value
    return output ++ text "let " ++ varName ++ text " = " ++ literal ++ text ";"
  writeEmptyArrayVariableDef varName output := .ok (output ++ text "let " ++ varName ++ text " = [];")
  writeArrayPushStatement varName elementVarName output :=
    .ok (output ++ varName ++ text ".push(" ++ elementVarName ++ text ");")
  writeFunctionCallStatement retVarName functionName isCtorCall receiverVarName argVarNames output :=
    let special := !isCtorCall && !receiverVarName.isEmpty
    .ok (output ++ text "let " ++ retVarName ++ text ";" ++ text "try \x7b " ++ retVarName ++ text " = " ++
      (if isCtorCall then text "new " else []) ++ functionName ++ (if special then text ".apply" else []) ++
      text "(" ++ (if special then receiverVarName else []) ++ writeArgs (!special) argVarNames ++ text ");" ++
      text " \x7d catch (e) \x7b \x7d")

def nativeModuleNames : List StdString :=
  ["async_hooks", "buffer", "child_process", "cluster", "console", "constants", "crypto", "dgram", "dns", "domain",
    "events", "fs", "http", "http2", "https", "inspector", "module", "net", "os", "path", "perf_hooks", "process",
    "punycode", "querystring", "readline", "repl", "stream", "string_decoder", "sys", "timers", "tls",
    "trace_events", "tty", "url", "util", "v8", "vm", "worker_threads", "zlib"].map text

/-- `name.substr(0, name.find('.'))`. -/
def getModuleName (name : StdString) : StdString := name.takeWhile (· != separator)

def isInModule (name : StdString) : Bool :=
  match name with
  | [] => false
  | ch :: _ => 97 ≤ ch && ch ≤ 122 && name.contains separator && nativeModuleNames.contains (getModuleName name)

/-- The output of a `NodejsSynthesisBuilder`, with `_imported`. -/
structure NodejsOutput where
  code : StdString
  imported : List StdString

def writeRequireStatement (moduleName : StdString) (output : NodejsOutput) : NodejsOutput :=
  if output.imported.contains moduleName then output
  else
    ⟨output.code ++ text "let " ++ moduleName ++ text " = require('" ++ moduleName ++ text "');",
      output.imported ++ [moduleName]⟩

/-- What is done first for the name of a function. -/
def requireFor (name : StdString) (output : NodejsOutput) : NodejsOutput :=
  if isInModule name then writeRequireStatement (getModuleName name) output else output

/-- What `NodejsSynthesisBuilder::WriteVariableDef` does first. -/
def requireForValue (value : Literal) (output : NodejsOutput) : Except Error NodejsOutput :=
  match value with
  | .function funcId => do
    let funcName := (← store.getFunction funcId).name
    return requireFor funcName output
  | _ => .ok output

/-- `NodejsSynthesisBuilder`. `libDir` is `CAF_LIB_DIR`. -/
def nodejsSynthesisBuilder (libDir : StdString) : Writer NodejsOutput :=
  let base := javaScriptSynthesisBuilder store formatDouble
  { enterMainFunction := fun output =>
      .ok { output with code := output.code ++ text "require('" ++ libDir ++ text "/caf').init();" }
    leaveFunction := .ok
    writeVariableDef := fun varName value output => do
      let output ← requireForValue store value output
      return { output with code := ← base.writeVariableDef varName value output.code }
    writeEmptyArrayVariableDef := fun varName output => do
      return { output with code := ← base.writeEmptyArrayVariableDef varName output.code }
    writeArrayPushStatement := fun varName elementVarName output => do
      return { output with code := ← base.writeArrayPushStatement varName elementVarName output.code }
    writeFunctionCallStatement := fun retVarName functionName isCtorCall receiverVarName argVarNames output => do
      let output := requireFor functionName output
      return { output with code := ←
        base.writeFunctionCallStatement retVarName functionName isCtorCall receiverVarName argVarNames output.code } }

end Builders

/-! ## Programs -/

/-- The three forms of a call: `f(..)`, `new f(..)` and `f.apply(..)`. -/
inductive CallForm where
  | plain | new | apply
  deriving DecidableEq

/-- A call expression. -/
structure JsCall (α : Type) where
  form : CallForm
  functionName : StdString
  args : List α

/-- The call expression that is written for a call. -/
def writtenCall {α : Type} (functionName : StdString) (isCtorCall : Bool) (receiver args : List α) : JsCall α :=
  if isCtorCall then ⟨.new, functionName, args⟩
  else
    match receiver with
    | [] => ⟨.plain, functionName, args⟩
    | thisArg :: _ => ⟨.apply, functionName, thisArg :: args⟩

/-- The statements of the programs. -/
inductive JsStatement where
  | init (libDir : StdString)
  | require (moduleName : StdString)
  | letLiteral (varName literal : StdString)
  | letArray (varName : StdString)
  | push (varName elementVarName : StdString)
  | tryCall (retVarName : StdString) (call : JsCall StdString)

def JsCall.code (c : JsCall StdString) : StdString :=
  (if c.form = .new then text "new " else []) ++ c.functionName ++ (if c.form = .apply then text ".apply" else []) ++
    text "(" ++ List.intercalate (text ", ") c.args ++ text ")"

/-- The text of a statement. -/
def JsStatement.code : JsStatement → StdString
  | init libDir => text "require('" ++ libDir ++ text "/caf').init();"
  | require m => text "let " ++ m ++ text " = require('" ++ m ++ text "');"
  | letLiteral x literal => text "let " ++ x ++ text " = " ++ literal ++ text ";"
  | letArray x => text "let " ++ x ++ text " = [];"
  | push x y => x ++ text ".push(" ++ y ++ text ");"
  | tryCall x call => text "let " ++ x ++ text ";try \x7b " ++ x ++ text " = " ++ call.code ++ text "; \x7d catch (e) \x7b \x7d"

/-- A program, with the modules it has imported. -/
structure JsProgram where
  statements : List JsStatement
  imported : List StdString

def JsProgram.empty : JsProgram := ⟨[], []⟩

/-- The text of a program. -/
def JsProgram.code (p : JsProgram) : StdString := p.statements.flatMap JsStatement.code

def JsProgram.add (p : JsProgram) (st : JsStatement) : JsProgram := { p with statements := p.statements ++ [st] }

/-- What distinguishes the builders: how a program begins, and which module a function is in. -/
structure Dialect where
  prologue : List JsStatement
  moduleOf : StdString → Option StdString

/-- Plain JavaScript. -/
def Dialect.javaScript : Dialect := ⟨[], fun _ => none⟩

def Dialect.nodejs (libDir : StdString) : Dialect :=
  ⟨[.init libDir], fun name => if isInModule name then some (getModuleName name) else none⟩

/-- Import the module of a function, unless that was done before. -/
def JsProgram.requireFor (D : Dialect) (name : StdString) (p : JsProgram) : JsProgram :=
  match D.moduleOf name with
  | none => p
  | some m => if p.imported.contains m then p else ⟨p.statements ++ [.require m], p.imported ++ [m]⟩

/-- The literals whose variables need a module are the functions. -/
def JsProgram.requireForLiteral (D : Dialect) (l : Literal) (literal : StdString) (p : JsProgram) : JsProgram :=
  match l with
  | .function _ => p.requireFor D literal
  | _ => p

/-- The writer of programs. -/
def programWriter (D : Dialect) (store : CAFStore) (formatDouble : Double → StdString) : Writer JsProgram where
  enterMainFunction p := .ok { p with statements := p.statements ++ D.prologue }
  leaveFunction := .ok
  writeVariableDef x l p := do
    let literal ← writeLiteralValue store formatDouble l
    return (p.requireForLiteral D l literal).add (.letLiteral x literal)
  writeEmptyArrayVariableDef x p := .ok (p.add (.letArray x))
  writeArrayPushStatement x y p := .ok (p.add (.push x y))
  writeFunctionCallStatement ret f ctor recv args p :=
    .ok ((p.requireFor D f).add (.tryCall ret (writtenCall f ctor ([recv].filter (!·.isEmpty)) args)))

/-! ## How programs run -/

/-- An invocation of a function. A call without a special receiver has none. -/
structure Invocation (V : Type) where
  functionName : StdString
  isNew : Bool
  receiver : Option V
  args : List V

/-- What the language leaves to its objects. A function may throw, and has no result then, and so may
the conversion of an object to a list of arguments. -/
structure Engine (σ V : Type) where
  literal : StdString → V
  newArray : σ → V × σ
  push : V → V → σ → σ
  createListFromArrayLike : V → σ → Option (List V) × σ
  call : StdString → Option V → List V → σ → Option V × σ
  construct : StdString → List V → σ → Option V × σ
  require : StdString → σ → σ
  init : StdString → σ → σ

/-- The objects, the modules, and the invocations so far. -/
structure Realm (σ V : Type) where
  objects : σ
  imported : List StdString
  log : List (Invocation V)

def Realm.start {σ V : Type} (s : σ) : Realm σ V := ⟨s, [], []⟩

/-- The execution of a program: its variables and the realm. -/
structure JsExecution (σ V : Type) where
  env : StdString → Option V
  realm : Realm σ V

def JsExecution.start {σ V : Type} (s : σ) : JsExecution σ V := ⟨fun _ => none, .start s⟩

namespace Engine

variable {σ V : Type}

def undefined (E : Engine σ V) : V := E.literal (text "undefined")

/-- Invoke a function. -/
def invoke (E : Engine σ V) (i : Invocation V) (r : Realm σ V) : Option V × Realm σ V :=
  let (v, s) :=
    if i.isNew then E.construct i.functionName i.args r.objects
    else E.call i.functionName i.receiver i.args r.objects
  (v, { r with objects := s, log := r.log ++ [i] })

/-- Evaluate a call expression. `Function.prototype.apply` has two parameters; what the second one
designates is converted to the list of arguments. -/
def evalCall (E : Engine σ V) (c : JsCall V) (r : Realm σ V) : Option V × Realm σ V :=
  match c.form, c.args with
  | .plain, args => E.invoke ⟨c.functionName, false, none, args⟩ r
  | .new, args => E.invoke ⟨c.functionName, true, none, args⟩ r
  | .apply, [] => E.invoke ⟨c.functionName, false, some E.undefined, []⟩ r
  | .apply, [thisArg] => E.invoke ⟨c.functionName, false, some thisArg, []⟩ r
  | .apply, thisArg :: argsArray :: _ =>
    match E.createListFromArrayLike argsArray r.objects with
    | (none, s) => (none, { r with objects := s })
    | (some args, s) => E.invoke ⟨c.functionName, false, some thisArg, args⟩ { r with objects := s }

end Engine

/-- `let` of a name that is not declared. -/
def JsExecution.declare {σ V : Type} (x : StdString) (v : V) (e : JsExecution σ V) : Option (JsExecution σ V) :=
  if (e.env x).isSome then none else some { e with env := Function.update e.env x (some v) }

/-- Execute a statement. The variable of a call that throws stays undefined. -/
def JsStatement.step {σ V : Type} (E : Engine σ V) : JsStatement → JsExecution σ V → Option (JsExecution σ V)
  | .init libDir, e => some { e with realm := { e.realm with objects := E.init libDir e.realm.objects } }
  | .require m, e =>
    if e.realm.imported.contains m then none
    else some { e with realm := { e.realm with
      objects := E.require m e.realm.objects, imported := e.realm.imported ++ [m] } }
  | .letLiteral x literal, e => e.declare x (E.literal literal)
  | .letArray x, e =>
    let (v, s) := E.newArray e.realm.objects
    JsExecution.declare x v { e with realm := { e.realm with objects := s } }
  | .push x y, e => do
    let a ← e.env x
    let v ← e.env y
    return { e with realm := { e.realm with objects := E.push a v e.realm.objects } }
  | .tryCall x c, e => do
    let vs ← Host.valuesOf e.env c.args
    let (v, r) := E.evalCall ⟨c.form, c.functionName, vs⟩ e.realm
    JsExecution.declare x (v.getD E.undefined) { e with realm := r }

/-- Execute a program. -/
def Engine.run {σ V : Type} (E : Engine σ V) : List JsStatement → JsExecution σ V → Option (JsExecution σ V)
  | [], e => some e
  | st :: program, e => do
    let e ← st.step E e
    E.run program e

/-! ## What a test case stands for -/

section Host

variable {σ V : Type}

/-- Import the module of a function. -/
def Realm.requireFor (E : Engine σ V) (D : Dialect) (name : StdString) (r : Realm σ V) : Realm σ V :=
  match D.moduleOf name with
  | none => r
  | some m =>
    if r.imported.contains m then r
    else { r with objects := E.require m r.objects, imported := r.imported ++ [m] }

def Realm.requireForLiteral (E : Engine σ V) (D : Dialect) (l : Literal) (literal : StdString) (r : Realm σ V) :
    Realm σ V :=
  match l with
  | .function _ => r.requireFor E D literal
  | _ => r

/-- The modules are there already. -/
def Realm.Has (D : Dialect) (name : StdString) (r : Realm σ V) : Prop :=
  ∀ m, D.moduleOf name = some m → m ∈ r.imported

theorem Realm.requireFor_imported (E : Engine σ V) (D : Dialect) (name : StdString) (r : Realm σ V) :
    r.imported ⊆ (r.requireFor E D name).imported ∧ (r.requireFor E D name).Has D name := by
  unfold requireFor Has
  cases hm : D.moduleOf name with
  | none => exact ⟨fun _ h => h, fun m hm' => by cases hm'⟩
  | some m =>
    by_cases hin : r.imported.contains m = true
    · simp only [hin, if_true]
      refine ⟨fun _ h => h, ?_⟩
      rintro m' ⟨⟩
      simpa using hin
    · simp only [hin]
      refine ⟨fun _ h => List.mem_append_left _ h, ?_⟩
      rintro m' ⟨⟩
      simp

theorem Realm.requireFor_of_has {E : Engine σ V} {D : Dialect} {name : StdString} {r : Realm σ V} (h : r.Has D name) :
    r.requireFor E D name = r := by
  unfold requireFor
  cases hm : D.moduleOf name with
  | none => rfl
  | some m => simp [h m hm]

theorem Realm.evalCall_imported (E : Engine σ V) (c : JsCall V) (r : Realm σ V) :
    (E.evalCall c r).2.imported = r.imported := by
  unfold Engine.evalCall
  split
  · rfl
  · rfl
  · rfl
  · rfl
  · split <;> rfl

variable (E : Engine σ V) (D : Dialect) (store : CAFStore) (formatDouble : Double → StdString)

/-- The text of a literal that can be written. -/
def literalText (l : Literal) : StdString :=
  match writeLiteralValue store formatDouble l with
  | .ok literal => literal
  | .error _ => []

/-- What the statements of a builder do to a realm. -/
def Engine.host : Host (Realm σ V) V where
  literal l r :=
    let literal := literalText store formatDouble l
    (E.literal literal, r.requireForLiteral E D l literal)
  newArray r :=
    let (v, s) := E.newArray r.objects
    (v, { r with objects := s })
  push a v r := { r with objects := E.push a v r.objects }
  call op hs vs r :=
    let (v, r) := E.evalCall (writtenCall op.1 op.2 hs vs) (r.requireFor E D op.1)
    (v.getD E.undefined, r)
  Known l v r := v = E.literal (literalText store formatDouble l) ∧
    ∀ id, l = .function id → r.Has D (literalText store formatDouble l)
  known_literal l r := by
    refine ⟨rfl, ?_⟩
    rintro id rfl
    exact (r.requireFor_imported E D _).2
  literal_known := by
    rintro l v r ⟨rfl, hk⟩
    cases l with
    | function id => simp only [Realm.requireForLiteral, Realm.requireFor_of_has (hk id rfl)]
    | _ => rfl
  keep_literal := by
    rintro l v r l' ⟨hv, hk⟩
    refine ⟨hv, fun id hl m hm => ?_⟩
    cases l' with
    | function id' => exact (r.requireFor_imported E D _).1 (hk id hl m hm)
    | _ => exact hk id hl m hm
  keep_newArray h := h
  keep_push _ _ h := h
  keep_call := by
    rintro l v r op hs vs ⟨hv, hk⟩
    refine ⟨hv, fun id hl m hm => ?_⟩
    simp only [Realm.evalCall_imported]
    exact (r.requireFor_imported E D op.1).1 (hk id hl m hm)

/-- The invocation that a call of a test case asks for. -/
def requestedInvocation (e : Event (StdString × Bool) (Realm σ V) V) : Invocation V :=
  ⟨e.op.1, e.op.2, if e.op.2 then none else e.head.head?, e.args⟩

/-- **The script makes exactly the calls of the test case**: the code that is written is that of a program
whose invocations are, one for each call, those that the calls ask for. -/
def MakesCalls (h : Heap) (tc : TestCase) (s : σ) : Prop :=
  ∃ N, ∀ fuel, N ≤ fuel → ∃ b program e events st,
    TestCaseSynthesiser.synthesis (javaScriptSynthesisBuilder store formatDouble) store h fuel tc (.new []) = .ok b ∧
    TestCaseSynthesiser.synthesis (programWriter .javaScript store formatDouble) store h fuel tc (.new .empty) =
      .ok program ∧ b.output = program.output.code ∧
    E.run program.output.statements (.start s) = some e ∧
    evalSteps (E.host .javaScript store formatDouble).interp ((E.host .javaScript store formatDouble).perform store)
      h.graph fuel tc.steps (EvalState.start (.start s)) = some (events, st) ∧
    e.realm.log = events.map fun event => requestedInvocation (namedEvent store event)

/-- The call is written without `apply` or without arguments, or the objects are such that its first
argument makes the list of its arguments. -/
def PassesArguments (E : Engine σ V) (e : Event (StdString × Bool) (Realm σ V) V) : Prop :=
  e.op.2 = true ∨ e.head = [] ∨ e.args = [] ∨
    ∃ a rest s, e.args = a :: rest ∧ E.createListFromArrayLike a e.before.objects = (some e.args, s)

/-- Every call of the test case passes its arguments. -/
def PassesAllArguments (h : Heap) (tc : TestCase) (s : σ) : Prop :=
  ∃ N, ∀ fuel, N ≤ fuel → ∃ events st,
    evalSteps (E.host .javaScript store formatDouble).interp ((E.host .javaScript store formatDouble).perform store)
      h.graph fuel tc.steps (EvalState.start (.start s)) = some (events, st) ∧
    ∀ event ∈ events, PassesArguments E (namedEvent store event)

end Host

/-- No string of the test case has a negative `char`. -/
def NoNegativeChar (h : Heap) (tc : TestCase) : Prop :=
  ∀ a s, tc.Reaches h a → h[a]? = some (.literal (.string s)) → ∀ ch ∈ s, ch < 128

/-- **The literal of a string stands for the string**: it can be escaped, the text in quotes is one literal, whose
code units are the bytes of the string, and no other string has the same text. -/
def EscapesExactly (s : StdString) : Prop :=
  ∃ t, escapeString s = .ok t ∧ JsLiteral.value? (text "'" ++ t ++ text "'") = some (s.map (·.toUInt16)) ∧
    ∀ s', escapeString s' = .ok t → s' = s

/-- The store has the functions that occur as values. -/
def CAFStore.HasFunctionValues (store : CAFStore) (h : Heap) (tc : TestCase) : Prop :=
  ∀ a id, tc.Reaches h a → h[a]? = some (.literal (.function id)) → ∃ f, store.getFunction id = .ok f

end Caf
