import Caf.Proof.Synthesis
import Caf.Spec.JavaScript

/-!
# The code of a test case

The builders write the code of the programs of the `programWriter`, and running such a program
is running the script of the test case on the host of the engine. A program can be written if
its literals can, which strings with a negative `char` cannot.

* `javaScript_writeScript`, `nodejs_writeScript`: the code is that of a program.
* `writeLiteralValue_ok_iff`, `writeAll_ok_iff`: when there is a program.
* `run_program`: what it does.
-/

namespace Caf

open ObjectGraph

/-! ## Code and programs -/

section Code

variable {W W' : Type}

/-- Two writers do the same, up to `f`. -/
structure Follows (w' : Writer W') (w : Writer W) (f : W → W') : Prop where
  enter : ∀ out, w'.enterMainFunction (f out) = (w.enterMainFunction out).map f
  write : ∀ st out, w'.write st (f out) = (w.write st out).map f
  leave : ∀ out, w'.leaveFunction (f out) = (w.leaveFunction out).map f

variable {w' : Writer W'} {w : Writer W} {f : W → W'}

theorem Follows.refl (w : Writer W) : Follows w w id := by
  have hid : ∀ x : Except Error W, x = x.map id := fun x => by rw [Except.map_id]; rfl
  exact ⟨fun out => hid _, fun st out => hid _, fun out => hid _⟩

theorem Follows.writeAll (hf : Follows w' w f) (script : List Statement) (out : W) :
    w'.writeAll script (f out) = (w.writeAll script out).map f := by
  induction script generalizing out with
  | nil => rfl
  | cons st script ih =>
    simp only [Writer.writeAll, hf.write, bind, Except.bind]
    cases w.write st out with
    | error e => rfl
    | ok out => exact ih out

theorem Follows.writeScript (hf : Follows w' w f) (script : List Statement) (out : W) :
    w'.writeScript script (f out) = (w.writeScript script out).map f := by
  simp only [Writer.writeScript, hf.enter, bind, Except.bind]
  cases w.enterMainFunction out with
  | error e => rfl
  | ok out =>
    simp only [Except.map, hf.writeAll]
    cases w.writeAll script out with
    | error e => rfl
    | ok out => exact hf.leave out

variable {store : CAFStore} {formatDouble : Double → StdString}

theorem JsProgram.code_add (p : JsProgram) (st : JsStatement) : (p.add st).code = p.code ++ st.code := by
  simp [code, add]

theorem writeArgs_false (x : StdString) (args : List StdString) :
    x ++ writeArgs false args = List.intercalate (text ", ") (x :: args) := by
  induction args generalizing x with
  | nil => simp [writeArgs]
  | cons y args ih =>
    rw [List.intercalate_cons_cons, ← ih y]
    simp [writeArgs]

theorem writeArgs_true (args : List StdString) : writeArgs true args = List.intercalate (text ", ") args := by
  cases args with
  | nil => simp [writeArgs]
  | cons x args => rw [← writeArgs_false, writeArgs]; simp

/-- The call statement. -/
theorem code_writtenCall (f recv : StdString) (ctor : Bool) (args : List StdString) :
    (writtenCall f ctor ([recv].filter (!·.isEmpty)) args).code =
      (if ctor then text "new " else []) ++ f ++ (if (!ctor && !recv.isEmpty) = true then text ".apply" else []) ++
        text "(" ++ (if (!ctor && !recv.isEmpty) = true then recv else []) ++
        writeArgs (!(!ctor && !recv.isEmpty)) args ++ text ")" := by
  cases ctor with
  | true => simp [writtenCall, JsCall.code, writeArgs_true]
  | false =>
    cases recv with
    | nil => simp [writtenCall, JsCall.code, writeArgs_true]
    | cons c recv =>
      have hargs := writeArgs_false recv args
      simp [writtenCall, JsCall.code, ← hargs]

variable (store formatDouble) in
/-- The statement that is written for a statement. -/
def translate : Statement → Except Error JsStatement
  | .variableDef x l => (writeLiteralValue store formatDouble l).map (.letLiteral x)
  | .emptyArrayVariableDef x => .ok (.letArray x)
  | .arrayPush x y => .ok (.push x y)
  | .functionCall ret f ctor recv args => .ok (.tryCall ret (writtenCall f ctor ([recv].filter (!·.isEmpty)) args))

/-- The function whose module is imported before. -/
def requiredName : Statement → JsStatement → Option StdString
  | .variableDef _ (.function _), .letLiteral _ literal => some literal
  | .functionCall _ f _ _ _, _ => some f
  | _, _ => none

/-- Import the module of a function, if there is one. -/
def JsProgram.requireName (D : Dialect) (name : Option StdString) (p : JsProgram) : JsProgram :=
  name.elim p (p.requireFor D)

theorem javaScript_write (st : Statement) (out : StdString) :
    (javaScriptSynthesisBuilder store formatDouble).write st out =
      (translate store formatDouble st).map fun js => out ++ js.code := by
  cases st with
  | variableDef x l =>
    simp only [Writer.write, javaScriptSynthesisBuilder, translate, bind, Except.bind]
    cases writeLiteralValue store formatDouble l with
    | error e => rfl
    | ok literal => simp [pure, Except.pure, Except.map, JsStatement.code]
  | emptyArrayVariableDef x => simp [Writer.write, javaScriptSynthesisBuilder, translate, Except.map, JsStatement.code]
  | arrayPush x y => simp [Writer.write, javaScriptSynthesisBuilder, translate, Except.map, JsStatement.code]
  | functionCall ret f ctor recv args =>
    simp only [Writer.write, javaScriptSynthesisBuilder, translate, Except.map, JsStatement.code, code_writtenCall]
    simp [text]

theorem program_write (D : Dialect) (st : Statement) (p : JsProgram) :
    (programWriter D store formatDouble).write st p =
      (translate store formatDouble st).map fun js => (p.requireName D (requiredName st js)).add js := by
  cases st with
  | variableDef x l =>
    simp only [Writer.write, programWriter, translate, bind, Except.bind]
    cases writeLiteralValue store formatDouble l with
    | error e => rfl
    | ok literal => cases l <;> rfl
  | _ => rfl

/-- The output of a Node.js builder that wrote a program. -/
def JsProgram.nodejsOutput (p : JsProgram) : NodejsOutput := ⟨p.code, p.imported⟩

theorem requireFor_nodejsOutput (libDir name : StdString) (p : JsProgram) :
    requireFor name p.nodejsOutput = (p.requireFor (.nodejs libDir) name).nodejsOutput := by
  unfold requireFor JsProgram.requireFor Dialect.nodejs
  by_cases hin : isInModule name = true
  · by_cases hm : p.imported.contains (getModuleName name) = true
    · have hm' : p.nodejsOutput.imported.contains (getModuleName name) = true := hm
      simp only [hin, if_true, writeRequireStatement, if_pos hm, if_pos hm']
    · have hm' : ¬ p.nodejsOutput.imported.contains (getModuleName name) = true := hm
      simp only [hin, if_true, writeRequireStatement, if_neg hm, if_neg hm']
      simp [JsProgram.nodejsOutput, JsProgram.code, JsStatement.code]
  · simp only [hin, if_false, Bool.false_eq_true]

theorem nodejs_write (libDir : StdString) (st : Statement) (p : JsProgram) :
    (nodejsSynthesisBuilder store formatDouble libDir).write st p.nodejsOutput =
      (translate store formatDouble st).map fun js =>
        { (p.requireName (.nodejs libDir) (requiredName st js)).nodejsOutput with
          code := (p.requireName (.nodejs libDir) (requiredName st js)).code ++ js.code } := by
  cases st with
  | variableDef x l =>
    have hb : ∀ out, (javaScriptSynthesisBuilder store formatDouble).writeVariableDef x l out = _ :=
      javaScript_write (.variableDef x l)
    simp only [Writer.write, nodejsSynthesisBuilder, hb, bind, Except.bind]
    cases l with
    | function id =>
      simp only [requireForValue, translate, writeLiteralValue, bind, Except.bind]
      cases store.getFunction id with
      | error e => rfl
      | ok f =>
        simp only [pure, Except.pure, Except.map, requireFor_nodejsOutput libDir, requiredName, JsProgram.requireName]
        rfl
    | _ =>
      simp only [requireForValue, translate]
      cases writeLiteralValue store formatDouble _ <;> rfl
  | emptyArrayVariableDef x =>
    have hb : ∀ out, (javaScriptSynthesisBuilder store formatDouble).writeEmptyArrayVariableDef x out = _ :=
      javaScript_write (.emptyArrayVariableDef x)
    simp only [Writer.write, nodejsSynthesisBuilder, hb, bind, Except.bind]
    rfl
  | arrayPush x y =>
    have hb : ∀ out, (javaScriptSynthesisBuilder store formatDouble).writeArrayPushStatement x y out = _ :=
      javaScript_write (.arrayPush x y)
    simp only [Writer.write, nodejsSynthesisBuilder, hb, bind, Except.bind]
    rfl
  | functionCall ret f ctor recv args =>
    have hb : ∀ out, (javaScriptSynthesisBuilder store formatDouble).writeFunctionCallStatement ret f ctor recv args
      out = _ := javaScript_write (.functionCall ret f ctor recv args)
    simp only [Writer.write, nodejsSynthesisBuilder, hb, requireFor_nodejsOutput libDir, bind, Except.bind]
    rfl

/-- **The code of a JavaScript builder is that of a program.** -/
theorem javaScript_follows : Follows (javaScriptSynthesisBuilder store formatDouble)
    (programWriter .javaScript store formatDouble) JsProgram.code := by
  refine ⟨fun p => ?_, fun st p => ?_, fun p => rfl⟩
  · simp [javaScriptSynthesisBuilder, programWriter, Dialect.javaScript, Except.map]
  · have hreq : ∀ name, p.requireName .javaScript name = p := fun name => by cases name <;> rfl
    rw [javaScript_write, program_write]
    cases translate store formatDouble st with
    | error e => rfl
    | ok js => simp only [Except.map, hreq, JsProgram.code_add]

/-- **The code of a Node.js builder is that of a program.** -/
theorem nodejs_follows (libDir : StdString) : Follows (nodejsSynthesisBuilder store formatDouble libDir)
    (programWriter (.nodejs libDir) store formatDouble) JsProgram.nodejsOutput := by
  refine ⟨fun p => ?_, fun st p => ?_, fun p => rfl⟩
  · simp [nodejsSynthesisBuilder, programWriter, Dialect.nodejs, Except.map, JsProgram.nodejsOutput, JsProgram.code,
      JsStatement.code]
  · rw [nodejs_write, program_write]
    cases translate store formatDouble st with
    | error e => rfl
    | ok js => simp only [Except.map, JsProgram.nodejsOutput, JsProgram.code_add]; rfl

end Code

/-! ## When there is a program -/

theorem toHexDigit_ok_iff (value : Int) : (∃ c, toHexDigit value = .ok c) ↔ 0 ≤ value ∧ value < 16 := by
  unfold toHexDigit
  by_cases hv : 0 ≤ value ∧ value < 16
  · simp [hv]
  · simp [hv]

/-- **The escape of a negative `char` fails.** -/
theorem escapeChar_ok_iff (ch : UInt8) : (∃ t, escapeChar ch = .ok t) ↔ ch < 128 := by
  by_cases hch : ch < 128
  · refine iff_of_true ?_ hch
    have hlt : ch.toNat < 128 := UInt8.lt_iff_toNat_lt.1 hch
    have hvalue : charValue ch = ch.toNat := if_pos hch
    obtain ⟨high, hhigh⟩ := (toHexDigit_ok_iff ((charValue ch).tdiv 16)).2 (by
      rw [hvalue, Int.tdiv_eq_ediv_of_nonneg (by omega)]
      omega)
    obtain ⟨low, hlow⟩ := (toHexDigit_ok_iff ((charValue ch).tmod 16)).2 (by
      rw [hvalue, Int.tmod_eq_emod_of_nonneg (by omega)]
      omega)
    unfold escapeChar
    simp only [hhigh, hlow, bind, Except.bind, pure, Except.pure]
    repeat' split
    all_goals exact ⟨_, rfl⟩
  · refine iff_of_false ?_ hch
    have hge : 128 ≤ ch.toNat := UInt8.le_iff_toNat_le.1 (UInt8.not_lt.1 hch)
    have hlt : ch.toNat < 256 := ch.toNat_lt
    have hprint : isprint ch = false := by
      simp only [isprint, Bool.and_eq_false_iff, decide_eq_false_iff_not, UInt8.not_lt, UInt8.not_le]
      exact .inr (UInt8.le_iff_toNat_le.2 (by simp; omega))
    have hne : ∀ n : UInt8, n < 128 → (ch == n) = false := by
      intro n hn
      rw [beq_eq_false_iff_ne]
      rintro rfl
      exact hch hn
    -- the value is `-w`, and so are the quotient and the remainder
    obtain ⟨w, hw, hw₁, hw₂⟩ : ∃ w : ℕ, charValue ch = -(w : Int) ∧ 1 ≤ w ∧ w ≤ 128 := by
      refine ⟨256 - ch.toNat, ?_, by omega, by omega⟩
      rw [charValue, if_neg hch]
      omega
    have hdiv : (charValue ch).tdiv 16 = -((w / 16 : ℕ) : Int) := by
      rw [hw, Int.neg_tdiv, Int.tdiv_eq_ediv_of_nonneg (by omega)]
      omega
    have hmod : (charValue ch).tmod 16 = -((w % 16 : ℕ) : Int) := by
      rw [hw, Int.neg_tmod, Int.tmod_eq_emod_of_nonneg (by omega)]
      omega
    unfold escapeChar
    simp only [hprint, hne 10 (by decide), hne 9 (by decide), hne 13 (by decide), Bool.false_eq_true, if_false,
      bind_eq_ok]
    rintro ⟨t, high, hhigh, low, hlow, -⟩
    have h₁ := (toHexDigit_ok_iff _).1 ⟨high, hhigh⟩
    have h₂ := (toHexDigit_ok_iff _).1 ⟨low, hlow⟩
    rw [hdiv] at h₁
    rw [hmod] at h₂
    omega

theorem escapeString_ok_iff (s : StdString) : (∃ t, escapeString s = .ok t) ↔ ∀ ch ∈ s, ch < 128 := by
  induction s with
  | nil => exact iff_of_true ⟨[], rfl⟩ (by simp)
  | cons ch s ih =>
    rw [List.forall_mem_cons, ← escapeChar_ok_iff, ← ih]
    simp only [escapeString, bind_eq_ok]
    refine ⟨fun ⟨t, a, ha, b, hb, _⟩ => ⟨⟨a, ha⟩, b, hb⟩, fun ⟨⟨a, ha⟩, b, hb⟩ => ⟨_, a, ha, b, hb, rfl⟩⟩

/-- A literal can be written if a string has no negative `char`, and a function is in the store. -/
def Literal.Writable (store : CAFStore) (l : Literal) : Prop :=
  (∀ s, l = .string s → ∀ ch ∈ s, ch < 128) ∧ ∀ id, l = .function id → ∃ f, store.getFunction id = .ok f

section Programs

variable {store : CAFStore} {formatDouble : Double → StdString} {script : List Statement} {p p' : JsProgram}
  {D : Dialect}

theorem writeLiteralValue_ok_iff (l : Literal) :
    (∃ t, writeLiteralValue store formatDouble l = .ok t) ↔ l.Writable store := by
  unfold Literal.Writable
  cases l with
  | string s =>
    simp only [writeLiteralValue, bind_eq_ok, Literal.string.injEq, forall_eq', reduceCtorEq, false_implies,
      implies_true, and_true, ← escapeString_ok_iff]
    refine ⟨fun ⟨t, a, ha, _⟩ => ⟨a, ha⟩, fun ⟨a, ha⟩ => ⟨_, a, ha, rfl⟩⟩
  | function id =>
    simp only [writeLiteralValue, bind_eq_ok, Literal.function.injEq, forall_eq', reduceCtorEq, false_implies,
      implies_true, true_and]
    refine ⟨fun ⟨t, f, hf, _⟩ => ⟨f, hf⟩, fun ⟨f, hf⟩ => ⟨_, f, hf, rfl⟩⟩
  | float x =>
    refine iff_of_true ?_ (by simp)
    simp only [writeLiteralValue]
    repeat' split
    all_goals exact ⟨_, rfl⟩
  | _ => exact iff_of_true ⟨_, rfl⟩ (by simp)

theorem translate_ok_iff (st : Statement) :
    (∃ js, translate store formatDouble st = .ok js) ↔ ∀ x l, st = .variableDef x l → l.Writable store := by
  cases st with
  | variableDef x l =>
    have hl : (∀ x' l', Statement.variableDef x l = .variableDef x' l' → l'.Writable store) ↔ l.Writable store := by
      refine ⟨fun h => h x l rfl, ?_⟩
      rintro h x' l' ⟨⟩
      exact h
    rw [hl, ← @writeLiteralValue_ok_iff store formatDouble l, translate]
    cases writeLiteralValue store formatDouble l <;> simp [Except.map]
  | _ => exact iff_of_true ⟨_, rfl⟩ (by simp)

/-- **A script can be written if its literals can.** -/
theorem writeAll_ok_iff : (∃ p', (programWriter D store formatDouble).writeAll script p = .ok p') ↔
    ∀ l ∈ literalsOf script, l.Writable store := by
  induction script generalizing p with
  | nil => exact iff_of_true ⟨p, rfl⟩ (by simp [literalsOf])
  | cons st script ih =>
    have hst : (∀ l ∈ literalsOf (st :: script), l.Writable store) ↔
        (∀ x l, st = .variableDef x l → l.Writable store) ∧ ∀ l ∈ literalsOf script, l.Writable store := by
      cases st <;> simp [literalsOf]
    rw [hst, ← @translate_ok_iff store formatDouble st]
    simp only [Writer.writeAll, program_write, bind_eq_ok]
    cases translate store formatDouble st with
    | error e => simp [Except.map]
    | ok js =>
      have hrest := @ih ((p.requireName D (requiredName st js)).add js)
      simp only [Except.map, Except.ok.injEq, exists_eq_left', exists_eq', true_and, hrest]

end Programs

/-! ## Running programs -/

section Run

variable {σ V : Type} {E : Engine σ V} {D : Dialect} {store : CAFStore} {formatDouble : Double → StdString}
  {script : List Statement} {p p' : JsProgram} {e e' : Execution (Realm σ V) V}

theorem Engine.run_append {a b : List JsStatement} {x y z : JsExecution σ V} (h₁ : E.run a x = some y)
    (h₂ : E.run b y = some z) : E.run (a ++ b) x = some z := by
  induction a generalizing x with
  | nil =>
    cases h₁
    exact h₂
  | cons st a ih =>
    simp only [Engine.run, Option.bind_eq_bind, Option.bind_eq_some_iff] at h₁
    obtain ⟨x₁, hst, hrun⟩ := h₁
    simp only [List.cons_append, Engine.run, hst, Option.bind_eq_bind, Option.bind_some]
    exact ih hrun

/-- What an execution of statements looks like in JavaScript. -/
def Execution.js (e : Execution (Realm σ V) V) : JsExecution σ V := ⟨e.env, e.host⟩

/-- The program grows by statements that take the execution from `x` to `y`. -/
def Extends (E : Engine σ V) (p p' : JsProgram) (x y : JsExecution σ V) : Prop :=
  ∃ added, p'.statements = p.statements ++ added ∧ E.run added x = some y ∧ p'.imported = y.realm.imported

theorem Extends.imported {x y : JsExecution σ V} (h : Extends E p p' x y) : p'.imported = y.realm.imported := by
  obtain ⟨-, -, -, hi⟩ := h
  exact hi

theorem Extends.trans {p₁ p₂ p₃ : JsProgram} {x y z : JsExecution σ V} (h₁ : Extends E p₁ p₂ x y)
    (h₂ : Extends E p₂ p₃ y z) : Extends E p₁ p₃ x z := by
  obtain ⟨a, ha, hra, -⟩ := h₁
  obtain ⟨b, hb, hrb, hi⟩ := h₂
  exact ⟨a ++ b, by rw [hb, ha, List.append_assoc], Engine.run_append hra hrb, hi⟩

theorem extends_requireFor (name : StdString) {env : StdString → Option V} {r : Realm σ V}
    (hi : p.imported = r.imported) :
    Extends E p (p.requireFor D name) ⟨env, r⟩ ⟨env, r.requireFor E D name⟩ := by
  unfold JsProgram.requireFor Realm.requireFor
  cases D.moduleOf name with
  | none => exact ⟨[], by simp, rfl, hi⟩
  | some m =>
    by_cases hm : r.imported.contains m = true
    · simp only [hi, if_pos hm]
      exact ⟨[], by simp, rfl, hi⟩
    · simp only [hi, if_neg hm]
      refine ⟨[.require m], rfl, ?_, rfl⟩
      simp only [Engine.run, JsStatement.step, if_neg hm, Option.bind_eq_bind, Option.bind_some]

theorem extends_add {st : JsStatement} {x y : JsExecution σ V} (hst : st.step E x = some y)
    (hi : p.imported = y.realm.imported) : Extends E p (p.add st) x y := by
  refine ⟨[st], rfl, ?_, hi⟩
  simp only [Engine.run, hst, Option.bind_eq_bind, Option.bind_some]

theorem JsExecution.declare_of {x : StdString} {v : V} (h : Host.declare x v e = some e') :
    JsExecution.declare x v e.js = some e'.js := by
  obtain ⟨hx, rfl⟩ := Host.declare_eq h
  simp [declare, Execution.js, hx]

/-- The operands of the call that is written have the values of the call that is performed. -/
theorem valuesOf_writtenCall {env : StdString → Option V} {f recv : StdString} {ctor : Bool} {args : List StdString}
    {hs vs : List V} (hrecv : Host.receiver env recv = some hs) (hargs : Host.valuesOf env args = some vs) :
    let c := writtenCall f ctor ([recv].filter (!·.isEmpty)) args
    Host.valuesOf env c.args = some (writtenCall f ctor hs vs).args ∧ c.form = (writtenCall f ctor hs vs).form ∧
      c.functionName = (writtenCall f ctor hs vs).functionName := by
  unfold Host.receiver at hrecv
  cases ctor with
  | true => exact ⟨hargs, rfl, rfl⟩
  | false =>
    by_cases hr : recv.isEmpty = true
    · rw [if_pos hr] at hrecv
      cases hrecv
      simpa [writtenCall, hr] using hargs
    · rw [if_neg hr] at hrecv
      obtain ⟨v, hv, rfl⟩ := Option.map_eq_some_iff.1 hrecv
      simp [writtenCall, hr, Host.valuesOf, hv, hargs]

/-- One statement. -/
theorem run_statement {st : Statement} (hw : (programWriter D store formatDouble).write st p = .ok p')
    (hst : (E.host D store formatDouble).step st e = some e') (hi : p.imported = e.host.imported) :
    Extends E p p' e.js e'.js := by
  rw [program_write] at hw
  cases ht : translate store formatDouble st with
  | error err => rw [ht] at hw; cases hw
  | ok js =>
    rw [ht] at hw
    cases hw
    cases st with
    | variableDef x l =>
      cases hl : writeLiteralValue store formatDouble l with
      | error err => rw [translate, hl] at ht; cases ht
      | ok literal =>
        rw [translate, hl] at ht
        cases ht
        have htext : literalText store formatDouble l = literal := by simp only [literalText, hl]
        simp only [Host.step, Engine.host, htext] at hst
        -- only a function value may need its module
        have hreq : Extends E p (p.requireName D (requiredName (.variableDef x l) (.letLiteral x literal))) e.js
            ⟨e.env, e.host.requireForLiteral E D l literal⟩ := by
          cases l with
          | function id => exact extends_requireFor literal hi
          | _ => exact ⟨[], by simp [JsProgram.requireName, requiredName], rfl, hi⟩
        have hdecl := JsExecution.declare_of hst
        obtain ⟨-, rfl⟩ := Host.declare_eq hst
        exact hreq.trans (extends_add hdecl hreq.imported)
    | emptyArrayVariableDef x =>
      cases ht
      have hdecl := JsExecution.declare_of hst
      obtain ⟨-, rfl⟩ := Host.declare_eq hst
      exact extends_add hdecl hi
    | arrayPush x y =>
      cases ht
      simp only [Host.step, Option.bind_eq_bind, Option.bind_eq_some_iff, Option.pure_def, Option.some.injEq] at hst
      obtain ⟨a, ha, v, hv, rfl⟩ := hst
      refine extends_add ?_ hi
      simp only [JsStatement.step, Execution.js, ha, hv, Option.bind_eq_bind, Option.bind_some, Option.pure_def]
      rfl
    | functionCall ret f ctor recv args =>
      cases ht
      simp only [Host.step, Option.bind_eq_bind, Option.bind_eq_some_iff] at hst
      obtain ⟨hs, hrecv, vs, hvs, hst⟩ := hst
      obtain ⟨hargs, hform, hname⟩ := @valuesOf_writtenCall V e.env f recv ctor args hs vs hrecv hvs
      have hreq : Extends E p (p.requireFor D f) e.js ⟨e.env, e.host.requireFor E D f⟩ := extends_requireFor f hi
      have hdecl := JsExecution.declare_of hst
      obtain ⟨-, rfl⟩ := Host.declare_eq hst
      refine hreq.trans (extends_add ?_ ?_)
      · simp only [JsStatement.step, hargs, hform, hname, Option.bind_eq_bind, Option.bind_some]
        exact hdecl
      · rw [show (p.requireFor D f).imported = _ from hreq.imported]
        exact (Realm.evalCall_imported E _ _).symm

/-- **Running the program is running the script.** -/
theorem run_program (hw : (programWriter D store formatDouble).writeAll script p = .ok p')
    (hrun : (E.host D store formatDouble).run script e = some e') (hi : p.imported = e.host.imported) :
    Extends E p p' e.js e'.js := by
  induction script generalizing p e with
  | nil =>
    cases hw
    cases hrun
    exact ⟨[], by simp, rfl, hi⟩
  | cons st script ih =>
    simp only [Writer.writeAll, bind_eq_ok] at hw
    obtain ⟨p₁, hw₁, hw₂⟩ := hw
    simp only [Host.run, Option.bind_eq_bind, Option.bind_eq_some_iff] at hrun
    obtain ⟨e₁, hst, hrest⟩ := hrun
    have h₁ := run_statement hw₁ hst hi
    exact h₁.trans (ih hw₂ hrest h₁.imported)

end Run

end Caf
