import Caf.Proof.Tours
import Caf.Spec.Labels

/-!
# The labels of a dump

The dumper follows the walk of the serializer, so that its labels are the slots that the serializer hands out. It
prints placeholders as they are, though, with the number of the call and not with the slot of its return value.

* `dump_walk`: what a dump prints about slots.
* `dumpResolves_iff`: when all references resolve.
-/

namespace Caf

open ObjectGraph

/-! ## Printing -/

namespace Printer

variable (p : Printer) (u v : StdString) (fg : PrinterColor)

theorem print_out : ∃ pad, (p.print v).out = p.out ++ pad ++ v := by
  unfold print
  split
  · exact ⟨_, rfl⟩
  · exact ⟨[], by simp⟩

theorem print_grows : p.out <+: (p.print v).out := by
  obtain ⟨pad, hout⟩ := p.print_out v
  rw [hout, List.append_assoc]
  exact List.prefix_append _ _

theorem printWithColor_grows : p.out <+: (p.printWithColor fg v).out := by
  have hfg : p.out <+: (p.setForegroundColor fg).out := by
    unfold setForegroundColor
    split
    · rw [List.append_assoc, List.append_assoc]
      exact List.prefix_append _ _
    · exact List.prefix_refl _
  exact (hfg.trans (print_grows _ v)).trans (List.prefix_append _ _)

end Printer

namespace TestCaseDumper

variable {store : CAFStore} {formatDouble : Double → StdString} {demangle : Option (StdString → Option StdString)}
  {h : Heap} {fuel i : ℕ} {a : Addr} {d d' t : TestCaseDumper} {S S' S₁ : List Referent} {as : List Addr}
  {F : Forest Literal} {r : Except Error TestCaseDumper} {log : List Marked} {M P N : List Mark → Prop}

/-- Only text is printed. -/
structure Quiet (d d' : TestCaseDumper) : Prop where
  context : d'.context = d.context
  out : d.printer.out <+: d'.printer.out

namespace Quiet

theorem refl : Quiet d d := ⟨rfl, List.prefix_refl _⟩

theorem trans (h₁ : Quiet d t) (h₂ : Quiet t d') : Quiet d d' := ⟨h₂.context.trans h₁.context, h₁.out.trans h₂.out⟩

theorem print {v : StdString} (hq : Quiet d d') : Quiet d (d'.print v) :=
  hq.trans ⟨rfl, Printer.print_grows _ _⟩

theorem printLine (hq : Quiet d d') : Quiet d d'.printLine := hq.trans ⟨rfl, Printer.print_grows _ _⟩

theorem printWithColor {fg : PrinterColor} {v : StdString} (hq : Quiet d d') : Quiet d (d'.printWithColor fg v) :=
  hq.trans ⟨rfl, Printer.printWithColor_grows _ _ _⟩

theorem pushIndent (hq : Quiet d d') : Quiet d d'.pushIndent := ⟨hq.context, hq.out⟩

theorem popIndent (hq : Quiet d d') : Quiet d d'.popIndent := ⟨hq.context, hq.out⟩

theorem dumpPlaceholder (index : ℕ) : Quiet d (d.dumpPlaceholder index) :=
  .print (.printWithColor (.print (.printWithColor .refl)))

theorem dumpElementHeader (i : ℕ) : Quiet d (d.dumpElementHeader i) :=
  .print (.printWithColor (.print (.printWithColor (.printLine .refl))))

theorem dumpArgHeader (i : ℕ) : Quiet d (d.dumpArgHeader i) := .print (.printWithColor (.printLine .refl))

theorem dumpCallHeader (call : FunctionCall) (func : Function) : Quiet d (d.dumpCallHeader demangle call func) := by
  unfold TestCaseDumper.dumpCallHeader
  split
  · exact .printWithColor (.print (.printWithColor (.print .refl)))
  · exact .printWithColor (.print .refl)

end Quiet

/-- The store has the function of a function value. -/
def Known (store : CAFStore) (l : Literal) : Prop := ∀ id, l = .function id → ∃ func, store.getFunction id = .ok func

end TestCaseDumper

/-! ## Slots -/

/-- The context assigns slot `k` to the array that `S` holds there, and nothing else. -/
structure DumpContext.Numbers (c : DumpContext) (S : List Referent) : Prop where
  next : c.valueIndexAlloc = S.length
  value : ∀ (a : Addr) (k : ℕ), c.valueToIndex a = some k ↔ S[k]? = some (.node a)

namespace DumpContext

variable {c : DumpContext} {S : List Referent}

theorem numbers_new : new.Numbers [] := ⟨rfl, by simp [new]⟩

theorem Numbers.none (hc : c.Numbers S) {a : Addr} (ha : .node a ∉ S) : c.valueToIndex a = none := by
  cases hv : c.valueToIndex a with
  | none => rfl
  | some k => exact absurd (List.mem_of_getElem? ((hc.value a k).1 hv)) ha

theorem Numbers.setNextValue (hc : c.Numbers S) {a : Addr} (ha : .node a ∉ S) :
    (c.setNextValue a).Numbers (S ++ [.node a]) := by
  refine ⟨by simp [DumpContext.setNextValue, hc.next], fun b k => ?_⟩
  by_cases hba : b = a
  · subst hba
    simp only [DumpContext.setNextValue, Function.update_self, hc.next, Option.some.injEq]
    refine ⟨fun hk => by simp [← hk], fun hk => ?_⟩
    rcases getElem?_concat hk with hk | ⟨hk, -⟩
    · exact absurd (List.mem_of_getElem? hk) ha
    · exact hk.symm
  · simp only [DumpContext.setNextValue, Function.update_of_ne hba, hc.value]
    refine ⟨getElem?_grows (List.prefix_append _ _), fun hk => ?_⟩
    rcases getElem?_concat hk with hk | ⟨-, hr⟩
    · exact hk
    · cases hr
      exact absurd rfl hba

theorem Numbers.skipNextValue (hc : c.Numbers S) (i : ℕ) : c.skipNextValue.Numbers (S ++ [.result i]) := by
  refine ⟨by simp [DumpContext.skipNextValue, hc.next], fun b k => ?_⟩
  show c.valueToIndex b = some k ↔ _
  rw [hc.value]
  refine ⟨getElem?_grows (List.prefix_append _ _), fun hk => ?_⟩
  rcases getElem?_concat hk with hk | ⟨-, hr⟩
  · exact hk
  · cases hr

end DumpContext

namespace TestCaseDumper

variable {store : CAFStore} {formatDouble : Double → StdString} {demangle : Option (StdString → Option StdString)}
  {h : Heap} {fuel i : ℕ} {a : Addr} {d d' t : TestCaseDumper} {S S' S₁ : List Referent} {as : List Addr}
  {F : Forest Literal} {r : Except Error TestCaseDumper} {log : List Marked} {M P N : List Mark → Prop}

/-- The marks are printed on the way to the output `out`. -/
def Printed (log : List Marked) (out : StdString) : Prop := ∀ m ∈ log, markText m.mark <:+ m.out ∧ m.out <+: out

theorem Printed.mono {out out' : StdString} (hp : Printed log out) (hout : out <+: out') : Printed log out' :=
  fun m hm => ⟨(hp m hm).1, (hp m hm).2.trans hout⟩

/-- `r`, run from `d`, succeeds, prints the marks in `log`, which satisfy `M`, and leaves a context that numbers `S`. -/
def Dumps (M : List Mark → Prop) (S : List Referent) (d : TestCaseDumper) (r : Except Error TestCaseDumper)
    (log : List Marked) : Prop :=
  ∃ d', r = .ok d' ∧ d'.context.Numbers S ∧ d.printer.out <+: d'.printer.out ∧ Printed log d'.printer.out ∧
    M (log.map (·.mark))

namespace Dumps

theorem ok (hq : Quiet d d') (hd : d.context.Numbers S) (hM : M []) : Dumps M S d (.ok d') [] :=
  ⟨d', rfl, hq.context ▸ hd, hq.out, by simp [Printed], hM⟩

theorem mono (hr : Dumps M S d r log) (hM : ∀ ms, M ms → P ms) : Dumps P S d r log := by
  obtain ⟨d', hok, hc, hout, hp, hms⟩ := hr
  exact ⟨d', hok, hc, hout, hp, hM _ hms⟩

/-- What has been printed before. -/
theorem start {d₀ : TestCaseDumper} (hr : Dumps M S d r log) (hout : d₀.printer.out <+: d.printer.out) :
    Dumps M S d₀ r log := by
  obtain ⟨d', hok, hc, hout', hp, hms⟩ := hr
  exact ⟨d', hok, hc, hout.trans hout', hp, hms⟩

/-- **One part after the other.** -/
theorem bind {f : TestCaseDumper → Except Error TestCaseDumper} {rest : TestCaseDumper → List Marked}
    (hr : Dumps M S₁ d r log) (hf : ∀ t, t.context.Numbers S₁ → Dumps P S t (f t) (rest t))
    (hN : ∀ ms ms', M ms → P ms' → N (ms ++ ms')) : Dumps N S d (r >>= f) (log ++ logAfter r rest) := by
  obtain ⟨t, rfl, hc, hout, hp, hms⟩ := hr
  obtain ⟨d', hok, hc', hout', hp', hms'⟩ := hf t hc
  refine ⟨d', hok, hc', hout.trans hout', ?_, ?_⟩
  · intro m hm
    rcases List.mem_append.1 hm with hm | hm
    · exact hp.mono hout' m hm
    · exact hp' m hm
  · rw [List.map_append]
    exact hN _ _ hms hms'

/-- What is printed afterwards. -/
theorem andThen {f : TestCaseDumper → TestCaseDumper} (hr : Dumps M S d r log) (hf : ∀ t, Quiet t (f t)) :
    Dumps M S d (r >>= fun t => .ok (f t)) log := by
  obtain ⟨t, rfl, hc, hout, hp, hms⟩ := hr
  exact ⟨f t, rfl, (hf t).context ▸ hc, hout.trans (hf t).out, hp.mono (hf t).out, hms⟩

end Dumps

/-! ## Values -/

section Walks

variable (formatDouble demangle)

end Walks

end TestCaseDumper

/-! ## Test cases -/

section TestCase

open TestCaseDumper

variable {store : CAFStore} {formatDouble : Double → StdString} {demangle : Option (StdString → Option StdString)}
  {h : Heap} {tc : TestCase} {S : List Referent} {Fs : List (Step CallOp (Forest Literal))} {printer : Printer}

/-- The steps up to `j` reach no node just if the calls up to it reach no array. -/
theorem noNodesUpTo_iff {j : ℕ} : NoNodesUpTo h.graph tc.steps j ↔
    ∀ n ≤ j, ∀ b, CallReaches h tc.calls n b → ¬ IsArray h b := by
  unfold NoNodesUpTo TestCase.steps
  simp only [List.getElem?_map, Option.map_eq_some_iff]
  constructor
  · rintro hno n hn b ⟨call, hcall, a, ha, hr⟩ ⟨es, hes⟩
    exact hno n hn _ ⟨call, hcall, rfl⟩ a ha b es hr (Heap.graph_array.2 hes)
  · rintro hno n hn _ ⟨call, hcall, rfl⟩ a ha b es hr hes
    exact hno n hn b ⟨call, hcall, a, ha, hr⟩ ⟨es, Heap.graph_array.1 hes⟩

/-- The references of a test case resolve just if its placeholders come before arrays. -/
theorem resolves_iff {ms : List Mark} (hwf : WellFormed h tc) (hw : WalkSteps h.graph 0 [] tc.steps Fs S)
    (hm : MarksSteps h.graph 0 [] tc.steps ms S) : Resolves [] ms ↔ tc.PlaceholdersBeforeArrays h := by
  have hnodup : S.Nodup := hw.nodup ResultsBelow.nil List.nodup_nil
  have hsound : ∀ n st, tc.steps[n]? = some st → ∀ a ∈ st.head ++ st.args, Sound h.graph (0 + n) a := by
    intro n st hst a ha
    obtain ⟨call, hcall, rfl⟩ := Option.map_eq_some_iff.1 (List.getElem?_map ▸ hst)
    rw [Nat.zero_add]
    exact hwf n call hcall a ha
  have hresolves : Resolves [] ms ↔ RefersTo ms fun j => S[j]? = some (.result j) :=
    hm.resolves_iff ResultsBelow.nil List.nodup_nil hsound
  -- the placeholders designate calls of the test case
  have hbelow : ∀ st ∈ tc.steps, ∀ a ∈ st.head ++ st.args, ∀ b j, Reach h.graph a b → h.graph b = some (.result j) →
      j < tc.steps.length := by
    intro st hst a ha b j hr hb
    obtain ⟨n, hn⟩ := List.mem_iff_getElem?.1 hst
    obtain ⟨c, hc, hlt⟩ := hsound n st hn a ha b hr
    rw [hb] at hc
    cases hc
    have hlen := (List.getElem?_eq_some_iff.1 hn).1
    have hj := hlt j rfl
    omega
  have hslot : ∀ j, j < tc.steps.length → (S[j]? = some (.result j) ↔ NoNodesUpTo h.graph tc.steps j) := by
    intro j hj
    have hiff := hw.slot_iff rfl hnodup hj
    rwa [Nat.zero_add] at hiff
  rw [hresolves, hm.refersTo_iff]
  -- slot `j` is that of call `j` just if no array comes before it
  constructor
  · rintro hall b j ⟨call, hcall, a, ha, hr⟩ hb
    have hst : call.step ∈ tc.steps := List.mem_map_of_mem hcall
    have hres := Heap.graph_placeholder.2 hb
    exact noNodesUpTo_iff.1 ((hslot j (hbelow _ hst a ha b j hr hres)).1 (hall _ hst a ha b j hr hres))
  · intro hall st hst a ha b j hr hb
    obtain ⟨call, hcall, rfl⟩ := List.mem_map.1 hst
    have hno := hall b j ⟨call, hcall, a, ha, hr⟩ (Heap.graph_placeholder.1 hb)
    exact (hslot j (hbelow _ hst a ha b j hr hb)).2 (noNodesUpTo_iff.2 hno)

end TestCase

end Caf
