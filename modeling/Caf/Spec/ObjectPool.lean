import Mathlib.Logic.Function.Basic
import Caf.Spec.Value

/-!
# The object pool

`ObjectPool` owns the `Value` objects, so the heap is a part of it; the other fields are
its tables. `ObjectPoolOK` says what the tables designate, and every operation keeps it.

* `getLiteral_gives`: the object returned for a literal stands for it.
* `getPlaceholderValue_gives`: the object returned for an index is its placeholder.
* `push_get_ne`, `push_get_self`: what a push changes.
-/

namespace Caf

structure ObjectPool where
  heap : Heap
  values : List Addr
  undef : Option Addr
  null : Option Addr
  funcValues : FunctionIdType → Option Addr
  bool : Bool → Option Addr
  strToValue : StdString → Option Addr
  intTable : ℕ → Option Addr
  nan : Option Addr
  inf : Option Addr
  negInf : Option Addr
  arrayValues : List Addr
  placeholderValues : List (Option Addr)

def integerTableSize : ℕ := 500
def integerBias : Int := 100
def maxStringLenInTable : ℕ := 10
def placeholderTableInitSize : ℕ := 10

namespace ObjectPool

/-- `ObjectPool::ObjectPool`. -/
def new : ObjectPool where
  heap := []
  values := []
  undef := none
  null := none
  funcValues := fun _ => none
  bool := fun _ => none
  strToValue := fun _ => none
  intTable := fun _ => none
  nan := none
  inf := none
  negInf := none
  arrayValues := []
  placeholderValues := List.replicate placeholderTableInitSize none

/-- `caf::make_unique<T>(...)`. -/
def allocate (p : ObjectPool) (v : Value) : Addr × ObjectPool :=
  (p.heap.length, { p with heap := p.heap ++ [v] })

/-- `CreateValue<T>`. -/
def createValue (p : ObjectPool) (v : Value) : Addr × ObjectPool :=
  let (a, p) := p.allocate v
  (a, { p with values := p.values ++ [a] })

/-- `get_or_create(ptr, args...)`, where `set` stores the new pointer. -/
def getOrCreate (p : ObjectPool) (ptr : Option Addr) (v : Value)
    (set : Addr → ObjectPool → ObjectPool) : Addr × ObjectPool :=
  match ptr with
  | some a => (a, p)
  | none =>
    let (a, p) := p.allocate v
    (a, set a p)

def getUndefinedValue (p : ObjectPool) : Addr × ObjectPool :=
  p.getOrCreate p.undef (.literal .undefined) fun a p => { p with undef := some a }

def getNullValue (p : ObjectPool) : Addr × ObjectPool :=
  p.getOrCreate p.null (.literal .null) fun a p => { p with null := some a }

def getFunctionValue (p : ObjectPool) (funcId : FunctionIdType) : Addr × ObjectPool :=
  p.getOrCreate (p.funcValues funcId) (.literal (.function funcId)) fun a p =>
    { p with funcValues := Function.update p.funcValues funcId (some a) }

def getBooleanValue (p : ObjectPool) (value : Bool) : Addr × ObjectPool :=
  p.getOrCreate (p.bool value) (.literal (.boolean value)) fun a p =>
    { p with bool := Function.update p.bool value (some a) }

def getOrCreateStringValue (p : ObjectPool) (s : StdString) : Addr × ObjectPool :=
  if s.length ≤ maxStringLenInTable then
    match p.strToValue s with
    | some a => (a, p)
    | none =>
      let (a, p) := p.createValue (.literal (.string s))
      (a, { p with strToValue := Function.update p.strToValue s (some a) })
  else
    p.createValue (.literal (.string s))

/-- The index of an integer in the integer table, if it has one. A negative sum is a huge
`size_t`, so it is not below the size of the table. -/
def integerIndex (value : Int32) : Option ℕ :=
  if value.toInt ≤ 2147483647 - integerBias then
    let index := value.toInt + integerBias
    if 0 ≤ index ∧ index < integerTableSize then some index.toNat else none
  else
    none

def getOrCreateIntegerValue (p : ObjectPool) (value : Int32) : Addr × ObjectPool :=
  match integerIndex value with
  | some index =>
    match p.intTable index with
    | some a => (a, p)
    | none =>
      let (a, p) := p.createValue (.literal (.integer value))
      (a, { p with intTable := Function.update p.intTable index (some a) })
  | none => p.createValue (.literal (.integer value))

def getOrCreateFloatValue (p : ObjectPool) (value : Double) : Addr × ObjectPool :=
  if value.isNaN then
    p.getOrCreate p.nan (.literal (.float .quietNaN)) fun a p => { p with nan := some a }
  else if value.isInf then
    if value.signBit = false then
      p.getOrCreate p.inf (.literal (.float .infinity)) fun a p => { p with inf := some a }
    else
      -- the source uses `_inf` for the negative infinity as well
      p.getOrCreate p.inf (.literal (.float .negInfinity)) fun a p => { p with inf := some a }
  else
    p.createValue (.literal (.float value))

def createArrayValue (p : ObjectPool) : Addr × ObjectPool :=
  let (a, p) := p.allocate (.array [])
  (a, { p with arrayValues := p.arrayValues ++ [a] })

def getPlaceholderValue (p : ObjectPool) (index : ℕ) : Addr × ObjectPool :=
  let table :=
    if p.placeholderValues.length ≤ index then
      p.placeholderValues ++ List.replicate (index + 1 - p.placeholderValues.length) none
    else
      p.placeholderValues
  let p := { p with placeholderValues := table }
  p.getOrCreate (table[index]?.join) (.placeholder index) fun a p =>
    { p with placeholderValues := p.placeholderValues.set index (some a) }

/-- `clear`. -/
def clear (p : ObjectPool) : ObjectPool :=
  { p with values := [], strToValue := fun _ => none, intTable := fun _ => none }

/-- `ArrayValue::Push` on the array at `a`. -/
def push (p : ObjectPool) (a e : Addr) : ObjectPool :=
  match p.heap[a]? with
  | some (.array es) => { p with heap := p.heap.set a (.array (es ++ [e])) }
  | _ => p

end ObjectPool

/-- The literal that the pool's object for `l` holds: a NaN is represented by the quiet NaN. -/
def Literal.pooled : Literal → Literal
  | .float x => if x.isNaN then .float .quietNaN else .float x
  | l => l

theorem Literal.pooled_nan {x : Double} (h : x.isNaN = true) :
    (Literal.float x).pooled = .float .quietNaN := by
  simp [pooled, h]

theorem Literal.pooled_float {x : Double} (h : x.isNaN = false) :
    (Literal.float x).pooled = .float x := by
  simp [pooled, h]

/-- The literal with all infinities as one and all NaNs as one. -/
def Literal.blurred : Literal → Literal
  | .float x => if x.isNaN then .float .quietNaN else if x.isInf then .float .infinity else .float x
  | l => l

theorem Literal.blurred_pooled (l : Literal) : l.pooled.blurred = l.blurred := by
  cases l with
  | float x =>
    by_cases hx : x.isNaN = true
    · rw [pooled_nan hx, blurred, blurred, if_pos hx, if_pos (by decide)]
    · rw [pooled_float (by simpa using hx)]
  | _ => rfl

theorem Double.isNaN_of_isInf {x : Double} (h : x.isInf = true) : x.isNaN = false := by
  unfold Double.isInf at h
  rw [beq_iff_eq] at h
  simp [Double.isNaN, h]

theorem Literal.blurred_inf {x : Double} (hx : x.isInf = true) : (Literal.float x).blurred = .float .infinity := by
  simp [blurred, Double.isNaN_of_isInf hx, hx]

/-- The pool's object for a literal, by its kind. -/
def ObjectPool.getLiteral (p : ObjectPool) : Literal → Addr × ObjectPool
  | .undefined => p.getUndefinedValue
  | .null => p.getNullValue
  | .boolean b => p.getBooleanValue b
  | .string s => p.getOrCreateStringValue s
  | .function id => p.getFunctionValue id
  | .integer i => p.getOrCreateIntegerValue i
  | .float x => p.getOrCreateFloatValue x

/-- What the tables of a pool designate. -/
structure ObjectPoolOK (p : ObjectPool) : Prop where
  undef : ∀ a, p.undef = some a → p.heap[a]? = some (.literal .undefined)
  null : ∀ a, p.null = some a → p.heap[a]? = some (.literal .null)
  funcValues : ∀ id a, p.funcValues id = some a → p.heap[a]? = some (.literal (.function id))
  bool : ∀ b a, p.bool b = some a → p.heap[a]? = some (.literal (.boolean b))
  strToValue : ∀ s a, p.strToValue s = some a → p.heap[a]? = some (.literal (.string s))
  intTable : ∀ i a, p.intTable i = some a →
    ∃ v : Int32, ObjectPool.integerIndex v = some i ∧ p.heap[a]? = some (.literal (.integer v))
  nan : ∀ a, p.nan = some a → p.heap[a]? = some (.literal (.float .quietNaN))
  inf : ∀ a, p.inf = some a → ∃ x : Double, x.isInf = true ∧ p.heap[a]? = some (.literal (.float x))
  values : ∀ a ∈ p.values, ∃ l, p.heap[a]? = some (.literal l)
  placeholderValues : ∀ (i : ℕ) a, p.placeholderValues[i]? = some (some a) →
    p.heap[a]? = some (.placeholder i)

namespace ObjectPool

variable {p : ObjectPool}

/-- The heap has only grown. -/
def Extends (p q : ObjectPool) : Prop := p.heap <+: q.heap

theorem Extends.refl (p : ObjectPool) : p.Extends p := List.prefix_refl _

theorem Extends.trans {q r : ObjectPool} (h : p.Extends q) (h' : q.Extends r) : p.Extends r :=
  List.IsPrefix.trans h h'

theorem Extends.get {q : ObjectPool} (h : p.Extends q) {a : Addr} {v : Value}
    (ha : p.heap[a]? = some v) : q.heap[a]? = some v :=
  ObjectGraph.getElem?_grows h ha

theorem new_ok : ObjectPoolOK new where
  undef := by simp [new]
  null := by simp [new]
  funcValues := by simp [new]
  bool := by simp [new]
  strToValue := by simp [new]
  intTable := by simp [new]
  nan := by simp [new]
  inf := by simp [new]
  values := by simp [new]
  placeholderValues := by
    intro i a h
    have hm := List.mem_of_getElem? h
    simp [new] at hm

theorem allocate_get (v : Value) : (p.allocate v).2.heap[(p.allocate v).1]? = some v := by
  simp [allocate]

theorem allocate_extends (v : Value) : p.Extends (p.allocate v).2 := List.prefix_append _ _

end ObjectPool

variable {p : ObjectPool}

/-- Tables stay right when the heap grows and no table changes. -/
theorem ObjectPoolOK.grow (h : ObjectPoolOK p) {heap : Heap} {arrays : List Addr} (hx : p.heap <+: heap) :
    ObjectPoolOK { p with heap := heap, arrayValues := arrays } := by
  have get : ∀ {a : Addr} {v : Value}, p.heap[a]? = some v → heap[a]? = some v := fun ha =>
    ObjectGraph.getElem?_grows hx ha
  exact {
    undef := fun a ha => get (h.undef a ha)
    null := fun a ha => get (h.null a ha)
    funcValues := fun i a ha => get (h.funcValues i a ha)
    bool := fun b a ha => get (h.bool b a ha)
    strToValue := fun s a ha => get (h.strToValue s a ha)
    intTable := fun i a ha =>
      let ⟨v, hv, hg⟩ := h.intTable i a ha
      ⟨v, hv, get hg⟩
    nan := fun a ha => get (h.nan a ha)
    inf := fun a ha =>
      let ⟨x, hv, hg⟩ := h.inf a ha
      ⟨x, hv, get hg⟩
    values := fun a ha =>
      let ⟨l, hl⟩ := h.values a ha
      ⟨l, get hl⟩
    placeholderValues := fun i a ha => get (h.placeholderValues i a ha) }

/-- An operation returned an object that holds `v`. -/
structure Gives (p : ObjectPool) (v : Value) (r : Addr × ObjectPool) : Prop where
  ok : ObjectPoolOK r.2
  ext : p.Extends r.2
  get : r.2.heap[r.1]? = some v

namespace ObjectPool

theorem allocate_gives (h : ObjectPoolOK p) (v : Value) : Gives p v (p.allocate v) :=
  ⟨h.grow (allocate_extends v), allocate_extends v, allocate_get v⟩

theorem createValue_gives (h : ObjectPoolOK p) (l : Literal) :
    Gives p (.literal l) (p.createValue (.literal l)) := by
  have hg := allocate_gives h (.literal l)
  refine ⟨{ hg.ok with values := fun a ha => ?_ }, hg.ext, hg.get⟩
  rcases List.mem_append.1 ha with ha | ha
  · exact hg.ok.values a ha
  · rw [List.mem_singleton.1 ha]; exact ⟨l, hg.get⟩

theorem getOrCreate_gives (h : ObjectPoolOK p) {ptr : Option Addr} {v : Value}
    {set : Addr → ObjectPool → ObjectPool} (hptr : ∀ a, ptr = some a → p.heap[a]? = some v)
    (hset : ∀ a q, ObjectPoolOK q → q.heap[a]? = some v →
      ObjectPoolOK (set a q) ∧ (set a q).heap = q.heap) :
    Gives p v (p.getOrCreate ptr v set) := by
  unfold getOrCreate
  cases ptr with
  | some a => exact ⟨h, Extends.refl p, hptr a rfl⟩
  | none =>
    have hg := allocate_gives h v
    obtain ⟨h₁, h₂⟩ := hset _ _ hg.ok hg.get
    refine ⟨h₁, ?_, ?_⟩
    · unfold Extends; rw [h₂]; exact hg.ext
    · simp only [h₂]; exact hg.get

/-- Another pointer is set. -/
theorem getOrCreate_inf {ptr : Option Addr} {v : Value} {set : Addr → ObjectPool → ObjectPool}
    (hset : ∀ a q, (set a q).inf = q.inf) : (p.getOrCreate ptr v set).2.inf = p.inf := by
  unfold getOrCreate
  cases ptr with
  | some a => rfl
  | none => exact hset _ _

theorem getUndefinedValue_gives (h : ObjectPoolOK p) :
    Gives p (.literal .undefined) p.getUndefinedValue := by
  unfold getUndefinedValue
  refine getOrCreate_gives h h.undef ?_
  intro a q hq hg
  exact ⟨{ hq with undef := fun b hb => by rw [← Option.some.inj hb]; exact hg }, rfl⟩

theorem getNullValue_gives (h : ObjectPoolOK p) : Gives p (.literal .null) p.getNullValue := by
  unfold getNullValue
  refine getOrCreate_gives h h.null ?_
  intro a q hq hg
  exact ⟨{ hq with null := fun b hb => by rw [← Option.some.inj hb]; exact hg }, rfl⟩

theorem getBooleanValue_gives (h : ObjectPoolOK p) (b : Bool) :
    Gives p (.literal (.boolean b)) (p.getBooleanValue b) := by
  unfold getBooleanValue
  refine getOrCreate_gives h (h.bool b) ?_
  intro a q hq hg
  refine ⟨{ hq with bool := fun c d hd => ?_ }, rfl⟩
  by_cases hcb : c = b
  · subst hcb
    simp only [Function.update_self, Option.some.injEq] at hd
    exact hd ▸ hg
  · simp only [Function.update_of_ne hcb] at hd
    exact hq.bool c d hd

theorem getFunctionValue_gives (h : ObjectPoolOK p) (id : FunctionIdType) :
    Gives p (.literal (.function id)) (p.getFunctionValue id) := by
  unfold getFunctionValue
  refine getOrCreate_gives h (h.funcValues id) ?_
  intro a q hq hg
  refine ⟨{ hq with funcValues := fun c d hd => ?_ }, rfl⟩
  by_cases hci : c = id
  · subst hci
    simp only [Function.update_self, Option.some.injEq] at hd
    exact hd ▸ hg
  · simp only [Function.update_of_ne hci] at hd
    exact hq.funcValues c d hd

theorem getOrCreateStringValue_gives (h : ObjectPoolOK p) (s : StdString) :
    Gives p (.literal (.string s)) (p.getOrCreateStringValue s) := by
  have hg := createValue_gives h (.string s)
  unfold getOrCreateStringValue
  split
  · split
    · exact ⟨h, Extends.refl p, h.strToValue s _ ‹_›⟩
    · refine ⟨{ hg.ok with strToValue := fun t a ha => ?_ }, hg.ext, hg.get⟩
      by_cases hts : t = s
      · subst hts
        simp only [Function.update_self, Option.some.injEq] at ha
        exact ha ▸ hg.get
      · simp only [Function.update_of_ne hts] at ha
        exact hg.ok.strToValue t a ha
  · exact hg

theorem integerIndex_eq {v : Int32} {i : ℕ} (hv : integerIndex v = some i) :
    0 ≤ v.toInt + integerBias ∧ i = (v.toInt + integerBias).toNat := by
  unfold integerIndex at hv
  dsimp only at hv
  split_ifs at hv with h₁ h₂
  exact ⟨h₂.1, (Option.some.inj hv).symm⟩

theorem integerIndex_inj {v w : Int32} {i : ℕ} (hv : integerIndex v = some i)
    (hw : integerIndex w = some i) : v = w := by
  obtain ⟨h₁, h₂⟩ := integerIndex_eq hv
  obtain ⟨h₃, h₄⟩ := integerIndex_eq hw
  have : v.toInt = w.toInt := by omega
  exact Int32.toInt_inj.1 this

theorem getOrCreateIntegerValue_gives (h : ObjectPoolOK p) (value : Int32) :
    Gives p (.literal (.integer value)) (p.getOrCreateIntegerValue value) := by
  have hg := createValue_gives h (.integer value)
  unfold getOrCreateIntegerValue
  split
  · rename_i i hi
    split
    · rename_i a ha
      obtain ⟨w, hw, hget⟩ := h.intTable i a ha
      rw [integerIndex_inj hw hi] at hget
      exact ⟨h, Extends.refl p, hget⟩
    · refine ⟨{ hg.ok with intTable := fun j a ha => ?_ }, hg.ext, hg.get⟩
      by_cases hji : j = i
      · subst hji
        simp only [Function.update_self, Option.some.injEq] at ha
        exact ⟨value, hi, ha ▸ hg.get⟩
      · simp only [Function.update_of_ne hji] at ha
        exact hg.ok.intTable j a ha
  · exact hg

/-- Every float but an infinity is represented, a NaN by the quiet NaN. -/
theorem getOrCreateFloatValue_gives (h : ObjectPoolOK p) (x : Double) (hx : x.isInf = false) :
    Gives p (.literal (Literal.float x).pooled) (p.getOrCreateFloatValue x) := by
  unfold getOrCreateFloatValue
  by_cases hn : x.isNaN = true
  · rw [Literal.pooled_nan hn, if_pos hn]
    refine getOrCreate_gives h h.nan ?_
    intro a q hq hg
    exact ⟨{ hq with nan := fun b hb => by rw [← Option.some.inj hb]; exact hg }, rfl⟩
  · rw [Literal.pooled_float (by simpa using hn), if_neg hn, if_neg (by simp [hx])]
    exact createValue_gives h (.float x)

/-- An infinity is represented by some infinity. -/
theorem getOrCreateFloatValue_inf (h : ObjectPoolOK p) (x : Double) (hx : x.isInf = true) :
    ∃ y : Double, y.isInf = true ∧ Gives p (.literal (.float y)) (p.getOrCreateFloatValue x) := by
  have hn := Double.isNaN_of_isInf hx
  have key : ∀ y : Double, y.isInf = true → ∃ z : Double, z.isInf = true ∧
      Gives p (.literal (.float z)) (p.getOrCreate p.inf (.literal (.float y))
        fun a p => { p with inf := some a }) := by
    intro y hy
    cases hi : p.inf with
    | some a =>
      obtain ⟨z, hz, hg⟩ := h.inf a hi
      exact ⟨z, hz, h, Extends.refl p, hg⟩
    | none =>
      refine ⟨y, hy, ?_⟩
      refine getOrCreate_gives h (by simp) ?_
      intro a q hq hg
      exact ⟨{ hq with inf := fun b hb => ⟨y, hy, by rw [← Option.some.inj hb]; exact hg⟩ }, rfl⟩
  unfold getOrCreateFloatValue
  rw [if_neg (by simp [hn]), if_pos hx]
  split
  · exact key _ (by decide)
  · exact key _ (by decide)

/-- **The object returned for a literal stands for it.** -/
theorem getLiteral_gives (h : ObjectPoolOK p) (l : Literal)
    (hl : ∀ x : Double, l = .float x → x.isInf = false) :
    Gives p (.literal l.pooled) (p.getLiteral l) := by
  cases l with
  | undefined => exact getUndefinedValue_gives h
  | null => exact getNullValue_gives h
  | boolean b => exact getBooleanValue_gives h b
  | string s => exact getOrCreateStringValue_gives h s
  | function id => exact getFunctionValue_gives h id
  | integer i => exact getOrCreateIntegerValue_gives h i
  | float x => exact getOrCreateFloatValue_gives h x (hl x rfl)

/-- Any literal is represented, up to infinities. -/
theorem getLiteral_gives_blurred (h : ObjectPoolOK p) (l : Literal) :
    ∃ l', Gives p (.literal l') (p.getLiteral l) ∧ l'.blurred = l.blurred := by
  by_cases hl : ∀ x : Double, l = .float x → x.isInf = false
  · exact ⟨_, getLiteral_gives h l hl, l.blurred_pooled⟩
  · push Not at hl
    obtain ⟨x, rfl, hx⟩ := hl
    have hx : x.isInf = true := by simpa using hx
    obtain ⟨y, hy, hg⟩ := getOrCreateFloatValue_inf h x hx
    exact ⟨_, hg, by rw [Literal.blurred_inf hx, Literal.blurred_inf hy]⟩

/-- **The object returned for an index is its placeholder.** -/
theorem getPlaceholderValue_gives (h : ObjectPoolOK p) (index : ℕ) :
    Gives p (.placeholder index) (p.getPlaceholderValue index) := by
  unfold getPlaceholderValue
  set table := if p.placeholderValues.length ≤ index then
      p.placeholderValues ++ List.replicate (index + 1 - p.placeholderValues.length) none
    else p.placeholderValues with htable
  -- growing the table adds null pointers only
  have hgrow : ∀ (i : ℕ) a, table[i]? = some (some a) → p.placeholderValues[i]? = some (some a) := by
    intro i a hi
    rw [htable] at hi
    split at hi
    · rcases Nat.lt_or_ge i p.placeholderValues.length with hlt | hge
      · rwa [List.getElem?_append_left hlt] at hi
      · rw [List.getElem?_append_right hge] at hi
        have := List.mem_of_getElem? hi
        simp at this
    · exact hi
  have hp : ObjectPoolOK { p with placeholderValues := table } :=
    { h with placeholderValues := fun i a hi => h.placeholderValues i a (hgrow i a hi) }
  have hptr : ∀ a, table[index]?.join = some a → p.heap[a]? = some (.placeholder index) := fun a ha =>
    h.placeholderValues index a (hgrow index a (Option.join_eq_some_iff.1 ha))
  suffices hs : Gives { p with placeholderValues := table } (.placeholder index)
      ({ p with placeholderValues := table }.getOrCreate table[index]?.join (.placeholder index) fun a p =>
        { p with placeholderValues := p.placeholderValues.set index (some a) }) from
    ⟨hs.ok, hs.ext, hs.get⟩
  refine getOrCreate_gives hp hptr ?_
  · intro a q hq hg
    refine ⟨{ hq with placeholderValues := fun i b hi => ?_ }, rfl⟩
    rw [List.getElem?_set] at hi
    split at hi
    · rename_i hii
      subst hii
      split at hi
      · cases hi; exact hg
      · cases hi
    · exact hq.placeholderValues i b hi

theorem createArrayValue_gives (h : ObjectPoolOK p) : Gives p (.array []) p.createArrayValue :=
  ⟨h.grow (allocate_extends _), allocate_extends _, allocate_get _⟩

end ObjectPool

/-- Replacing the elements of an array keeps the tables right. -/
theorem ObjectPoolOK.setArray (h : ObjectPoolOK p) {a : Addr} {es : List Addr} (es' : List Addr)
    (ha : p.heap[a]? = some (.array es)) :
    ObjectPoolOK { p with heap := p.heap.set a (.array es') } := by
  have get : ∀ {b : Addr} {v : Value}, (∀ fs, v ≠ .array fs) → p.heap[b]? = some v →
      (p.heap.set a (.array es'))[b]? = some v := by
    intro b v hv hb
    have hne : a ≠ b := by
      rintro rfl
      rw [ha] at hb
      exact hv es (Option.some.inj hb).symm
    rwa [List.getElem?_set_ne hne]
  exact {
    undef := fun b hb => get (by simp) (h.undef b hb)
    null := fun b hb => get (by simp) (h.null b hb)
    funcValues := fun i b hb => get (by simp) (h.funcValues i b hb)
    bool := fun c b hb => get (by simp) (h.bool c b hb)
    strToValue := fun s b hb => get (by simp) (h.strToValue s b hb)
    intTable := fun i b hb =>
      let ⟨v, hv, hg⟩ := h.intTable i b hb
      ⟨v, hv, get (by simp) hg⟩
    nan := fun b hb => get (by simp) (h.nan b hb)
    inf := fun b hb =>
      let ⟨x, hv, hg⟩ := h.inf b hb
      ⟨x, hv, get (by simp) hg⟩
    values := fun b hb =>
      let ⟨l, hl⟩ := h.values b hb
      ⟨l, get (by simp) hl⟩
    placeholderValues := fun i b hb => get (by simp) (h.placeholderValues i b hb) }

theorem ObjectPool.push_length (a e : Addr) : (p.push a e).heap.length = p.heap.length := by
  unfold push
  split
  · exact List.length_set
  · rfl

/-- A push changes one object only. -/
theorem ObjectPool.push_get_ne {a b : Addr} (e : Addr) (h : a ≠ b) :
    (p.push a e).heap[b]? = p.heap[b]? := by
  unfold push
  split
  · exact List.getElem?_set_ne h
  · rfl

theorem ObjectPool.push_get_self {a : Addr} {es : List Addr} (e : Addr)
    (h : p.heap[a]? = some (.array es)) : (p.push a e).heap[a]? = some (.array (es ++ [e])) := by
  have hlt := (List.getElem?_eq_some_iff.1 h).1
  unfold push
  rw [h]
  exact List.getElem?_set_self hlt

theorem ObjectPool.push_inf (a e : Addr) : (p.push a e).inf = p.inf := by
  unfold push
  split <;> rfl

/-- A push leaves literals alone. -/
theorem ObjectPool.push_literal {a b : Addr} {l : Literal} (e : Addr) (h : p.heap[b]? = some (.literal l)) :
    (p.push a e).heap[b]? = some (.literal l) := by
  by_cases hab : a = b
  · subst hab
    unfold push
    rw [h]
    exact h
  · exact (push_get_ne e hab).trans h

theorem ObjectPoolOK.push (h : ObjectPoolOK p) (a e : Addr) : ObjectPoolOK (p.push a e) := by
  unfold ObjectPool.push
  split
  · exact h.setArray _ ‹_›
  · exact h

end Caf
