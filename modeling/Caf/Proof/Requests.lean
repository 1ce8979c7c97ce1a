import Mathlib.Data.List.Induction
import Caf.Spec.Requests

/-!
# The answers of the pool

The object for a literal stands for it, whatever was asked for before, with one exception: both
infinities are kept in the pointer that is meant for the positive one, so the infinity that was asked
for first is returned for both.

* `Reachable.ok`: the tables of any pool that can be reached.
* `answers_iff`: when the answer is right.
-/

namespace Caf

open ObjectPool

variable {p : ObjectPool}

theorem ObjectPoolOK.clear (h : ObjectPoolOK p) : ObjectPoolOK p.clear :=
  { h with
    strToValue := fun s a ha => by cases ha
    intTable := fun i a ha => by cases ha
    values := fun a ha => by cases ha }

theorem ObjectPoolOK.apply (h : ObjectPoolOK p) (op : PoolOp) : ObjectPoolOK (op.apply p).2 := by
  cases op with
  | get l =>
    obtain ⟨l', hg, -⟩ := getLiteral_gives_blurred h l
    exact hg.ok
  | createArray => exact (createArrayValue_gives h).ok
  | getPlaceholder index => exact (getPlaceholderValue_gives h index).ok
  | clear => exact h.clear

/-- **The tables of a pool that can be reached are right.** -/
theorem ObjectPool.Reachable.ok (h : p.Reachable) : ObjectPoolOK p := by
  induction h with
  | new => exact new_ok
  | op op _ ih => exact ih.apply op
  | setArray es' _ ha ih => exact ih.setArray es' ha

/-! ## Infinities -/

/-- An infinity is one of the two. -/
theorem Double.isInf_iff {x : Double} (hx : x.isInf = true) :
    x = if x.signBit = false then .infinity else .negInfinity := by
  have hlt := x.toNat_lt
  unfold Double.isInf Double.magnitude at hx
  rw [beq_iff_eq] at hx
  have hsign : x.signBit = false ↔ ¬ 2 ^ 63 ≤ x.toNat := by
    unfold Double.signBit
    exact decide_eq_false_iff_not
  have hpos : Double.infinity.toNat = 0x7ff0000000000000 := rfl
  have hneg : Double.negInfinity.toNat = 0xfff0000000000000 := rfl
  refine UInt64.toNat_inj.1 ?_
  by_cases hs : x.signBit = false
  · rw [if_pos hs, hpos]
    have := hsign.1 hs
    omega
  · rw [if_neg hs, hneg]
    have : 2 ^ 63 ≤ x.toNat := by
      by_contra hlt'
      exact hs (hsign.2 hlt')
    omega

theorem infinity?_float (x : Double) : (PoolOp.get (.float x)).infinity? = if x.isInf then some x else none := rfl

theorem infinity?_eq_some {op : PoolOp} {x : Double} (hop : op.infinity? = some x) :
    op = .get (.float x) ∧ x.isInf = true := by
  unfold PoolOp.infinity? at hop
  split at hop
  · rename_i y
    by_cases hy : y.isInf = true
    · rw [if_pos hy] at hop
      cases hop
      exact ⟨rfl, hy⟩
    · rw [if_neg hy] at hop
      cases hop
  · cases hop

/-- `_inf` is null or holds `o`. -/
def HoldsInfinity (p : ObjectPool) (o : Option Double) : Prop :=
  match o with
  | none => p.inf = none
  | some x => ∃ a, p.inf = some a ∧ p.heap[a]? = some (.literal (.float x))

/-- Only a request for an infinity touches `_inf`. -/
theorem apply_inf {op : PoolOp} (hop : op.infinity? = none) : (op.apply p).2.inf = p.inf := by
  cases op with
  | get l =>
    show (p.getLiteral l).2.inf = p.inf
    cases l with
    | undefined => exact getOrCreate_inf fun _ _ => rfl
    | null => exact getOrCreate_inf fun _ _ => rfl
    | boolean b => exact getOrCreate_inf fun _ _ => rfl
    | function id => exact getOrCreate_inf fun _ _ => rfl
    | string s =>
      unfold ObjectPool.getLiteral getOrCreateStringValue
      dsimp only
      split
      · split <;> rfl
      · rfl
    | integer i =>
      unfold ObjectPool.getLiteral getOrCreateIntegerValue
      dsimp only
      split
      · split <;> rfl
      · rfl
    | float x =>
      have hx : x.isInf = false := by
        by_contra hx
        rw [infinity?_float, if_pos (by simpa using hx)] at hop
        cases hop
      unfold ObjectPool.getLiteral getOrCreateFloatValue
      dsimp only
      split
      · exact getOrCreate_inf fun _ _ => rfl
      · rw [if_neg (by simp [hx])]
        rfl
  | createArray => rfl
  | getPlaceholder index => exact getOrCreate_inf fun _ _ => rfl
  | clear => rfl

/-- An operation leaves the other objects as they are. -/
theorem apply_extends (h : ObjectPoolOK p) (op : PoolOp) : p.Extends (op.apply p).2 := by
  cases op with
  | get l =>
    obtain ⟨l', hg, -⟩ := getLiteral_gives_blurred h l
    exact hg.ext
  | createArray => exact (createArrayValue_gives h).ext
  | getPlaceholder index => exact (getPlaceholderValue_gives h index).ext
  | clear => exact Extends.refl p

/-- **A request for an infinity** returns the one that the pool holds. -/
theorem getInfinity {o : Option Double} (h : HoldsInfinity p o) {x : Double} (hx : x.isInf = true) :
    HoldsInfinity (p.getOrCreateFloatValue x).2 (some (o.getD x)) ∧
      (p.getOrCreateFloatValue x).2.heap[(p.getOrCreateFloatValue x).1]? = some (.literal (.float (o.getD x))) := by
  have hn := Double.isNaN_of_isInf hx
  -- whichever infinity it is, `_inf` is used
  have heq : p.getOrCreateFloatValue x =
      p.getOrCreate p.inf (.literal (.float x)) fun a p => { p with inf := some a } := by
    have hx' := Double.isInf_iff hx
    unfold ObjectPool.getOrCreateFloatValue
    rw [if_neg (by simp [hn]), if_pos hx]
    split
    · rename_i hs
      rw [if_pos hs] at hx'
      rw [hx']
    · rename_i hs
      rw [if_neg hs] at hx'
      rw [hx']
  rw [heq]
  unfold ObjectPool.getOrCreate
  cases o with
  | none =>
    have hnone : p.inf = none := h
    rw [hnone]
    exact ⟨⟨_, rfl, allocate_get _⟩, allocate_get _⟩
  | some y =>
    obtain ⟨a, ha, hy⟩ := h
    rw [ha]
    exact ⟨⟨a, ha, hy⟩, hy⟩

/-- One operation more. -/
theorem HoldsInfinity.apply {o : Option Double} (hok : ObjectPoolOK p) (h : HoldsInfinity p o) (op : PoolOp) :
    HoldsInfinity (op.apply p).2 (o.or op.infinity?) := by
  cases hop : op.infinity? with
  | none =>
    rw [Option.or_none]
    unfold HoldsInfinity at h ⊢
    cases o with
    | none => exact (apply_inf hop).trans h
    | some y =>
      obtain ⟨a, ha, hy⟩ := h
      exact ⟨a, (apply_inf hop).trans ha, (apply_extends hok op).get hy⟩
  | some x =>
    obtain ⟨rfl, hx⟩ := infinity?_eq_some hop
    have hget := (getInfinity h hx).1
    cases o <;> exact hget

/-- **The pool holds the infinity that was asked for first.** -/
theorem holdsInfinity_run (ops : List PoolOp) :
    ObjectPoolOK (ObjectPool.new.run ops) ∧ HoldsInfinity (ObjectPool.new.run ops) (firstInfinity ops) := by
  induction ops using List.reverseRecOn with
  | nil => exact ⟨new_ok, rfl⟩
  | append_singleton ops op ih =>
    obtain ⟨hok, hinf⟩ := ih
    have hrun : ObjectPool.new.run (ops ++ [op]) = (op.apply (ObjectPool.new.run ops)).2 := by
      simp [ObjectPool.run]
    have hfirst : firstInfinity (ops ++ [op]) = (firstInfinity ops).or op.infinity? := by
      unfold firstInfinity
      rw [List.findSome?_append]
      congr 1
      simp [List.findSome?_cons]
      cases op.infinity? <;> rfl
    rw [hrun, hfirst]
    exact ⟨hok.apply op, hinf.apply hok op⟩

/-- A literal as the pool holds it. -/
theorem SameLiteral.pooled (l : Literal) : SameLiteral l l.pooled := by
  cases l with
  | float x =>
    by_cases hx : x.isNaN = true
    · rw [Literal.pooled_nan hx]
      exact .inr ⟨x, .quietNaN, rfl, rfl, hx, by decide⟩
    · rw [Literal.pooled_float (by simpa using hx)]
      exact .inl rfl
  | _ => exact .inl rfl

/-- **The pool returns an object that stands for what was asked for**, whatever was asked for before, but
for an infinity after the other one. `decoded_same` says what this means for decoding. -/
theorem answers_iff (ops : List PoolOp) (op : PoolOp) : (ObjectPool.new.run ops).Answers op ↔
    ∀ x y, op.infinity? = some x → firstInfinity ops = some y → x = y := by
  obtain ⟨hok, hinf⟩ := holdsInfinity_run ops
  generalize ObjectPool.new.run ops = p at hok hinf
  cases hop : op.infinity? with
  | none =>
    refine ⟨fun _ x y hx => (by cases hx), fun _ a ha => ?_⟩
    cases op with
    | get l =>
      obtain rfl := Option.some.inj ha
      have hg := getLiteral_gives hok l fun x hx => by
        subst hx
        by_contra hx
        rw [infinity?_float, if_pos (by simpa using hx)] at hop
        cases hop
      exact ⟨_, hg.get, _, rfl, SameLiteral.pooled l⟩
    | createArray =>
      obtain rfl := Option.some.inj ha
      exact ⟨_, (createArrayValue_gives hok).get, rfl⟩
    | getPlaceholder index =>
      obtain rfl := Option.some.inj ha
      exact ⟨_, (getPlaceholderValue_gives hok index).get, rfl⟩
    | clear => cases ha
  | some x =>
    obtain ⟨rfl, hx⟩ := infinity?_eq_some hop
    have hget := (getInfinity hinf hx).2
    have hnan := Double.isNaN_of_isInf hx
    constructor
    · rintro h _ y ⟨⟩ hy
      obtain ⟨v, hv, l', rfl, hl⟩ := h _ rfl
      rw [hy, Option.getD_some] at hget
      cases hget.symm.trans hv
      rcases hl with hl | ⟨z, -, ⟨⟩, -, hz, -⟩
      · cases hl
        rfl
      · rw [hnan] at hz
        cases hz
    · intro h a ha
      obtain rfl := Option.some.inj ha
      refine ⟨_, hget, _, rfl, .inl ?_⟩
      cases hfirst : firstInfinity ops with
      | none => rfl
      | some y => rw [Option.getD_some, h x y rfl hfirst]

/-- The negative infinity, asked for after the positive one. -/
theorem negInfinity_not_answered :
    ¬ (ObjectPool.new.run [.get (.float .infinity)]).Answers (.get (.float .negInfinity)) := by
  intro h
  obtain ⟨v, hv, l, rfl, hl⟩ := h 0 rfl
  have hinf : (PoolOp.apply (ObjectPool.new.run [.get (.float .infinity)]) (.get (.float .negInfinity))).2.heap[0]? =
      some (.literal (.float .infinity)) := rfl
  cases hinf.symm.trans hv
  rcases hl with hl | ⟨x, y, ⟨⟩, -, hx, -⟩
  · cases hl
  · exact absurd hx (by decide)

end Caf
