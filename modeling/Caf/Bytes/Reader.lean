import Caf.Bytes.LittleEndian

/-!
# Readers of byte strings that may end too early

A reader says which byte strings mean a value, and which it refuses whatever comes after them. What it
makes of a byte string may be settled by the bytes that are there, or it may still depend on the bytes
that are missing.

* `Settled.bind`: one reader after the other.
* `Settled.int`: a number of some bytes.
-/

namespace LittleEndian

theorem ofBytes_append (xs ys : List UInt8) : ofBytes (xs ++ ys) = ofBytes xs + 256 ^ xs.length * ofBytes ys := by
  induction xs with
  | nil => simp [ofBytes]
  | cons b xs ih =>
    rw [List.cons_append, ofBytes, ih, ofBytes, List.length_cons]
    ring

/-- A way to read bytes. -/
structure Reader (α : Type*) where
  means : List UInt8 → α → Prop
  refuses : List UInt8 → Prop

namespace Reader

variable {α β γ δ : Type*}

/-- Read nothing. -/
def pure (a : α) : Reader α := ⟨fun d b => d = [] ∧ b = a, fun _ => False⟩

/-- Read with `x`, and then with the reader that its value names. -/
def bind (x : Reader α) (f : α → Reader β) : Reader β where
  means d b := ∃ d₁ a d₂, d = d₁ ++ d₂ ∧ x.means d₁ a ∧ (f a).means d₂ b
  refuses d := x.refuses d ∨ ∃ d₁ a d₂, d = d₁ ++ d₂ ∧ x.means d₁ a ∧ (f a).refuses d₂

def map (g : α → β) (x : Reader α) : Reader β := ⟨fun d b => ∃ a, x.means d a ∧ b = g a, x.refuses⟩

/-- Read a field of `size` bytes. -/
def field (size : ℕ) : Reader (List UInt8) := ⟨fun d b => d.length = size ∧ b = d, fun _ => False⟩

/-- Read the number in a field of `size` bytes. -/
def int (size : ℕ) : Reader ℕ := (field size).map ofBytes

/-- **The bytes decide**: some of the first of them mean a value or are refused. -/
def Decides (x : Reader α) (data : List UInt8) : Prop :=
  ∃ d rest, data = d ++ rest ∧ ((∃ a, x.means d a) ∨ x.refuses d)

/-- **The missing bytes decide**: with some of them there is a value, and with others there is none or
one that looks different. -/
def Varies (x : Reader α) (look : α → γ) (data : List UInt8) : Prop :=
  ∃ more a, x.means (data ++ more) a ∧
    ∃ more', x.refuses (data ++ more') ∨ ∃ a', x.means (data ++ more') a' ∧ look a' ≠ look a

/-- Either the bytes decide or the missing ones do. -/
def Settled (x : Reader α) (look : α → γ) (data : List UInt8) : Prop := x.Decides data ∨ x.Varies look data

variable {x y : Reader α} {f : α → Reader β} {look : α → γ} {look' : β → δ} {data : List UInt8}

theorem decides_of_means {d rest : List UInt8} {a : α} (h : x.means d a) : x.Decides (d ++ rest) :=
  ⟨d, rest, rfl, .inl ⟨a, h⟩⟩

theorem decides_of_refuses {d rest : List UInt8} (h : x.refuses d) : x.Decides (d ++ rest) :=
  ⟨d, rest, rfl, .inr h⟩

namespace Settled

/-- Some bytes before what is settled, for a reader that means and refuses the same and more behind them. -/
theorem behind (h : x.Settled look data) (front : List UInt8) (hmeans : ∀ d a, x.means d a → y.means (front ++ d) a)
    (hrefuses : ∀ d, x.refuses d → y.refuses (front ++ d)) : y.Settled look (front ++ data) := by
  rcases h with ⟨d, rest, rfl, ⟨a, ha⟩ | hr⟩ | ⟨more, a, ha, more', hr | ⟨a', ha', hne⟩⟩
  · rw [← List.append_assoc]
    exact .inl (decides_of_means (hmeans d a ha))
  · rw [← List.append_assoc]
    exact .inl (decides_of_refuses (hrefuses d hr))
  · have ha := hmeans _ a ha
    have hr := hrefuses _ hr
    rw [← List.append_assoc] at ha hr
    exact .inr ⟨more, a, ha, more', .inl hr⟩
  · have ha := hmeans _ a ha
    have ha' := hmeans _ a' ha'
    rw [← List.append_assoc] at ha ha'
    exact .inr ⟨more, a, ha, more', .inr ⟨a', ha', hne⟩⟩

/-- What is settled for a reader is settled for one that means and refuses the same and more. -/
theorem mono (h : x.Settled look data) (hmeans : ∀ d a, x.means d a → y.means d a)
    (hrefuses : ∀ d, x.refuses d → y.refuses d) : y.Settled look data :=
  h.behind [] hmeans hrefuses

/-- What is settled is settled for a closer look. -/
theorem closer {look₂ : α → δ} (h : x.Settled look data) (hlook : ∀ a a', look₂ a = look₂ a' → look a = look a') :
    x.Settled look₂ data := by
  rcases h with h | ⟨more, a, ha, more', hr | ⟨a', ha', hne⟩⟩
  · exact .inl h
  · exact .inr ⟨more, a, ha, more', .inl hr⟩
  · exact .inr ⟨more, a, ha, more', .inr ⟨a', ha', fun heq => hne (hlook a' a heq)⟩⟩

/-- One byte before what is settled. -/
theorem cons {byte : UInt8} (h : x.Settled look data) (hmeans : ∀ d a, x.means d a → y.means (byte :: d) a)
    (hrefuses : ∀ d, x.refuses d → y.refuses (byte :: d)) : y.Settled look (byte :: data) :=
  h.behind [byte] hmeans hrefuses

theorem pure {a : α} : (Reader.pure a).Settled look data :=
  .inl ⟨[], data, rfl, .inl ⟨a, rfl, rfl⟩⟩

theorem map {g : α → β} (h : x.Settled (fun a => look' (g a)) data) : (x.map g).Settled look' data := by
  rcases h with ⟨d, rest, rfl, ⟨a, ha⟩ | hr⟩ | ⟨more, a, ha, more', hr | ⟨a', ha', hne⟩⟩
  · exact .inl ⟨d, rest, rfl, .inl ⟨g a, a, ha, rfl⟩⟩
  · exact .inl ⟨d, rest, rfl, .inr hr⟩
  · exact .inr ⟨more, g a, ⟨a, ha, rfl⟩, more', .inl hr⟩
  · exact .inr ⟨more, g a, ⟨a, ha, rfl⟩, more', .inr ⟨g a', ⟨a', ha', rfl⟩, hne⟩⟩

/-- **One reader after the other.** Whatever the first reads, something can be read after it, and the
result shows what the first has read. -/
theorem bind (look : α → γ) (hx : x.Settled look data)
    (hf : ∀ d a rest, data = d ++ rest → x.means d a → (f a).Settled look' rest)
    (hsome : ∀ d a, x.means d a → ∃ e b, (f a).means e b)
    (hshows : ∀ a a' e e' b b', (f a).means e b → (f a').means e' b' → look' b = look' b' → look a = look a') :
    (x.bind f).Settled look' data := by
  rcases hx with ⟨d, rest, rfl, ⟨a, ha⟩ | hr⟩ | ⟨more, a, ha, more', hvaries⟩
  · rcases hf d a rest rfl ha with ⟨e, rest, rfl, ⟨b, hb⟩ | hr⟩ | ⟨more, b, hb, more', hvaries⟩
    · rw [← List.append_assoc]
      exact .inl (decides_of_means ⟨d, a, e, rfl, ha, hb⟩)
    · rw [← List.append_assoc]
      exact .inl (decides_of_refuses (.inr ⟨d, a, e, rfl, ha, hr⟩))
    · refine .inr ⟨more, b, ⟨d, a, rest ++ more, List.append_assoc _ _ _, ha, hb⟩, more', ?_⟩
      rcases hvaries with hr | ⟨b', hb', hne⟩
      · exact .inl (.inr ⟨d, a, rest ++ more', List.append_assoc _ _ _, ha, hr⟩)
      · exact .inr ⟨b', ⟨d, a, rest ++ more', List.append_assoc _ _ _, ha, hb'⟩, hne⟩
  · exact .inl (decides_of_refuses (.inl hr))
  · obtain ⟨e, b, hb⟩ := hsome _ a ha
    refine .inr ⟨more ++ e, b, ⟨data ++ more, a, e, (List.append_assoc _ _ _).symm, ha, hb⟩, ?_⟩
    rcases hvaries with hr | ⟨a', ha', hne⟩
    · exact ⟨more', .inl (.inl hr)⟩
    · obtain ⟨e', b', hb'⟩ := hsome _ a' ha'
      refine ⟨more' ++ e', .inr ⟨b', ⟨data ++ more', a', e', (List.append_assoc _ _ _).symm, ha', hb'⟩, ?_⟩⟩
      intro heq
      exact hne (hshows a' a e' e b' b hb' hb heq)

/-- A field that is cut off can be completed with any last byte. -/
theorem field {size : ℕ} {look : List UInt8 → γ}
    (hlook : ∀ d : List UInt8, d.length + 1 = size → look (d ++ [1]) ≠ look (d ++ [0])) :
    (Reader.field size).Settled look data := by
  rcases Nat.lt_or_ge data.length size with hlt | hge
  · have hlen : (data ++ List.replicate (size - data.length - 1) 0).length + 1 = size := by
      rw [List.length_append, List.length_replicate]
      omega
    refine .inr ⟨List.replicate (size - data.length - 1) 0 ++ [0], _, ⟨?_, rfl⟩,
      List.replicate (size - data.length - 1) 0 ++ [1], .inr ⟨_, ⟨?_, rfl⟩, ?_⟩⟩
    · rw [← List.append_assoc, List.length_append, List.length_singleton, hlen]
    · rw [← List.append_assoc, List.length_append, List.length_singleton, hlen]
    · rw [← List.append_assoc, ← List.append_assoc]
      exact hlook _ hlen
  · refine .inl ⟨data.take size, data.drop size, (List.take_append_drop _ _).symm, .inl ⟨_, ?_, rfl⟩⟩
    rw [List.length_take]
    omega

/-- A number that is cut off can be completed with any highest byte. -/
theorem int {w : ℕ} {look : ℕ → γ} (hlook : ∀ low < 256 ^ w, look (low + 256 ^ w) ≠ look low) :
    (Reader.int (w + 1)).Settled look data := by
  refine map (field fun d hd => ?_)
  have hw : d.length = w := by omega
  have hlow := hlook (ofBytes d) (hw ▸ ofBytes_lt d)
  have h₁ : ofBytes (d ++ [1]) = ofBytes d + 256 ^ w := by
    rw [ofBytes_append, hw]
    simp [ofBytes]
  have h₀ : ofBytes (d ++ [0]) = ofBytes d := by
    rw [ofBytes_append]
    simp [ofBytes]
  rw [h₁, h₀]
  exact hlow

end Settled

/-- No number is refused. -/
theorem int_accepts {size : ℕ} {d : List UInt8} : ¬ (int size).refuses d := id

/-- A number below its bound can be written. -/
theorem means_int {size n : ℕ} (h : n < 256 ^ size) : (int size).means (toBytes size n) n :=
  ⟨_, ⟨length_toBytes size n, rfl⟩, (ofBytes_toBytes_of_lt h).symm⟩

end Reader

end LittleEndian
