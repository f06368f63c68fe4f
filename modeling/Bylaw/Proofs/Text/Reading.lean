import Bylaw.Text.Reading

/-! What a reader finds in front of a rest, and what becomes of it in the next reader. -/

namespace Bylaw

variable {α β ε τ : Type} {source : List τ}

/-- A reader finds a value, and leaves a rest. -/
def Yields (r : Except ε (Reading α source)) (value : α) (rest : List τ) : Prop :=
  ∃ h, r = .ok ⟨value, rest, h⟩

/-- A reader that may take up nothing finds a value, and leaves a rest. -/
def Trails (r : Except ε (Trailing α source)) (value : α) (rest : List τ) : Prop :=
  ∃ h, r = .ok ⟨value, rest, h⟩

@[simp] theorem ok_bind (a : α) (f : α → Except ε β) : (Except.ok a >>= f) = f a := rfl

@[simp] theorem error_bind (e : ε) (f : α → Except ε β) : (Except.error e >>= f) = .error e := rfl

theorem bind_eq_ok {x : Except ε α} {f : α → Except ε β} {b : β} :
    (x >>= f) = .ok b ↔ ∃ a, x = .ok a ∧ f a = .ok b := by
  cases x <;> simp

theorem map_eq_ok {x : Except ε α} {f : α → β} {b : β} :
    x.map f = .ok b ↔ ∃ a, x = .ok a ∧ f a = b := by
  cases x <;> simp [Except.map]

section

variable {value : α} {rest : List τ}

@[simp] theorem yields_ok {r : Reading α source} :
    Yields (.ok r : Except ε (Reading α source)) value rest ↔ r.value = value ∧ r.rest = rest := by
  constructor
  · rintro ⟨h, heq⟩
    obtain rfl := Except.ok.inj heq
    exact ⟨rfl, rfl⟩
  · rintro ⟨rfl, rfl⟩
    exact ⟨r.shorter, rfl⟩

@[simp] theorem yields_error {e : ε} :
    ¬ Yields (.error e : Except ε (Reading α source)) value rest := by
  rintro ⟨h, heq⟩
  cases heq

@[simp] theorem trails_ok {r : Trailing α source} :
    Trails (.ok r : Except ε (Trailing α source)) value rest ↔ r.value = value ∧ r.rest = rest := by
  constructor
  · rintro ⟨h, heq⟩
    obtain rfl := Except.ok.inj heq
    exact ⟨rfl, rfl⟩
  · rintro ⟨rfl, rfl⟩
    exact ⟨r.notLonger, rfl⟩

@[simp] theorem trails_error {e : ε} :
    ¬ Trails (.error e : Except ε (Trailing α source)) value rest := by
  rintro ⟨h, heq⟩
  cases heq

theorem Yields.unique {r : Except ε (Reading α source)} {v w : α} {after after' : List τ}
    (h : Yields r v after) (h' : Yields r w after') : v = w ∧ after = after' := by
  obtain ⟨_, h⟩ := h
  obtain ⟨_, h'⟩ := h'
  obtain ⟨rfl, rfl⟩ := Reading.mk.inj (Except.ok.inj (h.symm.trans h'))
  exact ⟨rfl, rfl⟩

theorem Yields.shorter {r : Except ε (Reading α source)} (h : Yields r value rest) :
    rest.length < source.length := by
  obtain ⟨hlt, -⟩ := h
  exact hlt

/-- A reader, and one that may take up something of what the first leaves: what the two find is told
from what the second finds after the first. -/
theorem chain_iff {first : Except ε (Reading α source)}
    {next : α → (us : List τ) → Except ε (Trailing β us)} {w : β} {found : Prop}
    (herror : ∀ e, first = .error e → ¬found)
    (hok : ∀ left, first = .ok left → (found ↔ Trails (next left.value left.rest) w rest)) :
    found ↔ ∃ v mid, Yields first v mid ∧ Trails (next v mid) w rest := by
  cases first with
  | error e => simpa using herror e rfl
  | ok left =>
    simp only [yields_ok, and_assoc, exists_and_left, exists_eq_left']
    exact hok left rfl

end

end Bylaw
