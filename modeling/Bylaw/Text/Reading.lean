/-! The result of reading the front of a list: a value, and what is left of the list. What is left
is shorter, so a reader may be run again on it. -/

namespace Bylaw

/-- A value read from the front of `source`, and what is left. -/
structure Reading (α : Type) {τ : Type} (source : List τ) where
  value : α
  rest : List τ
  shorter : rest.length < source.length

/-- A value read from the front of `source`, which may be empty, and what is left. -/
structure Trailing (α : Type) {τ : Type} (source : List τ) where
  value : α
  rest : List τ
  notLonger : rest.length ≤ source.length

namespace Reading

variable {α β τ : Type} {source : List τ}

def map (f : α → β) (r : Reading α source) : Reading β source := ⟨f r.value, r.rest, r.shorter⟩

/-- A value that the first item stands for. -/
def ofHead {item : τ} {rest : List τ} (value : α) : Reading α (item :: rest) :=
  ⟨value, rest, Nat.lt_succ_self rest.length⟩

/-- What is read after the first item is read of the whole list. -/
def behind {item : τ} {rest : List τ} (r : Reading α rest) : Reading α (item :: rest) :=
  ⟨r.value, r.rest, Nat.lt_succ_of_lt r.shorter⟩

/-- What is read after some items is read of the whole list. -/
def after {rest : List τ} (items : List τ) (r : Reading α rest) : Reading α (items ++ rest) :=
  ⟨r.value, r.rest, by rw [List.length_append]; exact Nat.lt_add_left _ r.shorter⟩

/-- A reading from a list that is no longer is one from the whole list. -/
def within {part : List τ} (h : part.length ≤ source.length) (r : Reading α part) :
    Reading α source :=
  ⟨r.value, r.rest, Nat.lt_of_lt_of_le r.shorter h⟩

end Reading

namespace Trailing

variable {α β τ : Type} {source : List τ}

def map (f : α → β) (r : Trailing α source) : Trailing β source :=
  ⟨f r.value, r.rest, r.notLonger⟩

/-- A value that nothing stands for. -/
def ofNone (value : α) : Trailing α source := ⟨value, source, Nat.le_refl source.length⟩

/-- What is read after the first item, which is read with it. -/
def behind {item : τ} {rest : List τ} (r : Trailing α rest) : Reading α (item :: rest) :=
  ⟨r.value, r.rest, Nat.lt_succ_of_le r.notLonger⟩

end Trailing

end Bylaw
