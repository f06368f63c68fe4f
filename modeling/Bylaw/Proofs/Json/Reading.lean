import Bylaw.Json.Reader
import Bylaw.Proofs.Text.Reading

/-! What the readers of JSON texts find, one equivalence for each: a reader of a value finds it in
front of a rest exactly if its parts are found one after the other. -/

namespace Bylaw

section

variable {α β ε τ : Type} {source : List τ}

theorem yields_of_ok {r : Except ε (Reading α source)} {p : Reading α source} (h : r = .ok p)
    (v : α) (after : List τ) : Yields r v after ↔ v = p.value ∧ after = p.rest := by
  rw [h, yields_ok, eq_comm, @eq_comm _ after]

theorem yields_map {r : Except ε (Reading α source)} {f : α → β} {w : β} {after : List τ} :
    Yields (r.map (·.map f)) w after ↔ ∃ v, Yields r v after ∧ f v = w := by
  cases r with
  | error e => simp [Except.map]
  | ok r =>
    simp only [Except.map, yields_ok, Reading.map]
    constructor
    · rintro ⟨rfl, rfl⟩
      exact ⟨r.value, ⟨rfl, rfl⟩, rfl⟩
    · rintro ⟨_, ⟨rfl, rfl⟩, rfl⟩
      exact ⟨rfl, rfl⟩

theorem yields_within {part : List τ} {r : Except ε (Reading α part)}
    {h : part.length ≤ source.length} {v : α} {after : List τ} :
    Yields (r.map (·.within h)) v after ↔ Yields r v after := by
  cases r with
  | error e => simp [Except.map]
  | ok r => simp [Except.map, Reading.within]

end

namespace Json

variable {α : Type} {closing : Char}
  {part : (cs : List Char) → Except ReadError (Reading α cs)}
  {inner : (cs : List Char) → Except ReadError (Reading Json cs)} {cs after : List Char}

/-- Parts: one of them, and then the closing character, or a comma and more parts. -/
theorem yields_parts (hc : closing ≠ ',') {vs : List α} :
    Yields (parts closing part cs) vs after ↔ ∃ v mid, Yields (part cs) v mid ∧
      ((skipBlank mid = closing :: after ∧ vs = [v]) ∨
        ∃ rest others, skipBlank mid = ',' :: rest ∧ Yields (parts closing part rest) others after ∧
          vs = v :: others) := by
  rw [parts.eq_def]
  split
  · rename_i e he
    simp [he]
  · rename_i p hp
    simp only [yields_of_ok hp, and_assoc, exists_and_left, exists_eq_left]
    split
    · rename_i hrest
      simp [hrest]
    · rename_i c rest hrest
      simp only [hrest, List.cons.injEq]
      by_cases hclosing : c = closing
      · subst hclosing
        simp [hc, and_comm, eq_comm]
      · by_cases hcomma : c = ','
        · subst hcomma
          simp only [hclosing, if_false, if_true, false_and, false_or, true_and,
            exists_eq_left']
          cases hmore : parts closing part rest with
          | error e => simp
          | ok r => simp only [yields_of_ok rfl, and_assoc, exists_eq_left, and_comm]
        · simp [hclosing, hcomma]

/-- Enclosed parts: the closing character at once, or some parts. -/
theorem yields_enclosed {vs : List α} :
    Yields (enclosed closing part cs) vs after ↔
      (skipBlank cs = closing :: after ∧ vs = []) ∨
        ((skipBlank cs).head? ≠ some closing ∧ skipBlank cs ≠ [] ∧
          Yields (parts closing part cs) vs after) := by
  unfold enclosed
  split
  · rename_i h
    simp [h]
  · rename_i c rest h
    by_cases hc : c = closing
    · subst hc
      simp [h, and_comm, eq_comm]
    · simp [h, hc]

theorem yields_entry {e : String × Json} :
    Yields (entry inner cs) e after ↔ ∃ body, skipBlank cs = '"' :: body ∧
      ∃ name mid, Yields (stringBody body) name mid ∧ ∃ rest, skipBlank mid = ':' :: rest ∧
        ∃ v, Yields (inner rest) v after ∧ e = (.ofList name, v) := by
  unfold entry
  split
  · rename_i body hbody
    simp only [hbody, List.cons.injEq, true_and, exists_eq_left']
    split
    · rename_i e he
      simp [he]
    · rename_i key hkey
      simp only [yields_of_ok hkey, and_assoc, exists_and_left, exists_eq_left]
      split
      · rename_i rest hrest
        simp only [hrest, List.cons.injEq, true_and, exists_eq_left']
        cases hv : inner rest with
        | error e => simp
        | ok v => simp only [yields_of_ok rfl, and_assoc, exists_eq_left, and_comm]
      · rename_i hother
        simp only [yields_error, false_iff, not_exists, not_and]
        exact fun rest hrest => absurd hrest (hother rest)
  · rename_i hother
    simp only [yields_error, false_iff, not_exists, not_and]
    exact fun body hbody => absurd hbody (hother body)

/-- What arrays and objects are read with. -/
def nestedAt : Nat → Bool → (cs : List Char) → Except ReadError (Reading Json cs)
  | 0 => fun _ _ => .error .tooDeep
  | depth + 1 => fun isArray cs =>
    if isArray then array (value depth) cs else object (value depth) cs

theorem yields_value {depth : Nat} {v : Json} :
    Yields (value depth cs) v after ↔
      Yields (valueHere (nestedAt depth) (skipBlank cs)) v after := by
  cases depth <;> exact yields_within

end Json

end Bylaw
