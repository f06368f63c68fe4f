import Bylaw.Token.Scanner
import Mathlib.Tactic.Common

/-! The tokens of a text without their places. A piece of text spells tokens before what follows it
if they are what the text up to there is read as. Main statement: what pieces spell one after the
other, they spell together. -/

namespace Bylaw.Token

/-- The outcome of reading tokens without places and lines. -/
def forget : Except FaultAt (List Placed) → Except Fault (List Token)
  | .ok placed => .ok (placed.map Placed.token)
  | .error e => .error e.fault

/-- The tokens of a text. -/
def tokens (afterMatches : Bool) (cs : List Char) : Except Fault (List Token) :=
  forget (scanFrom afterMatches ⟨0, 1⟩ cs)

section

variable {afterMatches : Bool} {cs : List Char}

theorem scanFrom_nil (h : skipTrivia cs = []) (here : Cursor) :
    scanFrom afterMatches here cs = .ok [] := by
  rw [scanFrom]
  split
  · rfl
  · rename_i hc
    rw [h] at hc
    cases hc

theorem scanFrom_cons {c : Char} {rest : List Char} (h : skipTrivia cs = c :: rest)
    (here : Cursor) :
    scanFrom afterMatches here cs =
      match scan afterMatches c rest with
      | .error fault => .error ⟨(here.to cs (c :: rest)).line, fault⟩
      | .ok r =>
        match scanFrom (allowsPattern r.value)
          ((here.to cs (c :: rest)).to (c :: rest) r.rest) r.rest with
        | .ok placed => .ok (⟨r.value, (here.to cs (c :: rest)).line,
            (here.to cs (c :: rest)).offset,
            ((here.to cs (c :: rest)).to (c :: rest) r.rest).offset⟩ :: placed)
        | .error fault => .error fault := by
  rw [scanFrom]
  split
  · rename_i hn
    rw [h] at hn
    cases hn
  · rename_i c' rest' hc
    rw [h] at hc
    obtain ⟨rfl, rfl⟩ := List.cons.inj hc
    rfl

/-- What is left behind the first token is shorter than the text. -/
theorem length_rest_lt {α : Type} {c : Char} {rest : List Char} (h : skipTrivia cs = c :: rest)
    (r : Reading α (c :: rest)) : r.rest.length < cs.length := by
  have hle := skipTrivia_le cs
  rw [h] at hle
  exact Nat.lt_of_lt_of_le r.shorter hle

/-- The first token of a text, without its place, and those of what is left. -/
theorem forget_scanFrom_cons {c : Char} {rest : List Char} (h : skipTrivia cs = c :: rest)
    (here : Cursor) :
    forget (scanFrom afterMatches here cs) =
      match scan afterMatches c rest with
      | .error fault => .error fault
      | .ok r => (forget (scanFrom (allowsPattern r.value)
          ((here.to cs (c :: rest)).to (c :: rest) r.rest) r.rest)).map (r.value :: ·) := by
  rw [scanFrom_cons h]
  cases scan afterMatches c rest with
  | error fault => rfl
  | ok r =>
    simp only
    cases scanFrom (allowsPattern r.value)
      ((here.to cs (c :: rest)).to (c :: rest) r.rest) r.rest <;> rfl

/-- Where a text stands makes no difference to its tokens. -/
theorem forget_scanFrom (here : Cursor) :
    forget (scanFrom afterMatches here cs) = tokens afterMatches cs := by
  have hboth (there : Cursor) :
      forget (scanFrom afterMatches here cs) = forget (scanFrom afterMatches there cs) := by
    -- The induction is on how much text is left behind the first token.
    induction hn : cs.length using Nat.strongRecOn generalizing afterMatches cs here there with
    | _ n ih =>
      cases hs : skipTrivia cs with
      | nil => rw [scanFrom_nil hs, scanFrom_nil hs]
      | cons c rest =>
        rw [forget_scanFrom_cons hs, forget_scanFrom_cons hs]
        cases scan afterMatches c rest with
        | error fault => rfl
        | ok r =>
          have hlt := hn ▸ length_rest_lt hs r
          exact congrArg (Except.map (r.value :: ·)) (ih r.rest.length hlt _ _ rfl)
  exact hboth ⟨0, 1⟩

theorem tokens_of_skipTrivia_nil (h : skipTrivia cs = []) : tokens afterMatches cs = .ok [] := by
  rw [tokens, scanFrom_nil h]
  rfl

/-- The first token of a text, and those of what is left. -/
theorem tokens_of_skipTrivia {c : Char} {rest : List Char} (h : skipTrivia cs = c :: rest) :
    tokens afterMatches cs =
      match scan afterMatches c rest with
      | .error fault => .error fault
      | .ok r => (tokens (allowsPattern r.value) r.rest).map (r.value :: ·) := by
  rw [tokens, forget_scanFrom_cons h]
  cases scan afterMatches c rest with
  | error fault => rfl
  | ok r => exact congrArg (Except.map (r.value :: ·)) (forget_scanFrom _)

end

/-- A text is spelled with some tokens if they are what is read of it before what follows. -/
def Spells (cs : List Char) (ts : List Token) (rest : List Char) : Prop :=
  tokens false (cs ++ rest) = (tokens false rest).map (ts ++ ·)

namespace Spells

theorem nil (rest : List Char) : Spells [] [] rest := by
  show tokens false rest = (tokens false rest).map ([] ++ ·)
  cases tokens false rest <;> rfl

theorem append {cs ds rest : List Char} {ts us : List Token} (h : Spells cs ts (ds ++ rest))
    (h' : Spells ds us rest) : Spells (cs ++ ds) (ts ++ us) rest := by
  rw [Spells, List.append_assoc, h, h']
  cases tokens false rest with
  | error e => rfl
  | ok vs => exact congrArg Except.ok (List.append_assoc ts us vs).symm

/-- A token that is read at the front of a text, and after which no pattern may stand. -/
theorem of_scan {c : Char} {cs rest : List Char} {t : Token}
    (hc : skipTrivia (c :: (cs ++ rest)) = c :: (cs ++ rest))
    (hs : ∃ h, scan false c (cs ++ rest) = .ok ⟨t, rest, h⟩) (ha : allowsPattern t = false) :
    Spells (c :: cs) [t] rest := by
  obtain ⟨hlt, hs⟩ := hs
  rw [Spells, List.cons_append, tokens_of_skipTrivia hc, hs]
  simp only [ha]
  rfl

theorem tokens_eq {cs : List Char} {ts : List Token} (h : Spells cs ts []) :
    tokens false cs = .ok ts := by
  have hnil : tokens false [] = .ok [] := tokens_of_skipTrivia_nil skipTrivia.eq_1
  rw [Spells, List.append_nil, hnil] at h
  rw [h]
  exact congrArg Except.ok (List.append_nil ts)

end Spells

theorem skipTrivia_blank {c : Char} (h : isBlank c) (rest : List Char) :
    skipTrivia (c :: rest) = skipTrivia rest := by
  rw [skipTrivia, if_pos h]

/-- A text that begins neither with a blank nor with a comment begins with a token. -/
theorem skipTrivia_of_token {c : Char} {rest : List Char} (hb : isBlank c = false)
    (hd : dropComment (c :: rest) = none) : skipTrivia (c :: rest) = c :: rest := by
  rw [skipTrivia, if_neg (by rw [hb]; decide)]
  split
  · rename_i after heq
    rw [hd] at heq
    cases heq
  · rfl

/-- No comment begins without a hash and without two slashes. -/
theorem skipTrivia_of_ne {c : Char} {rest : List Char} (hb : isBlank c = false) (hh : c ≠ '#')
    (hs : c = '/' → rest.head? ≠ some '/') : skipTrivia (c :: rest) = c :: rest := by
  refine skipTrivia_of_token hb ?_
  unfold dropComment
  split
  · rename_i heq
    exact absurd (List.cons.inj heq).1 hh
  · rename_i heq
    obtain ⟨rfl, rfl⟩ := List.cons.inj heq
    exact absurd rfl (hs rfl)
  · rfl

theorem tokens_congr {cs ds : List Char} (h : skipTrivia cs = skipTrivia ds)
    (afterMatches : Bool) : tokens afterMatches cs = tokens afterMatches ds := by
  cases hs : skipTrivia ds with
  | nil => rw [tokens_of_skipTrivia_nil hs, tokens_of_skipTrivia_nil (h.trans hs)]
  | cons c rest => rw [tokens_of_skipTrivia hs, tokens_of_skipTrivia (h.trans hs)]

theorem tokens_blank {c : Char} (h : isBlank c) (afterMatches : Bool) (rest : List Char) :
    tokens afterMatches (c :: rest) = tokens afterMatches rest :=
  tokens_congr (skipTrivia_blank h rest) afterMatches

theorem Spells.blank {c : Char} (h : isBlank c) (rest : List Char) : Spells [c] [] rest := by
  rw [Spells, List.singleton_append, tokens_blank h]
  cases tokens false rest <;> rfl

end Bylaw.Token
