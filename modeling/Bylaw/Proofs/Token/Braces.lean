import Bylaw.Proofs.Token.Delimited

/-! The braces of a block, counted from the one that begins it. Main statement: their depth is
positive up to the brace that ends the block, and all along if none does. -/

namespace Bylaw.Token

/-- The depth of braces and the mode after some characters, from those before them; none if a brace
closes at depth zero. -/
def countBraces (state : Nat × BlockMode) (cs : List Char) : Option (Nat × BlockMode) :=
  cs.foldlM (fun state c => blockStep state.1 state.2 c) state

/-- Whether the depth of braces is positive before each of some characters and behind them. -/
def StaysOpen (state : Nat × BlockMode) (cs : List Char) : Prop :=
  ∀ front, front <+: cs → ∃ depth mode, countBraces state front = some (depth + 1, mode)

section

variable {opened opened' : Nat} {mode mode' : BlockMode} {c : Char} {cs : List Char}

theorem countBraces_cons {state : Nat × BlockMode} (h : blockStep opened mode c = some state) :
    countBraces (opened, mode) (c :: cs) = countBraces state cs := by
  rw [countBraces, List.foldlM_cons, h]
  rfl

theorem blockStep_succ (h : blockStep opened mode c = some (opened', mode')) :
    blockStep (opened + 1) mode c = some (opened' + 1, mode') := by
  cases mode with
  | escaped | inString =>
    obtain ⟨rfl, rfl⟩ := Prod.mk.inj (Option.some.inj h)
    rfl
  | outside =>
    simp only [blockStep] at h ⊢
    split_ifs at h ⊢
    · obtain ⟨rfl, rfl⟩ := Prod.mk.inj (Option.some.inj h)
      rfl
    · obtain ⟨rfl, rfl⟩ := Prod.mk.inj (Option.some.inj h)
      rfl
    · cases opened with
      | zero => cases h
      | succ opened =>
        obtain ⟨rfl, rfl⟩ := Prod.mk.inj (Option.some.inj h)
        rfl
    · obtain ⟨rfl, rfl⟩ := Prod.mk.inj (Option.some.inj h)
      rfl

theorem of_blockStep_eq_none (h : blockStep opened mode c = none) :
    opened = 0 ∧ mode = .outside ∧ c = '\x7d' := by
  cases mode with
  | escaped | inString => cases h
  | outside =>
    simp only [blockStep] at h
    split at h
    · cases h
    split at h
    · cases h
    split at h
    · rename_i hc
      cases opened with
      | zero => exact ⟨rfl, rfl, hc⟩
      | succ opened => cases h
    · cases h

namespace StaysOpen

theorem nil : StaysOpen (opened + 1, mode) [] := by
  intro front hfront
  obtain rfl := List.prefix_nil.mp hfront
  exact ⟨opened, mode, rfl⟩

theorem cons (hstep : blockStep opened mode c = some (opened', mode'))
    (h : StaysOpen (opened' + 1, mode') cs) : StaysOpen (opened + 1, mode) (c :: cs) := by
  intro front hfront
  cases front with
  | nil => exact ⟨opened, mode, rfl⟩
  | cons d front =>
    obtain ⟨rfl, htail⟩ := List.cons_prefix_cons.mp hfront
    rw [countBraces_cons (blockStep_succ hstep)]
    exact h front htail

end StaysOpen

/-- With the brace that begins the block counted too, the depth is positive up to the brace that
ends the block, which takes it to zero. -/
theorem countBraces_blockBody (opened : Nat) (mode : BlockMode) (cs : List Char) :
    match blockBody opened mode cs with
    | .ok r => ∃ body, cs = body ++ '\x7d' :: r.rest ∧ r.value = body ++ ['\x7d'] ∧
        countBraces (opened + 1, mode) r.value = some (0, .outside) ∧
        StaysOpen (opened + 1, mode) body
    | .error fault => fault = .unterminatedBlock ∧ StaysOpen (opened + 1, mode) cs := by
  -- The count runs one ahead of the depth that the scanner keeps, throughout.
  induction cs generalizing opened mode with
  | nil =>
    rw [blockBody.eq_def]
    exact ⟨rfl, StaysOpen.nil⟩
  | cons c rest ih =>
    rw [blockBody_cons]
    cases hstep : blockStep opened mode c with
    | none =>
      obtain ⟨rfl, rfl, rfl⟩ := of_blockStep_eq_none hstep
      exact ⟨[], rfl, rfl, rfl, StaysOpen.nil⟩
    | some state =>
      have hrest := ih state.1 state.2
      simp only
      cases hbody : blockBody state.1 state.2 rest with
      | error fault =>
        rw [hbody] at hrest
        exact ⟨hrest.1, hrest.2.cons hstep⟩
      | ok r =>
        rw [hbody] at hrest
        obtain ⟨body, hcs, hvalue, hcount, hopen⟩ := hrest
        refine ⟨c :: body, congrArg (c :: ·) hcs, congrArg (c :: ·) hvalue, ?_, hopen.cons hstep⟩
        exact (countBraces_cons (blockStep_succ hstep)).trans hcount

end

/-- How a block is read of a text that begins with a brace: up to the first character that takes the
depth of braces, counted from zero, back to zero. If there is none, the block is not read. -/
theorem countBraces_scan (am : Bool) (rest : List Char) :
    match scan am '\x7b' rest with
    | .ok r => ∃ body, '\x7b' :: rest = '\x7b' :: body ++ '\x7d' :: r.rest ∧
        r.value = .block (.ofList ('\x7b' :: body ++ ['\x7d'])) ∧
        countBraces (0, .outside) ('\x7b' :: body ++ ['\x7d']) = some (0, .outside) ∧
        ∀ front, front <+: body →
          ∃ depth mode, countBraces (0, .outside) ('\x7b' :: front) = some (depth + 1, mode)
    | .error fault => fault = .unterminatedBlock ∧ ∀ front, front <+: rest →
        ∃ depth mode, countBraces (0, .outside) ('\x7b' :: front) = some (depth + 1, mode) := by
  have hscan : scan am '\x7b' rest =
      match blockBody 0 .outside rest with
      | .ok r => .ok (r.map fun cs => .block (.ofList ('\x7b' :: cs))).behind
      | .error fault => .error fault := by
    cases am <;> rfl
  have hbody := countBraces_blockBody 0 .outside rest
  rw [hscan]
  cases hread : blockBody 0 .outside rest with
  | error fault =>
    rw [hread] at hbody
    exact hbody
  | ok r =>
    rw [hread] at hbody
    obtain ⟨body, hrest, hvalue, hcount, hopen⟩ := hbody
    rw [hvalue] at hcount
    exact ⟨body, congrArg ('\x7b' :: ·) hrest,
      congrArg (fun cs => Token.block (.ofList ('\x7b' :: cs))) hvalue, hcount, hopen⟩

end Bylaw.Token
