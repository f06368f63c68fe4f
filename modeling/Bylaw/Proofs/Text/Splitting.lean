import Bylaw.Text.Blank
import Mathlib.Tactic.Common

/-! The pieces of a text between separators. Main statements: pieces come apart again where they
were joined, and the pieces of a text join to it. -/

namespace Bylaw.Text

variable {separator : Char}

theorem splitAt_ne_nil (p : Char → Bool) (cs : List Char) : splitAt p cs ≠ [] := by
  cases cs with
  | nil => exact List.cons_ne_nil _ _
  | cons c rest =>
    rw [splitAt]
    split
    · exact List.cons_ne_nil _ _
    · split <;> exact List.cons_ne_nil _ _

theorem splitAt_append (p : Char → Bool) {c : Char} (hc : p c = true) (cs ds : List Char) :
    splitAt p (cs ++ c :: ds) = splitAt p cs ++ splitAt p ds := by
  induction cs with
  | nil =>
    rw [List.nil_append, splitAt.eq_2]
    cases hs : splitAt p ds with
    | nil => exact absurd hs (splitAt_ne_nil p ds)
    | cons piece pieces =>
      simp only [if_pos hc]
      rfl
  | cons d cs ih =>
    rw [List.cons_append, splitAt, splitAt, ih]
    cases hs : splitAt p cs with
    | nil => exact absurd hs (splitAt_ne_nil p cs)
    | cons piece pieces =>
      simp only [List.cons_append]
      split <;> rfl

theorem length_splitAt (p : Char → Bool) (cs : List Char) :
    (splitAt p cs).length = cs.countP p + 1 := by
  induction cs with
  | nil => rfl
  | cons c cs ih =>
    rw [splitAt]
    cases hs : splitAt p cs with
    | nil => exact absurd hs (splitAt_ne_nil p cs)
    | cons piece pieces =>
      rw [hs] at ih
      by_cases hc : p c = true
      · simp only [if_pos hc]
        rw [List.length_cons, ih, List.countP_cons_of_pos hc]
      · simp only [if_neg hc]
        rw [List.countP_cons_of_neg hc, ← ih, List.length_cons, List.length_cons]

theorem intercalate_splitAt (separator : Char) (cs : List Char) :
    [separator].intercalate (splitAt (· == separator) cs) = cs := by
  induction cs with
  | nil => rfl
  | cons c cs ih =>
    rw [splitAt]
    split
    · rename_i h
      rw [h] at ih
      rw [← ih]
      rfl
    · rename_i piece pieces h
      rw [h] at ih
      split
      · rename_i hc
        rw [List.intercalate_cons_cons, ih, beq_iff_eq.mp hc]
        rfl
      -- The character goes in front of the first piece, with or without others after it.
      · cases pieces with
        | nil =>
          rw [List.intercalate_singleton] at ih ⊢
          rw [ih]
        | cons next pieces =>
          rw [List.intercalate_cons_cons] at ih ⊢
          rw [← ih]
          rfl

end Bylaw.Text
