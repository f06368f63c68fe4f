/-! Criteria: trees of tests that are joined by conjunction and negation. A conjunction asks its
parts in order and stops at the first that fails. -/

namespace Bylaw

/-- A tree of tests, those at its leaves being of type `α`. -/
inductive Criterion (α : Type) where
  | always
  | leaf (test : α)
  | not (c : Criterion α)
  | all (cs : List (Criterion α))
  deriving Inhabited

namespace Criterion

variable {α : Type}

mutual

/-- Whether a criterion is met, if `holds` tells which tests hold. -/
def isMet (holds : α → Bool) : Criterion α → Bool
  | .always => true
  | .leaf test => holds test
  | .not c => !isMet holds c
  | .all cs => areMet holds cs

def areMet (holds : α → Bool) : List (Criterion α) → Bool
  | [] => true
  | c :: cs => isMet holds c && areMet holds cs

end

mutual

/-- The tests that are asked, in order. -/
def asked (holds : α → Bool) : Criterion α → List α
  | .always => []
  | .leaf test => [test]
  | .not c => asked holds c
  | .all cs => askedOf holds cs

def askedOf (holds : α → Bool) : List (Criterion α) → List α
  | [] => []
  | c :: cs => if isMet holds c then asked holds c ++ askedOf holds cs else asked holds c

end

def partCount? : Criterion α → Option Nat
  | .all cs => some cs.length
  | _ => none

theorem isMet_not (holds : α → Bool) (c : Criterion α) : isMet holds (.not c) = !isMet holds c := by
  simp [isMet]

/-- A conjunction is met if all its parts are. -/
theorem isMet_all (holds : α → Bool) (cs : List (Criterion α)) :
    isMet holds (.all cs) = cs.all (isMet holds) := by
  rw [isMet]
  induction cs with
  | nil => simp [areMet]
  | cons c cs ih => simp [areMet, ih]

end Criterion

end Bylaw
