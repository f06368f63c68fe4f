import Bylaw.Json.Basic

/-! The reply that handlers put together: patches set its parts one by one, and once it is
terminated no patch changes it any more. -/

namespace Bylaw

/-- A change of a reply; what it does not name stays as it is. -/
structure Patch where
  status : Option Nat := none
  message : Option String := none
  error : Option Json := none
  data : Option Json := none
  moduleName : Option String := none
  deriving Inhabited

/-- What is answered to a request in place of, or together with, its data. -/
structure Reply where
  status : Option Nat := none
  message : Option String := none
  error : Option Json := none
  data : Option Json := none
  moduleName : Option String := none
  terminated : Bool := false
  deriving Inhabited

namespace Patch

/-- The status that terminates a reply and is not sent. -/
def terminalStatus : Nat := 1000

/-- Whether a patch asks for termination. -/
def isTerminal (p : Patch) : Bool := p.status == some terminalStatus

/-- A status is one of three digits, or the terminal one. -/
def isWellFormed (p : Patch) : Bool :=
  match p.status with
  | none => true
  | some s => (100 ≤ s && s < terminalStatus) || s == terminalStatus

end Patch

namespace Reply

/-- Ends a reply: what is set stays set. -/
def terminate (r : Reply) : Reply := { r with terminated := true }

/-- The reply after a patch; nothing if the patch is refused. A terminal status leaves the status
as it was. -/
def patch? (r : Reply) (p : Patch) : Option Reply :=
  if r.terminated || !p.isWellFormed then none
  else some {
    status := if p.isTerminal then r.status else p.status.or r.status
    message := p.message.or r.message
    error := p.error.or r.error
    data := p.data.or r.data
    moduleName := p.moduleName.or r.moduleName
    terminated := p.isTerminal }

def patch (r : Reply) (p : Patch) : Reply := (r.patch? p).getD r

/-- The reply after a status and what else comes with it; nothing if the status is refused. -/
def respond? (r : Reply) (status : Nat) (message : Option String) (error data : Option Json)
    (moduleName : Option String) : Option Reply :=
  r.patch? { status := some status, message, error, data, moduleName }

/-- The reply after patches, in order. -/
def merge (r : Reply) (patches : List Patch) : Reply := patches.foldl patch r

def isTouched (r : Reply) : Bool :=
  r.status.isSome || r.message.isSome || r.error.isSome || r.data.isSome || r.moduleName.isSome ||
    r.terminated

def httpStatus (r : Reply) : Nat := r.status.getD 200

/-- The body that is sent; `fallback` is its data unless a patch set some. -/
def body (r : Reply) (fallback : Json) : Json :=
  .ofFields <|
    [("status", .ofNat r.httpStatus), ("data", r.data.getD fallback)] ++
    (r.message.map fun m => ("message", .str m)).toList ++
    (r.error.map fun e => ("error", e)).toList ++
    (r.moduleName.map fun m => ("module", .str m)).toList

@[simp] theorem merge_nil (r : Reply) : r.merge [] = r := rfl

@[simp] theorem merge_cons (r : Reply) (p : Patch) (ps : List Patch) :
    r.merge (p :: ps) = (r.patch p).merge ps := rfl

/-- A terminated reply takes no patch. -/
theorem patch_of_terminated {r : Reply} (h : r.terminated = true) (p : Patch) : r.patch p = r := by
  simp [patch, patch?, h]

theorem merge_of_terminated {r : Reply} (h : r.terminated = true) (ps : List Patch) :
    r.merge ps = r := by
  induction ps with
  | nil => rfl
  | cons p ps ih => rw [merge_cons, patch_of_terminated h, ih]

end Reply

end Bylaw
