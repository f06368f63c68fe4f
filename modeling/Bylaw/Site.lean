import Bylaw.Calendar
import Bylaw.Ident
import Bylaw.Store

/-! What a gateway keeps from one request to the next beside its rules, and what its handlers act
on. -/

namespace Bylaw

/-- The records, the time, the number of identifiers given out, and whatever else the handlers of
a particular gateway remember. -/
structure Site (τ : Type) where
  store : Store := {}
  clock : Instant
  issued : Nat := 0
  memory : τ

namespace Site

variable {τ : Type}

def timestamp (site : Site τ) : String := site.clock.text

def freshId (site : Site τ) : String × Site τ :=
  (Ident.text (site.issued + 1), { site with issued := site.issued + 1 })

/-- Appends an object to a collection, giving it an identifier if it has none. -/
def insert? (site : Site τ) (entity : String) (record : Json) : Option (Json × Site τ) :=
  let (id, later) := site.freshId
  (site.store.insert? entity id site.timestamp record).map fun (stored, store) =>
    (stored, { later with store })

end Site

end Bylaw
