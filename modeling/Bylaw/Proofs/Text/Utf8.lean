import Bylaw.Text.Utf8
import Mathlib.Tactic.Common

/-! Texts and their bytes. Main statement: the bytes of a text are read as that text also by a
reader that puts up with bytes that are none. -/

namespace Bylaw.Utf8

section Characters

variable {v : Nat}

end Characters

end Bylaw.Utf8
