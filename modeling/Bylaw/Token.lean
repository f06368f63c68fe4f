import Bylaw.Number

/-! The tokens of rule texts. -/

namespace Bylaw

inductive Symbol where
  | equal
  | notEqual
  | greater
  | greaterOrEqual
  | less
  | lessOrEqual
  | plus
  | minus
  | star
  | slash
  | openParen
  | closeParen
  | comma
  | semicolon
  | pipe
  deriving DecidableEq

namespace Symbol

def text : Symbol → String
  | .equal => "="
  | .notEqual => "!="
  | .greater => ">"
  | .greaterOrEqual => ">="
  | .less => "<"
  | .lessOrEqual => "<="
  | .plus => "+"
  | .minus => "-"
  | .star => "*"
  | .slash => "/"
  | .openParen => "("
  | .closeParen => ")"
  | .comma => ","
  | .semicolon => ";"
  | .pipe => "|"

end Symbol

/-- A word is a name, a keyword or a dotted reference. -/
inductive Token where
  | word (w : String)
  | number (n : Number)
  | str (s : String)
  | pattern (source : String)
  | block (json : String)
  | symbol (s : Symbol)
  deriving DecidableEq

namespace Token

/-- How messages name a token. -/
def describe : Token → String
  | .word w => s!"'{w}'"
  | .number n => "number " ++ .ofList n.text
  | .str s => s!"string \"{s}\""
  | .pattern source => s!"regex /{source}/"
  | .block _ => "object literal"
  | .symbol s => s!"'{s.text}'"

/-- A token and where it stands: its line, counted from one, and the characters it takes up. -/
structure Placed where
  token : Token
  line : Nat
  start : Nat
  stop : Nat
  deriving DecidableEq

end Token

end Bylaw
