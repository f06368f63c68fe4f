import Bylaw.Pattern.CharSet

/-! Patterns as trees, and where in a text they match. A tree takes the set of positions that
a match may have reached to the set of those that it can reach from there. -/

namespace Bylaw.Pattern

/-- What an empty match may ask of its neighbours. -/
inductive Look where
  | start
  | stop
  | lineStart
  | lineStop
  | crlfLineStart
  | crlfLineStop
  | edge (word : CharSet)
  | notEdge (word : CharSet)
  | wordStart (word : CharSet)
  | wordStop (word : CharSet)
  | notAfterWord (word : CharSet)
  | notBeforeWord (word : CharSet)

/-- The characters before and after a position. -/
structure Place where
  before : Option Char
  after : Option Char

/-- Whether a neighbour is in a set; there is none beyond the ends of a text. -/
def Place.isIn (s : CharSet) (c : Option Char) : Bool := c.any s

/-- Whether a position has the neighbours that are asked for. -/
def Look.holds (p : Place) : Look → Bool
  | .start => p.before.isNone
  | .stop => p.after.isNone
  | .lineStart => p.before.isNone || p.before == some '\n'
  | .lineStop => p.after.isNone || p.after == some '\n'
  | .crlfLineStart => p.before.isNone || p.before == some '\n' ||
      (p.before == some '\r' && p.after != some '\n')
  | .crlfLineStop => p.after.isNone || p.after == some '\r' ||
      (p.after == some '\n' && p.before != some '\r')
  | .edge w => Place.isIn w p.before != Place.isIn w p.after
  | .notEdge w => Place.isIn w p.before == Place.isIn w p.after
  | .wordStart w => !Place.isIn w p.before && Place.isIn w p.after
  | .wordStop w => Place.isIn w p.before && !Place.isIn w p.after
  | .notAfterWord w => !Place.isIn w p.before
  | .notBeforeWord w => !Place.isIn w p.after

/-- A pattern without the groups that only number its parts. -/
inductive Node where
  | empty
  | one (set : CharSet)
  | look (l : Look)
  | seq (first second : Node)
  | alt (first second : Node)
  | loop (body : Node) (least : Nat) (most : Option Nat)

/-- Positions of a text, each with the answer whether a match may have reached it. -/
abbrev Reached := List Bool

/-- The positions of a text with their neighbours. -/
def placesAfter (before : Option Char) : List Char → List Place
  | [] => [⟨before, none⟩]
  | c :: rest => ⟨before, some c⟩ :: placesAfter (some c) rest

/-- Runs `step` a number of times, or until nothing changes. -/
def repeatStep (step : Reached → Reached) : Nat → Reached → Reached
  | 0, s => s
  | n + 1, s =>
    let next := step s
    if next = s then s else repeatStep step n next

def join (s t : Reached) : Reached := List.zipWith (· || ·) s t

/-- The positions that a match of a tree can end at, if it begins at one of the given ones. -/
def Node.reach (text : List Char) (places : List Place) : Node → Reached → Reached
  | .empty, s => s
  | .one set, s => false :: List.zipWith (fun reached c => reached && set c) s text
  | .look l, s => List.zipWith (fun reached p => reached && l.holds p) s places
  | .seq a b, s => b.reach text places (a.reach text places s)
  | .alt a b, s => join (a.reach text places s) (b.reach text places s)
  | .loop body least most, s =>
    let s := repeatStep (body.reach text places) least s
    let more := match most with
      | some most => most - least
      | none => text.length + 1
    repeatStep (fun s => join s (body.reach text places s)) more s

/-- Whether a tree matches somewhere in a text. -/
def Node.matchesIn (node : Node) (text : List Char) : Bool :=
  let places := placesAfter none text
  (node.reach text places (places.map fun _ => true)).any id

end Bylaw.Pattern
