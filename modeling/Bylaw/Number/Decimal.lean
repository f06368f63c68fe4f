import Bylaw.Number.Binary64

/-! Decimal text of finite doubles: the fewest digits that read back as the same double, and the
layout in which a number is written. -/

namespace Bylaw

/-- The number `digits * 10 ^ exponent`. -/
structure Decimal where
  digits : Nat
  exponent : Int
  deriving DecidableEq

namespace Decimal

/-- The digits of a natural number in base ten, most significant first. -/
def digitChars (n : Nat) : List Char := Nat.toDigits 10 n

/-- The number that a list of decimal digits denotes, most significant first. -/
def ofDigitChars (cs : List Char) : Nat :=
  cs.foldl (fun n c => 10 * n + (c.toNat - '0'.toNat)) 0

/-- `10 ^ places` is the largest power of ten that is not above `n / d`, for a ratio above zero. -/
def leadingPlace (n d : Nat) : Int :=
  if d ≤ n then ((digitChars (n / d)).length : Int) - 1
  else -((digitChars ((d - 1) / n)).length : Int)

/-- Whether reading `t` gives `x`, the sign apart. -/
def readsBackAs (t : Decimal) (x : Binary64) : Bool :=
  match Binary64.ofDecimal x.negative t.digits t.exponent with
  | some y => y == x
  | none => false

def ratioOf (x : Binary64) : Nat × Nat :=
  (x.significand * Nat.pow 2 x.exponent.toNat, Nat.pow 2 (-x.exponent).toNat)

/-- The nearer of the two neighbours of `x` on the grid `10 ^ e` that read back as `x`; of two that
are equally near the one with an even last digit. -/
def nearestAt (x : Binary64) (e : Int) : Option Decimal :=
  let (n, d) := ratioOf x
  let n := n * Nat.pow 10 (-e).toNat
  let d := d * Nat.pow 10 e.toNat
  let low : Decimal := ⟨n / d, e⟩
  let high : Decimal := ⟨n / d + 1, e⟩
  match low.readsBackAs x, high.readsBackAs x with
  | true, true => some (if Binary64.roundHalfEven n d = n / d then low else high)
  | true, false => some low
  | false, true => some high
  | false, false => none

/-- The magnitude of `x` with all its digits. -/
def exact (x : Binary64) : Decimal :=
  if 0 ≤ x.exponent then ⟨x.significand * Nat.pow 2 x.exponent.toNat, 0⟩
  else ⟨x.significand * Nat.pow 5 (-x.exponent).toNat, x.exponent⟩

/-- The first of the next `fuel` grids, from the one with `count` digits on, that has a number
which reads back as `x`. -/
def searchFrom (x : Binary64) (place : Int) : Nat → Nat → Decimal
  | 0, _ => exact x
  | fuel + 1, count =>
    match nearestAt x (place + 1 - count) with
    | some t => t
    | none => searchFrom x place fuel (count + 1)

/-- The decimal with the fewest digits that reads back as `x`, and the nearest to `x` of those.
Seventeen digits are always enough. -/
def shortest (x : Binary64) : Decimal :=
  if x.isZero then ⟨0, 0⟩
  else
    let (n, d) := ratioOf x
    searchFrom x (leadingPlace n d) 17 1

/-- Where the positional notation of doubles ends: exponents of the leading digit outside these
bounds are written as a power of ten. -/
structure Layout where
  lowest : Int
  highest : Int

/-- Doubles from `0.00001` up to `10 ^ 16` are written positionally. -/
def Layout.plain : Layout := ⟨-5, 15⟩

/-- The digits without the zeros at their end, and how many there were. -/
def trimZeros (cs : List Char) : List Char × Nat :=
  let kept := (cs.reverse.dropWhile (· == '0')).reverse
  (kept, cs.length - kept.length)

/-- Positional notation of the digits `ds`, the first of which stands at place `place`. There is
always a fraction. -/
def positional (ds : List Char) (place : Int) : List Char :=
  if place < 0 then
    '0' :: '.' :: (List.replicate (-place - 1).toNat '0' ++ ds)
  else
    let whole := place.toNat + 1
    if ds.length ≤ whole then ds ++ List.replicate (whole - ds.length) '0' ++ ['.', '0']
    else ds.take whole ++ '.' :: ds.drop whole

/-- Notation with a power of ten: one digit before the point, and a sign on the power. -/
def scientific (ds : List Char) (place : Int) : List Char :=
  let mantissa := match ds with
    | [] => ['0']
    | [c] => [c]
    | c :: rest => c :: '.' :: rest
  let power := digitChars place.natAbs
  mantissa ++ 'e' :: (if place < 0 then '-' else '+') :: power

def text (layout : Layout) (t : Decimal) : List Char :=
  if t.digits = 0 then ['0', '.', '0']
  else
    let all := digitChars t.digits
    let (ds, _) := trimZeros all
    let place := t.exponent + all.length - 1
    if layout.lowest ≤ place ∧ place ≤ layout.highest then positional ds place
    else scientific ds place

end Decimal

/-- A double is written with the fewest digits that read back. -/
def Binary64.text (x : Binary64) : List Char :=
  (if x.negative then ['-'] else []) ++ (Decimal.shortest x).text .plain

end Bylaw
