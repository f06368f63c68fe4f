/-! Finite double-precision numbers as a sign and a rank. The finite magnitudes, in increasing
order, are numbered from zero; the number of a magnitude is its rank. Order and equality are those
of signed ranks, and every operation is exact arithmetic on natural numbers followed by one
rounding to the nearest magnitude, a tie going to the even rank. -/

namespace Bylaw

/-- A finite double-precision number. Both zeros have rank zero. -/
structure Binary64 where
  negative : Bool
  rank : Nat
  finite : rank < 0x7FF0000000000000
  deriving DecidableEq

namespace Binary64

/-- How many finite magnitudes there are. -/
def rankCount : Nat := 0x7FF0000000000000

def zero (negative : Bool) : Binary64 := ⟨negative, 0, by decide⟩

/-- The whole part of a magnitude: it stands for `significand * 2 ^ exponent`. -/
def significand (x : Binary64) : Nat :=
  if x.rank < 0x10000000000000 then x.rank
  else 0x10000000000000 + x.rank % 0x10000000000000

/-- The power of two that scales the significand. -/
def exponent (x : Binary64) : Int :=
  if x.rank < 0x10000000000000 then -1074 else (x.rank / 0x10000000000000 : Nat) - 1075

/-- The signed rank. It orders the finite numbers, and both zeros have key zero. -/
def key (x : Binary64) : Int := if x.negative then -(x.rank : Int) else x.rank

/-- Numeric equality: the two zeros are equal. -/
def equal (x y : Binary64) : Bool := x.key == y.key

def order (x y : Binary64) : Ordering := compare x.key y.key

def isZero (x : Binary64) : Bool := x.rank == 0

def neg (x : Binary64) : Binary64 := { x with negative := !x.negative }

/-- `n / d` to the nearest whole number, a tie going to the even one. -/
def roundHalfEven (n d : Nat) : Nat :=
  let q := n / d
  let r := n % d
  if 2 * r < d then q
  else if d < 2 * r then q + 1
  else if q % 2 = 0 then q else q + 1

/-- The ratio `n / d` divided by `2 ^ e`, as a ratio. -/
def scaleDown (n d : Nat) (e : Int) : Nat × Nat :=
  if 0 ≤ e then (n, d * Nat.pow 2 e.toNat) else (n * Nat.pow 2 (-e).toNat, d)

/-- The exponent at which the significand of `n / d` is a whole number of 53 bits, or the least
exponent there is. -/
def ratioExponent (n d : Nat) : Int :=
  let low : Int := (Nat.log2 n : Int) - Nat.log2 d - 53
  let (a, b) := scaleDown n d low
  max (-1074) (if a / b < 0x20000000000000 then low else low + 1)

/-- The rank of the magnitude nearest to `n / d`; ranks from `rankCount` on are beyond the largest
finite magnitude. A significand that rounds up to 54 bits carries into the next exponent. -/
def roundRank (n d : Nat) : Nat :=
  if n = 0 then 0
  else
    let e := ratioExponent n d
    let (a, b) := scaleDown n d e
    (e + 1074).toNat * 0x10000000000000 + roundHalfEven a b

/-- The double nearest to the ratio `n / d` of the given sign, if it is finite. -/
def ofRatio (negative : Bool) (n d : Nat) : Option Binary64 :=
  let rank := roundRank n d
  if h : rank < 0x7FF0000000000000 then some ⟨negative, rank, h⟩ else none

/-- The double nearest to `m * 2 ^ e`. -/
def ofScaled (negative : Bool) (m : Nat) (e : Int) : Option Binary64 :=
  if 0 ≤ e then ofRatio negative (m * Nat.pow 2 e.toNat) 1
  else ofRatio negative m (Nat.pow 2 (-e).toNat)

/-- The double nearest to an integer; one beyond the range is held as the largest magnitude. -/
def ofInt (i : Int) : Binary64 where
  negative := decide (i < 0)
  rank := min (roundRank i.natAbs 1) (0x7FF0000000000000 - 1)
  finite := by omega

/-- The double nearest to `digits * 10 ^ exponent`, if it is finite. The bounds on the number of
digits before the point lie far outside the range of finite magnitudes. -/
def ofDecimal (negative : Bool) (digits : Nat) (exponent : Int) : Option Binary64 :=
  if digits = 0 then some (zero negative)
  else
    let places : Int := (Nat.toDigits 10 digits).length + exponent
    if 400 < places then none
    else if places < -400 then some (zero negative)
    else if 0 ≤ exponent then ofRatio negative (digits * Nat.pow 10 exponent.toNat) 1
    else ofRatio negative digits (Nat.pow 10 (-exponent).toNat)

/-- The numerator of `x` over `2 ^ e`, for an exponent that is not above that of `x`. -/
def numeratorAt (x : Binary64) (e : Int) : Int :=
  let m : Int := (x.significand * Nat.pow 2 (x.exponent - e).toNat : Nat)
  if x.negative then -m else m

/-- The sum, if it is finite. A sum of opposite numbers is the positive zero. -/
def add (x y : Binary64) : Option Binary64 :=
  let e := min x.exponent y.exponent
  let sum := x.numeratorAt e + y.numeratorAt e
  if sum = 0 then some (zero (x.negative && y.negative))
  else ofScaled (decide (sum < 0)) sum.natAbs e

def sub (x y : Binary64) : Option Binary64 := x.add y.neg

/-- The product, if it is finite. -/
def mul (x y : Binary64) : Option Binary64 :=
  ofScaled (x.negative != y.negative) (x.significand * y.significand) (x.exponent + y.exponent)

/-- The quotient by a number other than zero, if it is finite. -/
def div (x y : Binary64) : Option Binary64 :=
  let e := x.exponent - y.exponent
  ofRatio (x.negative != y.negative) (x.significand * Nat.pow 2 e.toNat)
    (y.significand * Nat.pow 2 (-e).toNat)

/-- Numeric equality is an equivalence. -/
theorem equal_refl (x : Binary64) : x.equal x = true := by simp [equal]

theorem equal_symm (x y : Binary64) : x.equal y = y.equal x := by
  exact BEq.comm

theorem equal_trans {x y z : Binary64} (hxy : x.equal y) (hyz : y.equal z) : x.equal z := by
  simp only [equal, beq_iff_eq] at *
  exact hxy.trans hyz

end Binary64

end Bylaw
