import Bylaw.Number.Decimal

/-! The numbers of a JSON text: whole numbers that fit a signed or an unsigned 64-bit word, which
are exact, and doubles. The two kinds are different numbers even where their values agree. -/

namespace Bylaw

/-- A whole number that fits a signed or an unsigned 64-bit word. -/
structure WordInt where
  val : Int
  lower : -0x8000000000000000 ≤ val
  upper : val < 0x10000000000000000
  deriving DecidableEq

/-- Whether a whole number fits a signed 64-bit word. -/
def fitsInt64 (i : Int) : Bool := -0x8000000000000000 ≤ i && i < 0x8000000000000000

inductive Number where
  | int (i : WordInt)
  | real (x : Binary64)
  deriving DecidableEq

namespace Number

/-- A whole number, or the nearest double if it fits no word. -/
def ofInt (i : Int) : Number :=
  if h : -0x8000000000000000 ≤ i ∧ i < 0x10000000000000000 then .int ⟨i, h.1, h.2⟩
  else .real (Binary64.ofInt i)

def ofNat (n : Nat) : Number := ofInt n

def toBinary64 : Number → Binary64
  | .int i => Binary64.ofInt i.val
  | .real x => x

/-- The value of a whole number that fits a signed word. -/
def int64? : Number → Option Int
  | .int i => if i.val < 0x8000000000000000 then some i.val else none
  | .real _ => none

/-- The value of a whole number that is not below zero. -/
def uint64? : Number → Option Nat
  | .int i => if 0 ≤ i.val then some i.val.toNat else none
  | .real _ => none

def equal : Number → Number → Bool
  | .int i, .int j => i.val == j.val
  | .real x, .real y => x.equal y
  | _, _ => false

/-- The digits of a whole number, with a sign if it is below zero. -/
def intText (i : Int) : List Char :=
  (if i < 0 then ['-'] else []) ++ Decimal.digitChars i.natAbs

def text : Number → List Char
  | .int i => intText i.val
  | .real x => x.text

/-- Digits are taken into a significand as long as it fits an unsigned word; the result counts
those taken. -/
def takeDigits (significand : Nat) : List Char → Nat → Nat × Nat
  | [], taken => (significand, taken)
  | c :: rest, taken =>
    let next := significand * 10 + (c.toNat - '0'.toNat)
    if next < 0x10000000000000000 then takeDigits next rest (taken + 1) else (significand, taken)

/-- The double `10 ^ places`, for a number of places up to 308. -/
def powerOfTen (places : Nat) : Binary64 := (Binary64.ofDecimal false 1 places).getD (.zero false)

/-- Scales a double by a power of ten with one multiplication, or with one division for each 308
places down. Nothing is left of a 64-bit significand after three of these. -/
def scaleByTen (x : Binary64) (places : Int) : Nat → Option Binary64
  | 0 => some (.zero false)
  | fuel + 1 =>
    if x.isZero then some x
    else if 308 < places then none
    else if 0 ≤ places then x.mul (powerOfTen places.toNat)
    else if -308 ≤ places then x.div (powerOfTen (-places).toNat)
    else (x.div (powerOfTen 308)).bind fun y => scaleByTen y (places + 308) fuel

/-- The double that a JSON text with a fraction or an exponent denotes: the significand is rounded
first and scaled after. Digits past those that fit a word are dropped; dropped digits before the
point count as places. -/
def ofParts (negative : Bool) (whole fraction : List Char) (exponent : Int) : Option Number :=
  let (head, taken) := takeDigits 0 whole 0
  let (significand, places) := takeDigits head fraction 0
  let scale : Int := exponent + (whole.length - taken : Nat) - places
  (scaleByTen (Binary64.ofInt significand) scale 4).map fun x =>
    .real (if negative then x.neg else x)

/-- The number that a JSON text of digits alone denotes. Minus zero is a double. -/
def ofDigits (negative : Bool) (digits : List Char) : Option Number :=
  let n := Decimal.ofDigitChars digits
  if 0x10000000000000000 ≤ n then ofParts negative digits [] 0
  else if negative then
    if n = 0 ∨ 0x8000000000000000 < n then some (.real (Binary64.ofInt n).neg)
    else some (.ofInt (-n))
  else some (.ofNat n)

theorem equal_refl (n : Number) : n.equal n = true := by
  cases n <;> simp [equal, Binary64.equal_refl]

theorem equal_symm (m n : Number) : m.equal n = n.equal m := by
  cases m <;> cases n
  · exact BEq.comm
  · rfl
  · rfl
  · exact Binary64.equal_symm _ _

theorem equal_trans {l m n : Number} (hlm : l.equal m) (hmn : m.equal n) : l.equal n := by
  cases l <;> cases m <;> cases n <;> simp_all [equal]
  exact Binary64.equal_trans hlm hmn

end Number

end Bylaw
