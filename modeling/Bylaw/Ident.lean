/-! Identifiers that records are given: 122 bits in the layout of a random identifier, version 4. -/

namespace Bylaw.Ident

def space : Nat := Nat.pow 2 122

/-- An odd factor, which scatters consecutive numbers over the space without bringing two of them
together. -/
def scatter : Nat := 3211838877966109387120479835862913157

/-- A hexadecimal digit. -/
def digit (n : Nat) : Char := "0123456789abcdef".toList.getD n '0'

/-- The lowest `count` hexadecimal digits of a number, the highest of them first. -/
def digits : Nat → Nat → List Char
  | 0, _ => []
  | count + 1, n => digits count (n / 16) ++ [digit (n % 16)]

/-- The identifier with the given number: 48 bits, the version, 12 bits, the variant, and 62
bits. -/
def text (number : Nat) : String :=
  let bits := number * scatter % space
  let low := bits % Nat.pow 2 62
  let middle := bits / Nat.pow 2 62 % 0x1000
  let high := bits / Nat.pow 2 74
  let tail := digits 16 (0x8000000000000000 + low)
  .ofList <|
    digits 8 (high / 0x10000) ++ ['-'] ++ digits 4 (high % 0x10000) ++ ['-', '4'] ++
    digits 3 middle ++ ['-'] ++ tail.take 4 ++ ['-'] ++ tail.drop 4

end Bylaw.Ident
