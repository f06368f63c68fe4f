import Bylaw.Json.Reader
import Bylaw.Text.Blank
import Bylaw.Text.Numeral

/-! Internet addresses, as text. -/

namespace Bylaw

/-- Four bytes, or eight words of 16 bits. -/
inductive Address where
  | v4 (bytes : List Nat)
  | v6 (words : List Nat)
  deriving DecidableEq

namespace Address

/-- A number below 256 in one to three digits, without leading zeros. -/
def byte? (cs : List Char) : Option Nat :=
  if cs.length > 3 || (cs.length > 1 && cs.head? == some '0') then none
  else (Text.digits? cs).filter (· < 256)

/-- Four bytes with periods between them. -/
def bytes? (cs : List Char) : Option (List Nat) :=
  match (Text.splitAt (· == '.') cs).mapM byte? with
  | some bytes => if bytes.length = 4 then some bytes else none
  | none => none

/-- A word in one to four hexadecimal digits. -/
def word? (cs : List Char) : Option Nat :=
  if cs = [] || cs.length > 4 then none
  else (cs.mapM Json.hexValue?).map fun digits => digits.foldl (fun n d => n * 16 + d) 0

/-- Words with colons between them, the last two of which may be written as four bytes. -/
def words? (cs : List Char) : Option (List Nat) :=
  if cs = [] then some []
  else
    let pieces := Text.splitAt (· == ':') cs
    match pieces.getLast?.bind bytes? with
    | some [a, b, c, d] => (pieces.dropLast.mapM word?).map (· ++ [a * 256 + b, c * 256 + d])
    | _ => pieces.mapM word?

/-- The text before the first double colon, and the text after it. -/
def splitAtGap : List Char → Option (List Char × List Char)
  | [] => none
  | ':' :: ':' :: rest => some ([], rest)
  | c :: rest => (splitAtGap rest).map fun (before, after) => (c :: before, after)

/-- Eight words, some of which a double colon may stand for. -/
def v6? (cs : List Char) : Option Address :=
  match splitAtGap cs with
  | none => ((words? cs).filter (·.length = 8)).map .v6
  | some (before, after) =>
    match words? before, words? after with
    | some front, some back =>
      if front.length + back.length < 8 then
        some (.v6 (front ++ List.replicate (8 - front.length - back.length) 0 ++ back))
      else none
    | _, _ => none

/-- The address of a peer that is written with its port. -/
def ofPeer? (peer : String) : Option Address :=
  match peer.toList with
  | '[' :: rest => v6? (rest.takeWhile fun c => c ≠ ']' && c ≠ '%')
  | cs => (bytes? (cs.takeWhile (· ≠ ':'))).map .v4

def bytesText (bytes : List Nat) : List Char := ['.'].intercalate (bytes.map (Nat.toDigits 10))

def wordsText (words : List Nat) : List Char := [':'].intercalate (words.map (Nat.toDigits 16))

/-- The length of the run of zeros at the front. -/
def zerosAhead (words : List Nat) : Nat := (words.takeWhile (· = 0)).length

/-- The start and the length of the longest run of zeros, the first of them if there are several. -/
def longestGap : List Nat → Nat × Nat
  | [] => (0, 0)
  | w :: rest =>
    let (start, length) := longestGap rest
    let here := zerosAhead (w :: rest)
    if here ≥ length then (0, here) else (start + 1, length)

/-- The text of an address: a double colon stands for the longest run of two zeros or more, and an
address of the older kind within one of the newer keeps its form. -/
def text : Address → String
  | .v4 bytes => .ofList (bytesText bytes)
  | .v6 [0, 0, 0, 0, 0, 0xFFFF, high, low] =>
    .ofList ("::ffff:".toList ++ bytesText [high / 256, high % 256, low / 256, low % 256])
  | .v6 words =>
    let (start, length) := longestGap words
    .ofList <|
      if length > 1 then
        wordsText (words.take start) ++ [':', ':'] ++ wordsText (words.drop (start + length))
      else wordsText words

end Address

end Bylaw
