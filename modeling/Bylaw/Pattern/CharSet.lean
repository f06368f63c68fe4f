import Bylaw.Pattern.Category
import Bylaw.Pattern.Folding
import Bylaw.Text.Blank

/-! Sets of characters that patterns name: classes, properties and scripts. -/

namespace Bylaw.Pattern

/-- A set of characters, by its test. -/
abbrev CharSet := Char → Bool

namespace CharSet

def none : CharSet := fun _ => false

def all : CharSet := fun _ => true

def single (c : Char) : CharSet := fun d => c == d

def range (low high : Char) : CharSet := fun c => low ≤ c && c ≤ high

/-- The characters whose numbers lie in one of the given ranges. -/
def ranges (rs : List (Nat × Nat)) : CharSet := fun c =>
  rs.any fun (low, high) => low ≤ c.toNat && c.toNat ≤ high

def union (s t : CharSet) : CharSet := fun c => s c || t c

def inter (s t : CharSet) : CharSet := fun c => s c && t c

def diff (s t : CharSet) : CharSet := fun c => s c && !t c

def symmDiff (s t : CharSet) : CharSet := fun c => s c != t c

def compl (s : CharSet) : CharSet := fun c => !s c

/-- The characters that differ in case at most from one of the set. -/
def caseClosure (s : CharSet) : CharSet := fun c => s c || (caseVariants c).any s

/-- The ASCII characters that differ in case at most from one of the set, and the set. -/
def asciiCaseClosure (s : CharSet) : CharSet := fun c => s c || s c.toLower || s c.toUpper

/-- The characters of the general categories with the given letters; without a minor letter, all
of the major one. -/
def ofCategory (major : Char) (minor : Option Char) : CharSet := fun c =>
  let k := category c
  k.major == major && (minor.isNone || minor == some k.minor)

def digit : CharSet := fun c => if c.toNat < 128 then c.isDigit else ofCategory 'N' (some 'd') c

def space : CharSet := Text.isBlank

/-- Letter-like symbols in circles and squares. -/
def enclosedLetter : CharSet :=
  ranges [(0x24B6, 0x24E9), (0x1F130, 0x1F149), (0x1F150, 0x1F169), (0x1F170, 0x1F189)]

def asciiWord : CharSet := fun c => c.isAlphanum || c == '_'

/-- Characters of words: letters, marks, decimal digits, connecting punctuation and joiners. -/
def word : CharSet := fun c =>
  if c.toNat < 128 then asciiWord c
  else
    let k := category c
    k.major == 'L' || k.major == 'M' || k == ⟨'N', 'd'⟩ || k == ⟨'N', 'l'⟩ || k == ⟨'P', 'c'⟩ ||
      c.toNat == 0x200C || c.toNat == 0x200D || enclosedLetter c

/-- Letters, letter numbers, and marks that stand for letters. For these marks all spacing ones are
taken, and of the others one only. -/
def alphabetic : CharSet := fun c =>
  let k := category c
  k.major == 'L' || k == ⟨'N', 'l'⟩ || k == ⟨'M', 'c'⟩ || c.toNat == 0x345 || enclosedLetter c

def lowercase : CharSet := union (ofCategory 'L' (some 'l')) (ranges [(0xAA, 0xAA), (0xBA, 0xBA),
  (0x2B0, 0x2B8), (0x2C0, 0x2C1), (0x2E0, 0x2E4), (0x345, 0x345), (0x37A, 0x37A), (0x1D2C, 0x1D6A),
  (0x1D78, 0x1D78), (0x1D9B, 0x1DBF), (0x2071, 0x2071), (0x207F, 0x207F), (0x2090, 0x209C),
  (0x2170, 0x217F), (0x24D0, 0x24E9), (0x2C7C, 0x2C7D), (0xA69C, 0xA69D), (0xA770, 0xA770)])

def uppercase : CharSet := union (ofCategory 'L' (some 'u')) (ranges [(0x2160, 0x216F),
  (0x24B6, 0x24CF), (0x1F130, 0x1F149), (0x1F150, 0x1F169), (0x1F170, 0x1F189)])

/-- The ASCII class of the given name. -/
def asciiClass? (name : String) : Option CharSet :=
  match name with
  | "alnum" => some Char.isAlphanum
  | "alpha" => some Char.isAlpha
  | "ascii" => some (ranges [(0, 0x7F)])
  | "blank" => some (ranges [(9, 9), (0x20, 0x20)])
  | "cntrl" => some (ranges [(0, 0x1F), (0x7F, 0x7F)])
  | "digit" => some Char.isDigit
  | "graph" => some (ranges [(0x21, 0x7E)])
  | "lower" => some Char.isLower
  | "print" => some (ranges [(0x20, 0x7E)])
  | "punct" => some (ranges [(0x21, 0x2F), (0x3A, 0x40), (0x5B, 0x60), (0x7B, 0x7E)])
  | "space" => some (ranges [(9, 13), (0x20, 0x20)])
  | "upper" => some Char.isUpper
  | "word" => some asciiWord
  | "xdigit" => some (ranges [(0x30, 0x39), (0x41, 0x46), (0x61, 0x66)])
  | _ => Option.none

/-- The general categories by their long names, in the spelling that names are compared in. -/
def categoryNames : List (String × Char × Option Char) := [
  ("letter", 'L', Option.none), ("uppercaseletter", 'L', some 'u'),
  ("lowercaseletter", 'L', some 'l'), ("titlecaseletter", 'L', some 't'),
  ("modifierletter", 'L', some 'm'), ("otherletter", 'L', some 'o'), ("mark", 'M', Option.none),
  ("combiningmark", 'M', Option.none), ("nonspacingmark", 'M', some 'n'),
  ("spacingmark", 'M', some 'c'), ("enclosingmark", 'M', some 'e'), ("number", 'N', Option.none),
  ("decimalnumber", 'N', some 'd'), ("letternumber", 'N', some 'l'), ("othernumber", 'N', some 'o'),
  ("punctuation", 'P', Option.none), ("punct", 'P', Option.none),
  ("connectorpunctuation", 'P', some 'c'), ("dashpunctuation", 'P', some 'd'),
  ("openpunctuation", 'P', some 's'), ("closepunctuation", 'P', some 'e'),
  ("initialpunctuation", 'P', some 'i'), ("finalpunctuation", 'P', some 'f'),
  ("otherpunctuation", 'P', some 'o'), ("symbol", 'S', Option.none), ("mathsymbol", 'S', some 'm'),
  ("currencysymbol", 'S', some 'c'), ("modifiersymbol", 'S', some 'k'),
  ("othersymbol", 'S', some 'o'), ("separator", 'Z', Option.none),
  ("spaceseparator", 'Z', some 's'), ("lineseparator", 'Z', some 'l'),
  ("paragraphseparator", 'Z', some 'p'), ("other", 'C', Option.none), ("control", 'C', some 'c'),
  ("cntrl", 'C', some 'c'), ("format", 'C', some 'f'), ("surrogate", 'C', some 's'),
  ("privateuse", 'C', some 'o'), ("unassigned", 'C', some 'n')]

def categoryLetters : List String := ["l", "lu", "ll", "lt", "lm", "lo", "m", "mn", "mc", "me", "n",
  "nd", "nl", "no", "p", "pc", "pd", "ps", "pe", "pi", "pf", "po", "s", "sm", "sc", "sk", "so", "z",
  "zs", "zl", "zp", "c", "cc", "cf", "cs", "co", "cn"]

def categoryNamed? (name : String) : Option CharSet :=
  if name == "any" then some all
  else if name == "assigned" then some (compl (ofCategory 'C' (some 'n')))
  else if name == "ascii" then some (ranges [(0, 0x7F)])
  else if name == "lc" || name == "casedletter" then
    some fun c =>
      let k := category c
      k.major == 'L' && (k.minor == 'u' || k.minor == 'l' || k.minor == 't')
  else
    match categoryNames.find? (·.1 == name) with
    | some (_, major, minor) => some (ofCategory major minor)
    | Option.none =>
      if categoryLetters.contains name then
        match name.toList with
        | major :: rest => some (ofCategory major.toUpper rest.head?)
        | [] => Option.none
      else Option.none

/-- The characters of some scripts. A pattern that names another script is refused. -/
def scripts : List (String × List (Nat × Nat)) := [
  ("latin", [(0x41, 0x5A), (0x61, 0x7A), (0xAA, 0xAA), (0xBA, 0xBA), (0xC0, 0xD6), (0xD8, 0xF6),
    (0xF8, 0x2B8), (0x2E0, 0x2E4), (0x1D00, 0x1D25), (0x1D2C, 0x1D5C), (0x1D62, 0x1D65),
    (0x1D6B, 0x1D77), (0x1D79, 0x1DBE), (0x1E00, 0x1EFF), (0x2071, 0x2071), (0x207F, 0x207F),
    (0x2090, 0x209C), (0x212A, 0x212B), (0x2132, 0x2132), (0x214E, 0x214E), (0x2160, 0x2188),
    (0x2C60, 0x2C7F), (0xA722, 0xA787), (0xA78B, 0xA7CD), (0xA7D0, 0xA7D1), (0xA7D3, 0xA7D3),
    (0xA7D5, 0xA7DC), (0xA7F2, 0xA7FF), (0xAB30, 0xAB5A), (0xAB5C, 0xAB64), (0xAB66, 0xAB69),
    (0xFB00, 0xFB06), (0xFF21, 0xFF3A), (0xFF41, 0xFF5A), (0x10780, 0x10785), (0x10787, 0x107B0),
    (0x107B2, 0x107BA), (0x1DF00, 0x1DF1E), (0x1DF25, 0x1DF2A)]),
  ("greek", [(0x370, 0x373), (0x375, 0x377), (0x37A, 0x37D), (0x37F, 0x37F), (0x384, 0x384),
    (0x386, 0x386), (0x388, 0x38A), (0x38C, 0x38C), (0x38E, 0x3A1), (0x3A3, 0x3E1), (0x3F0, 0x3FF),
    (0x1D26, 0x1D2A), (0x1D5D, 0x1D61), (0x1D66, 0x1D6A), (0x1DBF, 0x1DBF), (0x1F00, 0x1F15),
    (0x1F18, 0x1F1D), (0x1F20, 0x1F45), (0x1F48, 0x1F4D), (0x1F50, 0x1F57), (0x1F59, 0x1F59),
    (0x1F5B, 0x1F5B), (0x1F5D, 0x1F5D), (0x1F5F, 0x1F7D), (0x1F80, 0x1FB4), (0x1FB6, 0x1FC4),
    (0x1FC6, 0x1FD3), (0x1FD6, 0x1FDB), (0x1FDD, 0x1FEF), (0x1FF2, 0x1FF4), (0x1FF6, 0x1FFE),
    (0x2126, 0x2126), (0xAB65, 0xAB65), (0x10140, 0x1018E), (0x101A0, 0x101A0),
    (0x1D200, 0x1D245)]),
  ("cyrillic", [(0x400, 0x484), (0x487, 0x52F), (0x1C80, 0x1C8A), (0x1D2B, 0x1D2B),
    (0x1D78, 0x1D78), (0x2DE0, 0x2DFF), (0xA640, 0xA69F), (0xFE2E, 0xFE2F), (0x1E030, 0x1E06D),
    (0x1E08F, 0x1E08F)]),
  ("armenian", [(0x531, 0x556), (0x559, 0x58A), (0x58D, 0x58F), (0xFB13, 0xFB17)]),
  ("hebrew", [(0x591, 0x5C7), (0x5D0, 0x5EA), (0x5EF, 0x5F4), (0xFB1D, 0xFB36), (0xFB38, 0xFB3C),
    (0xFB3E, 0xFB3E), (0xFB40, 0xFB41), (0xFB43, 0xFB44), (0xFB46, 0xFB4F)]),
  ("arabic", [(0x600, 0x604), (0x606, 0x60B), (0x60D, 0x61A), (0x61C, 0x61E), (0x620, 0x63F),
    (0x641, 0x64A), (0x656, 0x66F), (0x671, 0x6DC), (0x6DE, 0x6FF), (0x750, 0x77F), (0x870, 0x88E),
    (0x890, 0x891), (0x897, 0x8E1), (0x8E3, 0x8FF), (0xFB50, 0xFBC2), (0xFBD3, 0xFD3D),
    (0xFD40, 0xFD8F), (0xFD92, 0xFDC7), (0xFDCF, 0xFDCF), (0xFDF0, 0xFDFF), (0xFE70, 0xFE74),
    (0xFE76, 0xFEFC)]),
  ("devanagari", [(0x900, 0x950), (0x955, 0x963), (0x966, 0x97F), (0xA8E0, 0xA8FF),
    (0x11B00, 0x11B09)]),
  ("thai", [(0xE01, 0xE3A), (0xE40, 0xE5B)]),
  ("georgian", [(0x10A0, 0x10C5), (0x10C7, 0x10C7), (0x10CD, 0x10CD), (0x10D0, 0x10FA),
    (0x10FC, 0x10FF), (0x1C90, 0x1CBA), (0x1CBD, 0x1CBF), (0x2D00, 0x2D25), (0x2D27, 0x2D27),
    (0x2D2D, 0x2D2D)]),
  ("hangul", [(0x1100, 0x11FF), (0x302E, 0x302F), (0x3131, 0x318E), (0x3200, 0x321E),
    (0x3260, 0x327E), (0xA960, 0xA97C), (0xAC00, 0xD7A3), (0xD7B0, 0xD7C6), (0xD7CB, 0xD7FB),
    (0xFFA0, 0xFFBE), (0xFFC2, 0xFFC7), (0xFFCA, 0xFFCF), (0xFFD2, 0xFFD7), (0xFFDA, 0xFFDC)]),
  ("hiragana", [(0x3041, 0x3096), (0x309D, 0x309F), (0x1B001, 0x1B11F), (0x1B132, 0x1B132),
    (0x1B150, 0x1B152), (0x1F200, 0x1F200)]),
  ("katakana", [(0x30A1, 0x30FA), (0x30FD, 0x30FF), (0x31F0, 0x31FF), (0x32D0, 0x32FE),
    (0x3300, 0x3357), (0xFF66, 0xFF6F), (0xFF71, 0xFF9D), (0x1AFF0, 0x1AFF3), (0x1AFF5, 0x1AFFB),
    (0x1AFFD, 0x1AFFE), (0x1B000, 0x1B000), (0x1B120, 0x1B122), (0x1B155, 0x1B155),
    (0x1B164, 0x1B167)]),
  ("han", [(0x2E80, 0x2E99), (0x2E9B, 0x2EF3), (0x2F00, 0x2FD5), (0x3005, 0x3005), (0x3007, 0x3007),
    (0x3021, 0x3029), (0x3038, 0x303B), (0x3400, 0x4DBF), (0x4E00, 0x9FFF), (0xF900, 0xFA6D),
    (0xFA70, 0xFAD9), (0x16FE2, 0x16FE3), (0x16FF0, 0x16FF1), (0x20000, 0x2A6DF),
    (0x2A700, 0x2B739), (0x2B740, 0x2B81D), (0x2B820, 0x2CEA1), (0x2CEB0, 0x2EBE0),
    (0x2EBF0, 0x2EE5D), (0x2F800, 0x2FA1D), (0x30000, 0x3134A), (0x31350, 0x323AF)])]

/-- Short names of scripts. -/
def scriptAliases : List (String × String) := [("latn", "latin"), ("grek", "greek"),
  ("cyrl", "cyrillic"), ("armn", "armenian"), ("hebr", "hebrew"), ("arab", "arabic"),
  ("deva", "devanagari"), ("geor", "georgian"), ("hang", "hangul"), ("hira", "hiragana"),
  ("kana", "katakana"), ("hani", "han")]

def scriptNamed? (name : String) : Option CharSet :=
  let full := ((scriptAliases.find? (·.1 == name)).map (·.2)).getD name
  (scripts.find? (·.1 == full)).map fun entry => ranges entry.2

/-- A property that is no category and no script. Four of them are known here. -/
def binaryProperty? (name : String) : Option CharSet :=
  match name with
  | "alphabetic" | "alpha" => some alphabetic
  | "lowercase" | "lower" => some lowercase
  | "uppercase" | "upper" => some uppercase
  | "whitespace" | "wspace" | "space" => some space
  | _ => Option.none

/-- Names of properties are compared without case, blanks, hyphens and underscores, and without a
leading `is`. -/
def normalName (name : List Char) : String :=
  let kept := (name.filter fun c => !(c == ' ' || c == '-' || c == '_')).map Char.toLower
  match kept with
  | 'i' :: 's' :: c :: rest => .ofList (c :: rest)
  | other => .ofList other

/-- The characters with the property that a name stands for. -/
def named? (name : List Char) : Option CharSet :=
  let n := normalName name
  (binaryProperty? n).or ((categoryNamed? n).or (scriptNamed? n))

/-- The characters with the given value of a property. A character belongs to its own script only,
also where the scripts are asked for that use it. -/
def valued? (property value : List Char) : Option CharSet :=
  let p := normalName property
  let v := normalName value
  if p == "generalcategory" || p == "gc" then categoryNamed? v
  else if p == "script" || p == "sc" || p == "scriptextensions" || p == "scx" then scriptNamed? v
  else Option.none

end CharSet

end Bylaw.Pattern
