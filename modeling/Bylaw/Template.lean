import Bylaw.FieldPath
import Bylaw.Json.Printer

/-! Texts with placeholders for fields of a record. A placeholder is a field reference between
a dollar sign with an opening brace and a closing brace. -/

namespace Bylaw

namespace Template

/-- A piece of a template. -/
inductive Part where
  | text (s : String)
  | field (path : FieldPath)
  deriving DecidableEq

/-- Why a text is no template. -/
inductive Fault where
  | unterminated (raw : String)
  | badPlaceholder (name : String)
  deriving DecidableEq

def Fault.message : Fault → String
  | .unterminated raw => s!"unterminated placeholder in \"{raw}\""
  | .badPlaceholder name => "invalid placeholder '$\x7b" ++ name ++ "\x7d'"

/-- The text before the first opening of a placeholder, and the text after it. -/
def splitOpening : List Char → Option (List Char × List Char)
  | [] => none
  | '$' :: '\x7b' :: rest => some ([], rest)
  | c :: rest => (splitOpening rest).map fun (before, after) => (c :: before, after)

theorem splitOpening_lt {cs before after : List Char} (h : splitOpening cs = some (before, after)) :
    after.length < cs.length := by
  fun_induction splitOpening cs generalizing before after with
  | case1 => simp at h
  | case2 rest => simp at h; simp only [← h.2, List.length_cons]; omega
  | case3 c rest _ ih =>
    simp only [Option.map_eq_some_iff, Prod.exists, Prod.mk.injEq] at h
    obtain ⟨b, a, hs, -, rfl⟩ := h
    have := ih hs
    simp; omega

/-- The text before the first closing brace, and the text after it. -/
def splitClosing : List Char → Option (List Char × List Char)
  | [] => none
  | c :: rest =>
    if c = '\x7d' then some ([], rest)
    else (splitClosing rest).map fun (before, after) => (c :: before, after)

theorem splitClosing_lt {cs before after : List Char} (h : splitClosing cs = some (before, after)) :
    after.length < cs.length := by
  fun_induction splitClosing cs generalizing before after with
  | case1 => simp at h
  | case2 rest => simp at h; simp [← h.2]
  | case3 c rest _ ih =>
    simp only [Option.map_eq_some_iff, Prod.exists, Prod.mk.injEq] at h
    obtain ⟨b, a, hs, -, rfl⟩ := h
    have := ih hs
    simp; omega

def textPart (cs : List Char) : List Part := if cs.isEmpty then [] else [.text (.ofList cs)]

/-- The pieces of a text, which is what is left of `raw`. -/
def partsOf (raw : String) (cs : List Char) : Except Fault (List Part) :=
  match ho : splitOpening cs with
  | none => .ok (textPart cs)
  | some (before, after) =>
    match hc : splitClosing after with
    | none => .error (.unterminated raw)
    | some (inside, rest) =>
      -- Blanks around a reference are not part of it.
      let name := Text.trim inside
      match FieldPath.read? name with
      | none => .error (.badPlaceholder (.ofList name))
      | some path =>
        have _shorter : rest.length < cs.length :=
          Nat.lt_trans (splitClosing_lt hc) (splitOpening_lt ho)
        match partsOf raw rest with
        | .ok parts => .ok (textPart before ++ .field path :: parts)
        | .error fault => .error fault
  termination_by cs.length

end Template

/-- A text with placeholders, in pieces. -/
structure Template where
  parts : List Template.Part
  deriving DecidableEq

namespace Template

/-- Reads a text as a template. -/
def read (raw : String) : Except Fault Template :=
  match partsOf raw raw.toList with
  | .ok parts => .ok ⟨parts⟩
  | .error fault => .error fault

def hasPlaceholders (t : Template) : Bool :=
  t.parts.any fun
    | .field _ => true
    | .text _ => false

/-- What a piece stands for in a record: an absent field stands for nothing. -/
def Part.render (record : Json) : Part → String
  | .text s => s
  | .field path => ((path.lookup? record).map Json.plain).getD ""

/-- The text a template stands for in a record. -/
def render (t : Template) (record : Json) : String :=
  String.join (t.parts.map (·.render record))

/-- The value a template stands for in a record. A placeholder alone stands for the value of its
field as it is. -/
def renderValue (t : Template) (record : Json) : Json :=
  match t.parts with
  | [.field path] => (path.lookup? record).getD .null
  | _ => .str (t.render record)

def Part.source : Part → String
  | .text s => s
  | .field path => "$\x7b" ++ path.text ++ "\x7d"

/-- The text of a template. -/
def source (t : Template) : String := String.join (t.parts.map Part.source)

def quoted (t : Template) : String := .ofList (Json.quote t.source)

end Template

/-- A JSON value whose strings are templates. -/
inductive Payload where
  | plain (value : Json)
  | text (template : Template)
  | list (items : List Payload)
  | record (fields : List (String × Payload))

namespace Payload

mutual

/-- Reads every string of a value as a template; the first that is none is at fault. -/
def ofJson : Json → Except Template.Fault Payload
  | .str s =>
    match Template.read s with
    | .ok t => .ok (.text t)
    | .error fault => .error fault
  | .arr items =>
    match ofItems items with
    | .ok items => .ok (.list items)
    | .error fault => .error fault
  | .obj fields =>
    match ofFields fields with
    | .ok fields => .ok (.record fields)
    | .error fault => .error fault
  | .null => .ok (.plain .null)
  | .bool b => .ok (.plain (.bool b))
  | .num n => .ok (.plain (.num n))

def ofItems : List Json → Except Template.Fault (List Payload)
  | [] => .ok []
  | v :: rest =>
    match ofJson v with
    | .error fault => .error fault
    | .ok item =>
      match ofItems rest with
      | .ok items => .ok (item :: items)
      | .error fault => .error fault

def ofFields : List (String × Json) → Except Template.Fault (List (String × Payload))
  | [] => .ok []
  | (key, v) :: rest =>
    match ofJson v with
    | .error fault => .error fault
    | .ok item =>
      match ofFields rest with
      | .ok items => .ok ((key, item) :: items)
      | .error fault => .error fault

end

mutual

/-- The value a payload stands for in a record. -/
def render (record : Json) : Payload → Json
  | .plain v => v
  | .text t => t.renderValue record
  | .list items => .arr (renderItems record items)
  | .record fields => .obj (renderFields record fields)

def renderItems (record : Json) : List Payload → List Json
  | [] => []
  | p :: rest => render record p :: renderItems record rest

def renderFields (record : Json) : List (String × Payload) → List (String × Json)
  | [] => []
  | (key, p) :: rest => (key, render record p) :: renderFields record rest

end

mutual

/-- The value a payload was read from, with placeholders in their plain form. -/
def source : Payload → Json
  | .plain v => v
  | .text t => .str t.source
  | .list items => .arr (sourceItems items)
  | .record fields => .obj (sourceFields fields)

def sourceItems : List Payload → List Json
  | [] => []
  | p :: rest => source p :: sourceItems rest

def sourceFields : List (String × Payload) → List (String × Json)
  | [] => []
  | (key, p) :: rest => (key, source p) :: sourceFields rest

end

mutual

/-- Payloads are equal if they have the same shape, templates and values. -/
def equal : Payload → Payload → Bool
  | .plain v, .plain w => v == w
  | .text s, .text t => s == t
  | .list xs, .list ys => equalItems xs ys
  | .record fs, .record gs => equalFields fs gs
  | _, _ => false

def equalItems : List Payload → List Payload → Bool
  | [], [] => true
  | x :: xs, y :: ys => equal x y && equalItems xs ys
  | _, _ => false

def equalFields : List (String × Payload) → List (String × Payload) → Bool
  | [], [] => true
  | (k, v) :: fs, (l, w) :: gs => k == l && equal v w && equalFields fs gs
  | _, _ => false

end

instance : BEq Payload := ⟨equal⟩

/-- The text of a payload: the compact text of its source. -/
def compact (p : Payload) : String := p.source.compact

end Payload

end Bylaw
