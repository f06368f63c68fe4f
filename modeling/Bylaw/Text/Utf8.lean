/-! Texts as bytes. Bytes that are not the encoding of any text can still be read: what cannot be
part of a character stands for the replacement character. -/

namespace Bylaw.Utf8

/-- The bytes of a text. -/
def encode (s : String) : List UInt8 := s.toUTF8.data.toList

/-- The text that bytes encode, if they encode one. -/
def decode? (bytes : List UInt8) : Option String := String.fromUTF8? ⟨bytes.toArray⟩

/-- What a leading byte asks for: the number of bytes after it, and the least and the greatest
value that the first of them may have. -/
structure Lead where
  count : Nat
  low : Nat
  high : Nat

/-- The demands of a leading byte beyond ASCII. -/
def lead? (byte : Nat) : Option Lead :=
  if 0xC2 ≤ byte ∧ byte ≤ 0xDF then some ⟨1, 0x80, 0xBF⟩
  else if byte = 0xE0 then some ⟨2, 0xA0, 0xBF⟩
  else if byte = 0xED then some ⟨2, 0x80, 0x9F⟩
  else if 0xE1 ≤ byte ∧ byte ≤ 0xEF then some ⟨2, 0x80, 0xBF⟩
  else if byte = 0xF0 then some ⟨3, 0x90, 0xBF⟩
  else if 0xF1 ≤ byte ∧ byte ≤ 0xF3 then some ⟨3, 0x80, 0xBF⟩
  else if byte = 0xF4 then some ⟨3, 0x80, 0x8F⟩
  else none

/-- The bytes at the front that meet a leading byte's demands, as many as there are. -/
def tail : Nat → Nat → Nat → List UInt8 → List UInt8
  | count + 1, low, high, b :: rest =>
    if low ≤ b.toNat ∧ b.toNat ≤ high then b :: tail count 0x80 0xBF rest else []
  | _, _, _, _ => []

/-- The character of a leading byte and all the bytes that it asks for. -/
def charOf (byte : Nat) (bytes : List UInt8) : Char :=
  .ofNat (bytes.foldl (fun code b => code * 64 + (b.toNat - 0x80))
    (byte % Nat.pow 2 (6 - bytes.length)))

/-- Stands for bytes that are no character. -/
def replacement : Char := '\uFFFD'

/-- The text that bytes denote: the longest beginnings of characters that are not complete, and the
bytes that begin none, are replaced. -/
def decodeLossy : List UInt8 → List Char
  | [] => []
  | b :: rest =>
    if b.toNat < 0x80 then .ofNat b.toNat :: decodeLossy rest
    else
      match lead? b.toNat with
      | none => replacement :: decodeLossy rest
      | some lead =>
        let bytes := tail lead.count lead.low lead.high rest
        let c := if bytes.length = lead.count then charOf b.toNat bytes else replacement
        c :: decodeLossy (rest.drop bytes.length)
termination_by bytes => bytes.length
decreasing_by all_goals simp only [List.length_drop, List.length_cons]; omega

/-- The encoding of a text encodes that text. -/
theorem decode?_encode (s : String) : decode? (encode s) = some s := by
  have h : (⟨(encode s).toArray⟩ : ByteArray) = s.toUTF8 := by simp [encode]
  have hv : s.toUTF8.IsValidUTF8 := s.isValidUTF8
  simp only [decode?, h, String.fromUTF8?]
  rw [dif_pos hv]
  rfl

end Bylaw.Utf8
