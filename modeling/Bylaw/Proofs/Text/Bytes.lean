import Mathlib.Tactic.Common

/-! Places in a text by bytes. Main statement: from the byte of one character up to that of another
that is no earlier stand the characters between them. -/

namespace Bylaw.Text

/-- The number of bytes before a character of a text: those of the text less those of what is left
from that character on. -/
def byteOffset (source : String) (i : Nat) : Nat :=
  source.utf8ByteSize - (String.ofList (source.toList.drop i)).utf8ByteSize

/-- The text from one byte up to another, if they are in order and each is where a character begins
or the text ends. -/
def between? (source : String) (start stop : Nat) : Option String :=
  if h : String.Pos.Raw.IsValid source ⟨start⟩ ∧ String.Pos.Raw.IsValid source ⟨stop⟩ ∧
      start ≤ stop then
    some (String.extract (s := source) ⟨⟨start⟩, h.1⟩ ⟨⟨stop⟩, h.2.1⟩)
  else none

theorem between?_append (before text after : String) :
    between? (before ++ text ++ after) before.utf8ByteSize (before ++ text).utf8ByteSize =
      some text := by
  have hstart : String.Pos.Raw.IsValid (before ++ text ++ after) ⟨before.utf8ByteSize⟩ :=
    String.Pos.Raw.isValid_iff_exists_append.mpr
      ⟨before, text ++ after, String.append_assoc, rfl⟩
  have hstop : String.Pos.Raw.IsValid (before ++ text ++ after) ⟨(before ++ text).utf8ByteSize⟩ :=
    String.Pos.Raw.isValid_iff_exists_append.mpr ⟨before ++ text, after, rfl, rfl⟩
  have hle : before.utf8ByteSize ≤ (before ++ text).utf8ByteSize := by
    rw [String.utf8ByteSize_append]
    exact Nat.le_add_right _ _
  have hbegins : String.Pos.Splits ⟨⟨before.utf8ByteSize⟩, hstart⟩ before (text ++ after) :=
    ⟨String.append_assoc, rfl⟩
  have hends : String.Pos.Splits ⟨⟨(before ++ text).utf8ByteSize⟩, hstop⟩ (before ++ text) after :=
    ⟨rfl, rfl⟩
  obtain ⟨hin, hcopy⟩ := String.copy_slice_eq_iff_splits.mpr ⟨before, after, hbegins, hends⟩
  rw [between?, dif_pos ⟨hstart, hstop, hle⟩, String.extract_eq_copy_slice _ _ hin, hcopy]

section

variable (source : String)

theorem ofList_take_append_drop (i : Nat) :
    String.ofList (source.toList.take i) ++ String.ofList (source.toList.drop i) = source := by
  rw [← String.ofList_append, List.take_append_drop, String.ofList_toList]

theorem byteOffset_eq (i : Nat) :
    byteOffset source i = (String.ofList (source.toList.take i)).utf8ByteSize := by
  have hsize := congrArg String.utf8ByteSize (ofList_take_append_drop source i)
  rw [String.utf8ByteSize_append] at hsize
  rw [byteOffset]
  omega

theorem byteOffset_zero : byteOffset source 0 = 0 := by
  rw [byteOffset_eq]
  rfl

theorem byteOffset_length : byteOffset source source.toList.length = source.utf8ByteSize := by
  rw [byteOffset_eq, List.take_length, String.ofList_toList]

theorem isValid_byteOffset (i : Nat) : String.Pos.Raw.IsValid source ⟨byteOffset source i⟩ := by
  refine String.Pos.Raw.isValid_iff_exists_append.mpr
    ⟨_, _, (ofList_take_append_drop source i).symm, ?_⟩
  rw [byteOffset_eq]
  rfl

variable {i j : Nat}

theorem ofList_take_append (h : i ≤ j) :
    String.ofList (source.toList.take i) ++ String.ofList ((source.toList.drop i).take (j - i)) =
      String.ofList (source.toList.take j) := by
  rw [← String.ofList_append, ← List.take_add, Nat.add_sub_cancel' h]

theorem byteOffset_le (h : i ≤ j) : byteOffset source i ≤ byteOffset source j := by
  rw [byteOffset_eq, byteOffset_eq, ← ofList_take_append source h, String.utf8ByteSize_append]
  exact Nat.le_add_right _ _

theorem byteOffset_lt (h : i < j) (hj : j ≤ source.toList.length) :
    byteOffset source i < byteOffset source j := by
  have hpos : 0 < (String.ofList ((source.toList.drop i).take (j - i))).utf8ByteSize := by
    rw [Nat.pos_iff_ne_zero, Ne, String.utf8ByteSize_eq_zero_iff]
    intro hempty
    have hlength := congrArg (·.toList.length) hempty
    simp only [String.toList_ofList, List.length_take, List.length_drop] at hlength
    rw [String.toList_empty, List.length_nil] at hlength
    omega
  rw [byteOffset_eq, byteOffset_eq, ← ofList_take_append source (Nat.le_of_lt h),
    String.utf8ByteSize_append]
  exact Nat.lt_add_of_pos_right hpos

/-- What stands between the bytes of two characters are the characters between them. -/
theorem between?_byteOffset (h : i ≤ j) :
    between? source (byteOffset source i) (byteOffset source j) =
      some (.ofList ((source.toList.drop i).take (j - i))) := by
  have hparts := ofList_take_append source h
  have hbetween := between?_append (.ofList (source.toList.take i))
    (.ofList ((source.toList.drop i).take (j - i))) (.ofList (source.toList.drop j))
  rw [hparts, ofList_take_append_drop, ← byteOffset_eq, ← byteOffset_eq] at hbetween
  exact hbetween

end

end Bylaw.Text
