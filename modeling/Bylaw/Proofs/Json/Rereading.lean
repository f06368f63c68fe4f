import Bylaw.Json.Printer
import Bylaw.Proofs.Json.Reading
import Bylaw.Proofs.Number.Numeral
import Bylaw.Proofs.Token.Quoting

/-! Reading the text of a value. Main statement: the text of a value is read, if the value is not
nested too deeply, as that value with each number read from its own text. -/

namespace Bylaw.Json

mutual

/-- How deep arrays and objects are nested. -/
def depth : Json → Nat
  | .arr items => depthOfItems items + 1
  | .obj fields => depthOfFields fields + 1
  | _ => 0

def depthOfItems : List Json → Nat
  | [] => 0
  | v :: vs => max (depth v) (depthOfItems vs)

def depthOfFields : List (String × Json) → Nat
  | [] => 0
  | (_, v) :: fields => max (depth v) (depthOfFields fields)

end

mutual

/-- A value with each number read from its text, if they all denote one. -/
def reread? : Json → Option Json
  | .num n => n.reread?.map .num
  | .arr items => (rereadItems? items).map .arr
  | .obj fields => (rereadFields? fields).map .ofFields
  | v => some v

def rereadItems? : List Json → Option (List Json)
  | [] => some []
  | v :: vs => (reread? v).bind fun w => (rereadItems? vs).map (w :: ·)

def rereadFields? : List (String × Json) → Option (List (String × Json))
  | [] => some []
  | (name, v) :: fields =>
    (reread? v).bind fun w => (rereadFields? fields).map ((name, w) :: ·)

end

theorem skipBlank_cons {c : Char} (h : isBlank c = false) (cs : List Char) :
    skipBlank (c :: cs) = c :: cs := by
  simp [skipBlank, h]

/-- What may follow a value inside another one. -/
def EndsValue (rest : List Char) : Prop := ∀ c ∈ rest.head?, c = ',' ∨ c = ']' ∨ c = '\x7d'

theorem EndsValue.nil : EndsValue [] := nofun

theorem EndsValue.endsNumber {rest : List Char} (h : EndsValue rest) : EndsNumber rest := by
  intro c hc
  rcases h c hc with rfl | rfl | rfl <;> decide

theorem EndsValue.skipBlank {rest : List Char} (h : EndsValue rest) : skipBlank rest = rest := by
  cases rest with
  | nil => rfl
  | cons c cs => rcases h c rfl with rfl | rfl | rfl <;> rfl

section Parts

variable {α β : Type} {closing : Char}
  {part : (cs : List Char) → Except ReadError (Reading α cs)}

/-- A text is read as a value, or not at all, whatever follows it inside another one. -/
def ReadAs (part : (cs : List Char) → Except ReadError (Reading α cs)) (text : List Char)
    (v? : Option α) : Prop :=
  ∀ rest, EndsValue rest → ∀ w after, Yields (part (text ++ rest)) w after ↔
    after = rest ∧ v? = some w

/-- The texts of parts with commas between them. -/
def separated (text : β → List Char) : List β → List Char
  | [] => []
  | x :: xs => text x ++ xs.flatMap fun x => ',' :: text x

theorem mapM_cons_eq_some {f : β → Option α} {x : β} {xs : List β} {ws : List α} :
    (x :: xs).mapM f = some ws ↔ ∃ v, f x = some v ∧ ∃ vs, xs.mapM f = some vs ∧ ws = v :: vs := by
  simp [List.mapM_cons, Option.bind_eq_some_iff, @eq_comm _ ws]

theorem separated_cons_cons (text : β → List Char) (x y : β) (ys : List β) (rest : List Char) :
    separated text (x :: y :: ys) ++ rest =
      text x ++ ',' :: (separated text (y :: ys) ++ rest) := by
  simp [separated]

variable {text : β → List Char} {read? : β → Option α}

theorem yields_parts_text (hc : closing = ']' ∨ closing = '\x7d') {x : β} {xs : List β}
    (h : ∀ y ∈ x :: xs, ReadAs part (text y) (read? y)) {rest after : List Char} {ws : List α} :
    Yields (parts closing part (separated text (x :: xs) ++ closing :: rest)) ws after ↔
      after = rest ∧ (x :: xs).mapM read? = some ws := by
  have hcomma : closing ≠ ',' := by rcases hc with rfl | rfl <;> decide
  have hends : EndsValue (closing :: rest) := by
    intro c hc'
    obtain rfl := Option.some.inj hc'
    exact .inr hc
  -- The last part is followed by the closing character, any other by a comma.
  induction xs generalizing x ws with
  | nil =>
    have hx := h x List.mem_cons_self (closing :: rest) hends
    have htext : separated text [x] ++ closing :: rest = text x ++ closing :: rest := by
      simp [separated]
    rw [htext, yields_parts hcomma]
    simp only [hx, and_assoc, exists_and_left, exists_eq_left, hends.skipBlank, List.cons.injEq,
      true_and, hcomma, false_and, exists_false, or_false, mapM_cons_eq_some, List.mapM_nil,
      Option.pure_def, Option.some.injEq, exists_eq_left']
    constructor
    · rintro ⟨v, hv, rfl, rfl⟩
      exact ⟨rfl, v, hv, rfl⟩
    · rintro ⟨rfl, v, hv, rfl⟩
      exact ⟨v, hv, rfl, rfl⟩
  | cons y ys ih =>
    have hends' : EndsValue (',' :: (separated text (y :: ys) ++ closing :: rest)) := by
      intro c hc
      exact .inl (Option.some.inj hc).symm
    have hx := h x List.mem_cons_self _ hends'
    have hy := @ih y (fun z hz => h z (List.mem_cons_of_mem x hz))
    rw [separated_cons_cons, yields_parts hcomma]
    simp only [hx, and_assoc, exists_and_left, exists_eq_left, hends'.skipBlank, List.cons.injEq,
      true_and, Ne.symm hcomma, false_and, false_or, exists_eq_left', hy,
      @mapM_cons_eq_some _ _ _ x]
    constructor
    · rintro ⟨v, hv, rfl, vs, hvs, rfl⟩
      exact ⟨rfl, v, hv, vs, hvs, rfl⟩
    · rintro ⟨rfl, v, hv, vs, hvs, rfl⟩
      exact ⟨v, hv, rfl, vs, hvs, rfl⟩

/-- Enclosed parts, none of which looks like the end of them, are read to the closing character. -/
theorem yields_enclosed_text (hc : closing = ']' ∨ closing = '\x7d') {xs : List β}
    (h : ∀ y ∈ xs, ReadAs part (text y) (read? y))
    (hfirst : ∀ y ∈ xs, ∃ c cs, text y = c :: cs ∧ isBlank c = false ∧ c ≠ closing)
    {rest after : List Char} {ws : List α} :
    Yields (enclosed closing part (separated text xs ++ closing :: rest)) ws after ↔
      after = rest ∧ xs.mapM read? = some ws := by
  have hblank : isBlank closing = false := by rcases hc with rfl | rfl <;> rfl
  rw [yields_enclosed]
  cases xs with
  | nil =>
    simp only [separated, List.nil_append, skipBlank_cons hblank, List.head?_cons, List.cons.injEq,
      true_and, ne_eq, not_true_eq_false, false_and, or_false, List.mapM_nil, Option.pure_def,
      Option.some.injEq, @eq_comm _ rest, @eq_comm _ ws]
  | cons x xs =>
    obtain ⟨c, cs, htext, hb, hne⟩ := hfirst x List.mem_cons_self
    have hskip : skipBlank (separated text (x :: xs) ++ closing :: rest) =
        separated text (x :: xs) ++ closing :: rest := by
      simp only [separated, htext, List.cons_append, skipBlank_cons hb]
    rw [yields_parts_text hc h, hskip]
    simp [separated, htext, hne]

end Parts

section Strings

variable {cs rest after : List Char}

/-- How a character is spelt between quotes: as itself, by a short escape, or by its number. -/
inductive Spelt : List Char → Char → Prop
  | plain {c : Char} (hq : c ≠ '"') (hb : c ≠ '\\') (hc : 0x20 ≤ c.toNat) : Spelt [c] c
  | escaped {e c : Char} (hu : e ≠ 'u') (he : simpleEscape? e = some c) : Spelt ['\\', e] c
  | numbered {a b d e c : Char} (he : (hexUnit? a b d e).bind charOfUnit? = some c) :
    Spelt ['\\', 'u', a, b, d, e] c

theorem stringBody_spelt {front : List Char} {c : Char} (hs : Spelt front c)
    (h : Yields (stringBody rest) cs after) :
    Yields (stringBody (front ++ rest)) (c :: cs) after := by
  obtain ⟨hlt, h⟩ := h
  cases hs with
  | plain hq hb hc =>
    have hguard : ¬(c = '\\' ∨ c.toNat < 0x20) := not_or.mpr ⟨hb, Nat.not_lt.mpr hc⟩
    rw [List.singleton_append, stringBody.eq_5 c rest hq (fun _ _ _ _ _ h => absurd h hb)
      (fun _ _ h => absurd h hb), if_neg hguard, h]
    exact ⟨Nat.lt_succ_of_lt hlt, rfl⟩
  | @escaped e c hu he =>
    show Yields (stringBody ('\\' :: e :: rest)) (c :: cs) after
    rw [stringBody.eq_4 e rest fun _ _ _ _ _ h => absurd h hu, he, h]
    exact ⟨Nat.lt_succ_of_lt (Nat.lt_succ_of_lt hlt), rfl⟩
  | numbered he =>
    obtain ⟨unit, hunit, hch⟩ := Option.bind_eq_some_iff.mp he
    simp only [List.cons_append, List.nil_append, stringBody, hunit, hch, h]
    exact ⟨_, rfl⟩

theorem charOfUnit?_hexDigit :
    ∀ n < 0x20, (hexUnit? '0' '0' (hexDigit (n / 16)) (hexDigit (n % 16))).bind charOfUnit? =
      some (.ofNat n) := by
  decide

theorem spelt_escape (c : Char) : Spelt (escape c) c := by
  obtain ⟨e, he, hu, -, hs⟩ | ⟨he, hc⟩ | ⟨he, hq, hb, hc⟩ := Token.escape_cases c
  · rw [he]
    exact .escaped hu hs
  · have hnumber := charOfUnit?_hexDigit c.toNat hc
    rw [Char.ofNat_toNat] at hnumber
    rw [he]
    exact .numbered hnumber
  · rw [he]
    exact .plain hq hb hc

theorem stringBody_quoted (s rest : List Char) :
    Yields (stringBody (s.flatMap escape ++ '"' :: rest)) s rest := by
  induction s with
  | nil =>
    rw [List.flatMap_nil, List.nil_append]
    refine ⟨Nat.lt_succ_self _, ?_⟩
    rw [stringBody.eq_def]
    rfl
  | cons c s ih =>
    rw [List.flatMap_cons, List.append_assoc]
    exact stringBody_spelt (spelt_escape c) ih

end Strings

/-- The text of a field. -/
def fieldText (field : String × Json) : List Char := quote field.1 ++ ':' :: text field.2

theorem textItems_eq (items : List Json) :
    textItems items = (items.flatMap fun v => ',' :: text v) ++ [']'] := by
  induction items with
  | nil => rfl
  | cons v vs ih => simp [textItems, ih]

theorem textFields_eq (fields : List (String × Json)) :
    textFields fields = (fields.flatMap fun field => ',' :: fieldText field) ++ ['\x7d'] := by
  induction fields with
  | nil => rfl
  | cons field fields ih =>
    obtain ⟨name, v⟩ := field
    simp [textFields, ih, fieldText]

theorem text_arr (items : List Json) :
    text (.arr items) = '[' :: (separated text items ++ [']']) := by
  cases items with
  | nil => rfl
  | cons v vs => simp [text, separated, textItems_eq]

theorem text_obj (fields : List (String × Json)) :
    text (.obj fields) = '\x7b' :: (separated fieldText fields ++ ['\x7d']) := by
  cases fields with
  | nil => rfl
  | cons field fields =>
    obtain ⟨name, v⟩ := field
    simp [text, separated, textFields_eq, fieldText]

theorem rereadItems?_eq (items : List Json) : rereadItems? items = items.mapM reread? := by
  induction items with
  | nil => rfl
  | cons v vs ih => simp [rereadItems?, ih, List.mapM_cons, Option.map_eq_bind]

/-- A field whose value is read from its text. -/
def rereadField? (field : String × Json) : Option (String × Json) :=
  (reread? field.2).map (field.1, ·)

theorem rereadFields?_eq (fields : List (String × Json)) :
    rereadFields? fields = fields.mapM rereadField? := by
  induction fields with
  | nil => rfl
  | cons field fields ih =>
    obtain ⟨name, v⟩ := field
    simp [rereadFields?, ih, List.mapM_cons, rereadField?, Option.map_eq_bind,
      Option.bind_assoc]

theorem depthOfItems_le_iff {items : List Json} {d : Nat} :
    depthOfItems items ≤ d ↔ ∀ v ∈ items, v.depth ≤ d := by
  induction items with
  | nil => simp [depthOfItems]
  | cons v vs ih => simp [depthOfItems, ih]

theorem depthOfFields_le_iff {fields : List (String × Json)} {d : Nat} :
    depthOfFields fields ≤ d ↔ ∀ field ∈ fields, field.2.depth ≤ d := by
  induction fields with
  | nil => simp [depthOfFields]
  | cons field fields ih => simp [depthOfFields, ih]

/-- A value read from its text, unless it is nested too deeply. -/
def rereadWithin? (d : Nat) (v : Json) : Option Json := if v.depth ≤ d then v.reread? else none

theorem rereadWithin?_eq_some_iff {d : Nat} {v w : Json} :
    rereadWithin? d v = some w ↔ v.depth ≤ d ∧ v.reread? = some w := by
  simp [rereadWithin?]

/-- A function that fails where a condition does not hold, on all items of a list. -/
theorem mapM_eq_some_of_iff {α β : Type} {f g : α → Option β} {p : α → Prop} {xs : List α}
    (h : ∀ x ∈ xs, ∀ y, g x = some y ↔ p x ∧ f x = some y) {ys : List β} :
    xs.mapM g = some ys ↔ (∀ x ∈ xs, p x) ∧ xs.mapM f = some ys := by
  induction xs generalizing ys with
  | nil => simp
  | cons x xs ih =>
    have hrest := @ih fun z hz => h z (List.mem_cons_of_mem x hz)
    simp only [mapM_cons_eq_some, h x List.mem_cons_self, hrest, List.mem_cons, forall_eq_or_imp]
    constructor
    · rintro ⟨v, ⟨hx, hv⟩, vs, ⟨hxs, hvs⟩, rfl⟩
      exact ⟨⟨hx, hxs⟩, v, hv, vs, hvs, rfl⟩
    · rintro ⟨⟨hx, hxs⟩, v, hv, vs, hvs, rfl⟩
      exact ⟨v, ⟨hx, hv⟩, vs, ⟨hxs, hvs⟩, rfl⟩

theorem exists_cons_text (v : Json) :
    ∃ c cs, v.text = c :: cs ∧ isBlank c = false ∧ c ≠ ']' ∧ c ≠ '\x7d' := by
  cases v with
  | null => exact ⟨_, _, rfl, by decide⟩
  | bool b => cases b <;> exact ⟨_, _, rfl, by decide⟩
  | num n =>
    obtain ⟨c, cs, ht, rfl | hc⟩ := n.exists_cons_text
    · exact ⟨'-', cs, ht, by decide⟩
    · refine ⟨c, cs, ht, ?_, ?_, ?_⟩
      · cases hb : isBlank c with
        | false => rfl
        | true =>
          simp only [isBlank, Bool.or_eq_true, beq_iff_eq] at hb
          rcases hb with ((rfl | rfl) | rfl) | rfl <;> exact absurd hc (by decide)
      · rintro rfl
        exact absurd hc (by decide)
      · rintro rfl
        exact absurd hc (by decide)
  | str s => exact ⟨_, _, rfl, by decide⟩
  | arr items => exact ⟨_, _, text_arr items, by decide⟩
  | obj fields => exact ⟨_, _, text_obj fields, by decide⟩

/-- The text of a value is read, at any depth that is enough for it, as the value with each number
read from its own text. -/
def ReadsBack (v : Json) : Prop := ∀ d, ReadAs (value d) v.text (v.rereadWithin? d)

theorem readAs_field {v : Json} {d : Nat} (h : ReadAs (value d) v.text (v.rereadWithin? d))
    (name : String) :
    ReadAs (entry (value d)) (fieldText (name, v)) ((v.rereadWithin? d).map (name, ·)) := by
  intro rest hr e after
  have hcolon : skipBlank (':' :: (v.text ++ rest)) = ':' :: (v.text ++ rest) := rfl
  have hquote : skipBlank (fieldText (name, v) ++ rest) = '"' ::
      (name.toList.flatMap escape ++ '"' :: ':' :: (v.text ++ rest)) := by
    simp [fieldText, quote, skipBlank, isBlank]
  have hname : ∀ cs mid, Yields (stringBody (name.toList.flatMap escape ++
      '"' :: ':' :: (v.text ++ rest))) cs mid ↔
        cs = name.toList ∧ mid = ':' :: (v.text ++ rest) := by
    intro cs mid
    have hself := stringBody_quoted name.toList (':' :: (v.text ++ rest))
    constructor
    · exact fun h => h.unique hself
    · rintro ⟨rfl, rfl⟩
      exact hself
  rw [yields_entry, hquote]
  simp only [List.cons.injEq, true_and, exists_eq_left', hname, and_assoc, exists_and_left,
    exists_eq_left, hcolon, h rest hr, String.ofList_toList, Option.map_eq_some_iff, @eq_comm _ e]

section

variable (nested : Bool → (cs : List Char) → Except ReadError (Reading Json cs)) (cs : List Char)

theorem valueHere_null : valueHere nested ('n' :: 'u' :: 'l' :: 'l' :: cs) =
    .ok (Reading.ofHead .null).behind.behind.behind := rfl

theorem valueHere_true : valueHere nested ('t' :: 'r' :: 'u' :: 'e' :: cs) =
    .ok (Reading.ofHead (.bool true)).behind.behind.behind := rfl

theorem valueHere_false : valueHere nested ('f' :: 'a' :: 'l' :: 's' :: 'e' :: cs) =
    .ok (Reading.ofHead (.bool false)).behind.behind.behind.behind := rfl

theorem valueHere_quote : valueHere nested ('"' :: cs) =
    (stringBody cs).map fun r => (r.map fun cs => .str (.ofList cs)).within (by simp) := rfl

theorem valueHere_bracket :
    valueHere nested ('[' :: cs) = (nested true cs).map (·.within (by simp)) := rfl

theorem valueHere_brace :
    valueHere nested ('\x7b' :: cs) = (nested false cs).map (·.within (by simp)) := rfl

end

/-- An array is read between its brackets, one level further down. -/
theorem yields_bracket {d : Nat} {w : Json} {cs after : List Char} :
    Yields (value d ('[' :: cs)) w after ↔
      ∃ n, d = n + 1 ∧ ∃ ws, Yields (enclosed ']' (value n) cs) ws after ∧ .arr ws = w := by
  have hskip : skipBlank ('[' :: cs) = '[' :: cs := rfl
  rw [yields_value, hskip]
  cases d with
  | zero => simp [valueHere_bracket, nestedAt, Except.map]
  | succ n => simp [valueHere_bracket, nestedAt, yields_within, array, yields_map]

theorem yields_brace {d : Nat} {w : Json} {cs after : List Char} :
    Yields (value d ('\x7b' :: cs)) w after ↔
      ∃ n, d = n + 1 ∧
        ∃ ws, Yields (enclosed '\x7d' (entry (value n)) cs) ws after ∧ .ofFields ws = w := by
  have hskip : skipBlank ('\x7b' :: cs) = '\x7b' :: cs := rfl
  rw [yields_value, hskip]
  cases d with
  | zero => simp [valueHere_brace, nestedAt, Except.map]
  | succ n => simp [valueHere_brace, nestedAt, yields_within, object, yields_map]

theorem arr_readsBack {items : List Json} (h : ∀ v ∈ items, v.ReadsBack) :
    (Json.arr items).ReadsBack := by
  intro d rest hr w after
  have hinner (n : Nat) (ws : List Json) :
      Yields (enclosed ']' (value n) (separated text items ++ ']' :: rest)) ws after ↔
        after = rest ∧ (∀ v ∈ items, v.depth ≤ n) ∧ items.mapM reread? = some ws := by
    rw [← mapM_eq_some_of_iff fun v _ w => rereadWithin?_eq_some_iff]
    refine yields_enclosed_text (.inl rfl) (fun v hv => h v hv n) fun v _ => ?_
    obtain ⟨c, cs, ht, hb, hne, -⟩ := v.exists_cons_text
    exact ⟨c, cs, ht, hb, hne⟩
  rw [text_arr, List.cons_append, List.append_assoc, List.singleton_append, yields_bracket,
    rereadWithin?_eq_some_iff, depth, reread?, rereadItems?_eq]
  simp only [hinner, Option.map_eq_some_iff, ← depthOfItems_le_iff]
  constructor
  · rintro ⟨n, rfl, ws, ⟨rfl, hd, hws⟩, rfl⟩
    exact ⟨rfl, Nat.succ_le_succ hd, ws, hws, rfl⟩
  · rintro ⟨rfl, hd, ws, hws, rfl⟩
    obtain ⟨n, rfl⟩ := Nat.exists_eq_add_of_lt (Nat.lt_of_succ_le hd)
    exact ⟨_, rfl, ws, ⟨rfl, by omega, hws⟩, rfl⟩

theorem obj_readsBack {fields : List (String × Json)}
    (h : ∀ field ∈ fields, field.2.ReadsBack) : (Json.obj fields).ReadsBack := by
  intro d rest hr w after
  -- What is inside is read one level further down, field by field.
  have hinner (n : Nat) (ws : List (String × Json)) :
      Yields (enclosed '\x7d' (entry (value n)) (separated fieldText fields ++ '\x7d' :: rest))
          ws after ↔
        after = rest ∧ (∀ field ∈ fields, field.2.depth ≤ n) ∧
          fields.mapM rereadField? = some ws := by
    have hfield (field : String × Json) (w : String × Json) :
        (rereadWithin? n field.2).map (field.1, ·) = some w ↔
          field.2.depth ≤ n ∧ rereadField? field = some w := by
      simp only [rereadField?, Option.map_eq_some_iff, rereadWithin?_eq_some_iff, and_assoc,
        exists_and_left]
    rw [← mapM_eq_some_of_iff fun field _ w => hfield field w]
    exact yields_enclosed_text (.inr rfl) (fun field hf => readAs_field (h field hf n) field.1)
      fun field _ => ⟨'"', _, rfl, by decide⟩
  rw [text_obj, List.cons_append, List.append_assoc, List.singleton_append, yields_brace,
    rereadWithin?_eq_some_iff, depth, reread?, rereadFields?_eq]
  simp only [hinner, Option.map_eq_some_iff, ← depthOfFields_le_iff]
  constructor
  · rintro ⟨n, rfl, ws, ⟨rfl, hd, hws⟩, rfl⟩
    exact ⟨rfl, Nat.succ_le_succ hd, ws, hws, rfl⟩
  · rintro ⟨rfl, hd, ws, hws, rfl⟩
    obtain ⟨n, rfl⟩ := Nat.exists_eq_add_of_lt (Nat.lt_of_succ_le hd)
    exact ⟨_, rfl, ws, ⟨rfl, by omega, hws⟩, rfl⟩

/-- What is neither an array nor an object is read alike at every depth. -/
theorem readsBack_of_depth_zero {v : Json} (hd : v.depth = 0)
    (h : ∀ nested rest, EndsValue rest → ∀ w after,
      Yields (valueHere nested (v.text ++ rest)) w after ↔ after = rest ∧ v.reread? = some w) :
    v.ReadsBack := by
  intro d rest hr w after
  obtain ⟨c, cs, ht, hb, -⟩ := v.exists_cons_text
  have hskip : skipBlank (v.text ++ rest) = v.text ++ rest := by
    rw [ht, List.cons_append, skipBlank_cons hb]
  rw [yields_value, hskip, h _ rest hr, rereadWithin?_eq_some_iff, hd]
  simp

theorem null_readsBack : Json.null.ReadsBack := by
  refine readsBack_of_depth_zero rfl fun nested rest _ w after => ?_
  simp [text, valueHere_null, Reading.behind, Reading.ofHead, reread?, and_comm,
    @eq_comm _ after]

theorem bool_readsBack (b : Bool) : (Json.bool b).ReadsBack := by
  refine readsBack_of_depth_zero rfl fun nested rest _ w after => ?_
  cases b <;>
    simp [text, valueHere_true, valueHere_false, Reading.behind, Reading.ofHead, reread?,
      and_comm, @eq_comm _ after]

theorem str_readsBack (s : String) : (Json.str s).ReadsBack := by
  refine readsBack_of_depth_zero rfl fun nested rest _ w after => ?_
  have hself := stringBody_quoted s.toList rest
  have htext : text (.str s) ++ rest = '"' :: (s.toList.flatMap escape ++ '"' :: rest) := by
    simp [text, quote]
  obtain ⟨hlt, hself⟩ := hself
  rw [htext]
  simp [valueHere_quote, hself, Except.map, Reading.within, Reading.map, reread?, and_comm,
    @eq_comm _ after]

theorem yields_number_text {n m : Number} {rest after : List Char} (hr : EndsNumber rest) :
    Yields (number (n.text ++ rest)) m after ↔ after = rest ∧ n.reread? = some m := by
  rw [number, n.numberAt_text hr]
  cases hm : n.reread? with
  | none => simp
  | some k =>
    obtain ⟨c, cs, ht, -⟩ := n.exists_cons_text
    have hlt : rest.length < (n.text ++ rest).length := by
      rw [List.length_append, ht, List.length_cons]
      omega
    simp only
    rw [dif_pos hlt, yields_ok, Option.some.injEq, and_comm, @eq_comm _ after]

theorem num_readsBack (n : Number) : (Json.num n).ReadsBack := by
  refine readsBack_of_depth_zero rfl fun nested rest hr w after => ?_
  obtain ⟨c, cs, ht, hc⟩ := n.exists_cons_text
  have hnumber := fun m => @yields_number_text n m rest after hr.endsNumber
  have hguard : (c == '-' || c.isDigit) = true := by
    rcases hc with rfl | hc
    · rfl
    · rw [hc, Bool.or_true]
  have hne {x : Char} (hx : (x == '-' || x.isDigit) = false) : c ≠ x := by
    rintro rfl
    rw [hx] at hguard
    cases hguard
  rw [text, ht, List.cons_append, valueHere.eq_7 nested c (cs ++ rest)
    (fun _ h _ => hne rfl h) (fun _ h _ => hne rfl h) (fun _ h _ => hne rfl h) (hne rfl) (hne rfl)
    (hne rfl), if_pos hguard, yields_map]
  rw [ht, List.cons_append] at hnumber
  simp only [hnumber, reread?, Option.map_eq_some_iff, and_assoc, exists_and_left]

theorem readsBack (v : Json) : v.ReadsBack := by
  induction v using nesting with
  | null => exact null_readsBack
  | bool b => exact bool_readsBack b
  | num n => exact num_readsBack n
  | str s => exact str_readsBack s
  | arr items h => exact arr_readsBack h
  | obj fields h => exact obj_readsBack h

/-- The text of a value is read, if the value is not nested too deeply, as the value with each
number read from its own text. -/
theorem read_compact_iff (v w : Json) :
    read v.compact = .ok w ↔ v.depth ≤ depthLimit ∧ v.reread? = some w := by
  have hself := v.readsBack depthLimit [] EndsValue.nil
  rw [List.append_nil] at hself
  simp only [rereadWithin?_eq_some_iff] at hself
  rw [read, compact, String.toList_ofList, readChars]
  cases hv : value depthLimit v.text with
  | error e =>
    have hnone := (hself w []).not.mp (by simp [hv])
    simp only [true_and] at hnone
    simp [hnone]
  | ok r =>
    obtain ⟨hrest, hr⟩ := (hself r.value r.rest).mp (by simp [hv])
    have hblank : skipBlank r.rest = [] := by
      rw [hrest]
      rfl
    rw [hr.2]
    simp [hblank, hr.1]

end Bylaw.Json
