import Bylaw.Proofs.Text.Splitting
import Bylaw.Template
import Mathlib.Data.List.DropRight
import Mathlib.Data.List.TakeWhile

/-! Templates and their source texts. Main statements: a template is what its own source is read as,
and so is a payload. -/

namespace Bylaw

theorem Text.trim_trim (cs : List Char) : trim (trim cs) = trim cs := by
  show List.rdropWhile isBlank (trimStart (trim cs)) = trim cs
  have hstart : trimStart (trim cs) = trim cs := by
    have hpart : trim cs <+: trimStart cs := List.rdropWhile_prefix _ _
    refine List.dropWhile_eq_self_iff.mpr fun hl => ?_
    have hfirst := List.dropWhile_eq_self_iff.mp (List.dropWhile_idempotent isBlank cs)
      (Nat.lt_of_lt_of_le hl hpart.length_le)
    rw [hpart.getElem hl]
    exact hfirst
  rw [hstart]
  exact List.rdropWhile_idempotent _ _

theorem FieldPath.text_of_read? {cs : List Char} {path : FieldPath} (h : read? cs = some path) :
    path.text.toList = cs := by
  unfold read? at h
  simp only at h
  split at h
  · obtain rfl := Option.some.inj h
    rw [text, String.toList_intercalate, List.map_map]
    have hsegments : (Text.splitAt (· == '.') cs).map (String.toList ∘ String.ofList) =
        Text.splitAt (· == '.') cs := by
      simp
    rw [hsegments]
    exact Text.intercalate_splitAt '.' cs
  · cases h

theorem FieldPath.read?_text {cs : List Char} {path : FieldPath} (h : read? cs = some path) :
    read? path.text.toList = some path := by
  rw [text_of_read? h, h]

namespace Template

theorem splitOpening_eq {cs before after : List Char}
    (h : splitOpening cs = some (before, after)) : cs = before ++ '$' :: '\x7b' :: after := by
  fun_induction splitOpening cs generalizing before after with
  | case1 => cases h
  | case2 rest =>
    obtain ⟨rfl, rfl⟩ := Prod.mk.inj (Option.some.inj h)
    rfl
  | case3 c rest hne ih =>
    simp only [Option.map_eq_some_iff, Prod.exists, Prod.mk.injEq] at h
    obtain ⟨b, a, hs, rfl, rfl⟩ := h
    rw [ih hs]
    rfl

theorem splitOpening_cons {c : Char} {rest : List Char}
    (h : ∀ more, c = '$' → rest ≠ '\x7b' :: more) :
    splitOpening (c :: rest) =
      (splitOpening rest).map fun (before, after) => (c :: before, after) := by
  rw [splitOpening.eq_def]
  split
  · rename_i heq
    cases heq
  · rename_i more heq
    obtain ⟨rfl, rfl⟩ := List.cons.inj heq
    exact absurd rfl (h more rfl)
  · rename_i heq
    obtain ⟨rfl, rfl⟩ := List.cons.inj heq
    rfl

/-- The first opening of a placeholder is found whatever stands after it. -/
theorem splitOpening_append {cs before after : List Char}
    (h : splitOpening cs = some (before, after)) (more : List Char) :
    splitOpening (before ++ '$' :: '\x7b' :: more) = some (before, more) := by
  fun_induction splitOpening cs generalizing before after with
  | case1 => cases h
  | case2 rest =>
    obtain ⟨rfl, rfl⟩ := Prod.mk.inj (Option.some.inj h)
    rfl
  | case3 c rest hne ih =>
    simp only [Option.map_eq_some_iff, Prod.exists, Prod.mk.injEq] at h
    obtain ⟨b, a, hs, rfl, rfl⟩ := h
    have hrest := splitOpening_eq hs
    rw [List.cons_append, splitOpening_cons, ih hs]
    · rfl
    · -- What stands before the opening is the same in both texts.
      rintro more' rfl hb
      cases b with
      | nil => cases hb
      | cons d b =>
        obtain ⟨rfl, -⟩ := List.cons.inj hb
        exact hne _ rfl hrest

theorem splitClosing_append {name : List Char} (h : '\x7d' ∉ name) (more : List Char) :
    splitClosing (name ++ '\x7d' :: more) = some (name, more) := by
  induction name with
  | nil => simp [splitClosing]
  | cons c name ih =>
    have hc : c ≠ '\x7d' := fun hc => h (by simp [hc])
    simp [splitClosing, hc, ih fun hn => h (List.mem_cons_of_mem c hn)]

theorem not_mem_of_splitClosing {cs inside rest : List Char}
    (h : splitClosing cs = some (inside, rest)) : '\x7d' ∉ inside := by
  induction cs generalizing inside rest with
  | nil => cases h
  | cons c cs ih =>
    rw [splitClosing] at h
    split at h
    · obtain ⟨rfl, rfl⟩ := Prod.mk.inj (Option.some.inj h)
      simp
    · rename_i hc
      simp only [Option.map_eq_some_iff, Prod.exists, Prod.mk.injEq] at h
      obtain ⟨b, a, hs, rfl, rfl⟩ := h
      simp [ih hs, Ne.symm hc]

theorem mem_of_mem_trim {cs : List Char} {c : Char} (h : c ∈ Text.trim cs) : c ∈ cs :=
  (List.dropWhile_suffix _).subset ((List.rdropWhile_prefix _ _).subset h)

theorem source_textPart (cs : List Char) :
    (textPart cs).flatMap (fun part => part.source.toList) = cs := by
  cases cs with
  | nil => rfl
  | cons c cs => simp [textPart, Part.source]

theorem partsOf_none {cs : List Char} (raw : String) (h : splitOpening cs = none) :
    partsOf raw cs = .ok (textPart cs) := by
  rw [partsOf]
  split
  · rfl
  · rename_i heq
    rw [h] at heq
    cases heq

theorem partsOf_some {cs before after inside rest : List Char} {path : FieldPath} (raw : String)
    (ho : splitOpening cs = some (before, after)) (hc : splitClosing after = some (inside, rest))
    (hp : FieldPath.read? (Text.trim inside) = some path) :
    partsOf raw cs = (partsOf raw rest).map fun parts =>
      textPart before ++ .field path :: parts := by
  rw [partsOf]
  split
  · rename_i heq
    rw [ho] at heq
    cases heq
  · rename_i heq
    rw [ho] at heq
    obtain ⟨rfl, rfl⟩ := Prod.mk.inj (Option.some.inj heq)
    split
    · rename_i heq
      rw [hc] at heq
      cases heq
    · rename_i heq
      rw [hc] at heq
      obtain ⟨rfl, rfl⟩ := Prod.mk.inj (Option.some.inj heq)
      simp only [hp]
      cases partsOf raw rest <;> rfl

/-- What a text without faults is made of: its first placeholder, and what is left. -/
theorem partsOf_ok {raw : String} {cs : List Char} {parts : List Part}
    (h : partsOf raw cs = .ok parts) :
    (splitOpening cs = none ∧ parts = textPart cs) ∨
      ∃ before after inside rest path others, splitOpening cs = some (before, after) ∧
        splitClosing after = some (inside, rest) ∧
        FieldPath.read? (Text.trim inside) = some path ∧ partsOf raw rest = .ok others ∧
        parts = textPart before ++ .field path :: others := by
  rw [partsOf] at h
  split at h
  · rename_i ho
    exact .inl ⟨ho, (Except.ok.inj h).symm⟩
  · rename_i before after ho
    split at h
    · cases h
    · rename_i inside rest hc
      simp only at h
      split at h
      · cases h
      · rename_i path hp
        split at h
        · rename_i others hothers
          exact .inr ⟨before, after, inside, rest, path, others, ho, hc, hp, hothers,
            (Except.ok.inj h).symm⟩
        · cases h

theorem partsOf_source {raw : String} {cs : List Char} {parts : List Part}
    (h : partsOf raw cs = .ok parts) (raw' : String) :
    partsOf raw' (parts.flatMap fun part => part.source.toList) = .ok parts := by
  -- By induction on the length of the text, placeholder by placeholder.
  induction hn : cs.length using Nat.strong_induction_on generalizing cs parts with
  | _ n ih =>
    obtain ⟨ho, rfl⟩ | ⟨before, after, inside, rest, path, others, ho, hc, hp, hothers, rfl⟩ :=
      partsOf_ok h
    · rw [source_textPart]
      exact partsOf_none raw' ho
    · have hlt : rest.length < n := by
        have := splitOpening_lt ho
        have := splitClosing_lt hc
        omega
      have hsource : (textPart before ++ .field path :: others).flatMap
          (fun part => part.source.toList) = before ++ '$' :: '\x7b' ::
            (path.text.toList ++ '\x7d' :: others.flatMap fun part => part.source.toList) := by
        rw [List.flatMap_append, source_textPart]
        simp [Part.source]
      -- The reference was cut out before the first closing brace.
      have hname : '\x7d' ∉ path.text.toList := by
        rw [FieldPath.text_of_read? hp]
        exact fun hmem => not_mem_of_splitClosing hc (mem_of_mem_trim hmem)
      have hread : FieldPath.read? (Text.trim path.text.toList) = some path := by
        rw [FieldPath.text_of_read? hp, Text.trim_trim, hp]
      rw [hsource, partsOf_some raw' (splitOpening_append ho _) (splitClosing_append hname _) hread,
        ih rest.length hlt hothers rfl]
      rfl

theorem read_source {raw : String} {t : Template} (h : read raw = .ok t) :
    read t.source = .ok t := by
  unfold read at h
  cases hp : partsOf raw raw.toList with
  | error fault =>
    rw [hp] at h
    cases h
  | ok parts =>
    rw [hp] at h
    obtain rfl := Except.ok.inj h
    have hsource : (Template.mk parts).source.toList =
        parts.flatMap fun part => part.source.toList := by
      rw [source, String.toList_join, List.flatMap_map]
    rw [read, hsource, partsOf_source hp]

end Template

namespace Payload

mutual

theorem ofJson_source {v : Json} {p : Payload} (h : ofJson v = .ok p) :
    ofJson p.source = .ok p := by
  match v with
  | .null | .bool b | .num n =>
    obtain rfl := Except.ok.inj h
    rfl
  | .str s =>
    rw [ofJson] at h
    split at h
    · rename_i t ht
      obtain rfl := Except.ok.inj h
      rw [source, ofJson, Template.read_source ht]
    · cases h
  | .arr items =>
    rw [ofJson] at h
    split at h
    · rename_i ps hps
      obtain rfl := Except.ok.inj h
      rw [source, ofJson, ofItems_source hps]
    · cases h
  | .obj fields =>
    rw [ofJson] at h
    split at h
    · rename_i ps hps
      obtain rfl := Except.ok.inj h
      rw [source, ofJson, ofFields_source hps]
    · cases h

theorem ofItems_source {items : List Json} {ps : List Payload} (h : ofItems items = .ok ps) :
    ofItems (sourceItems ps) = .ok ps := by
  match items with
  | [] =>
    obtain rfl := Except.ok.inj h
    rfl
  | v :: items =>
    rw [ofItems] at h
    split at h
    · cases h
    · rename_i p hp
      split at h
      · rename_i qs hqs
        obtain rfl := Except.ok.inj h
        rw [sourceItems, ofItems, ofJson_source hp, ofItems_source hqs]
      · cases h

theorem ofFields_source {fields : List (String × Json)} {ps : List (String × Payload)}
    (h : ofFields fields = .ok ps) : ofFields (sourceFields ps) = .ok ps := by
  match fields with
  | [] =>
    obtain rfl := Except.ok.inj h
    rfl
  | (key, v) :: fields =>
    rw [ofFields] at h
    split at h
    · cases h
    · rename_i p hp
      split at h
      · rename_i qs hqs
        obtain rfl := Except.ok.inj h
        rw [sourceFields, ofFields, ofJson_source hp, ofFields_source hqs]
      · cases h

end

theorem isObject_source {v : Json} {p : Payload} (h : ofJson v = .ok p) :
    p.source.isObject = v.isObject := by
  cases v with
  | null | bool b | num n =>
    obtain rfl := Except.ok.inj h
    rfl
  | str s =>
    rw [ofJson] at h
    split at h
    · obtain rfl := Except.ok.inj h
      rfl
    · cases h
  | arr items =>
    rw [ofJson] at h
    split at h
    · obtain rfl := Except.ok.inj h
      rfl
    · cases h
  | obj fields =>
    rw [ofJson] at h
    split at h
    · obtain rfl := Except.ok.inj h
      rfl
    · cases h

/-- Templates survive printing: the source of what was read of a text is read as the same template,
and the source of what was read of a value as the same payload. -/
theorem sources_survive :
    (∀ raw t, Template.read raw = .ok t → Template.read t.source = .ok t) ∧
      ∀ v p, ofJson v = .ok p → ofJson p.source = .ok p :=
  ⟨fun _ _ => Template.read_source, fun _ _ => ofJson_source⟩

/-- A dollar sign in front of a placeholder with blanks in it, in a value with further fields. -/
theorem sources_survive_blanks :
    let raw := "cost: $$\x7b total.eur \x7d"
    let t : Template := ⟨[.text "cost: $", .field ⟨["total", "eur"], by decide, by decide⟩]⟩
    let p : Payload := .record [("lines", .list [.text t, .plain .null]), ("text", .text t)]
    Template.read raw = .ok t ∧
      ofJson (.obj [("lines", .arr [.str raw, .null]), ("text", .str raw)]) = .ok p ∧
      t.source = "cost: $$\x7btotal.eur\x7d" ∧ Template.read t.source = .ok t ∧
      ofJson p.source = .ok p := by
  intro raw t p
  have ht : Template.read raw = .ok t := by decide +kernel
  have hp : ofJson (.obj [("lines", .arr [.str raw, .null]), ("text", .str raw)]) = .ok p := by
    simp [ofJson, ofItems, ofFields, ht, p]
  exact ⟨ht, hp, by decide, sources_survive.1 raw t ht, sources_survive.2 _ p hp⟩

end Payload

end Bylaw
