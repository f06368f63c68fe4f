import Bylaw.Proofs.Rule.Canonical

/-! Where lines end in the canonical text of rules. Main statement: nowhere but in the patterns of a
condition. -/

namespace Bylaw

open Token

/-- Whether no line ends in a text. -/
def Unbroken (cs : List Char) : Prop := ∀ c ∈ cs, endsLine c = false

instance (cs : List Char) : Decidable (Unbroken cs) :=
  decidable_of_iff (cs.all (fun c => !endsLine c) = true) (by simp [Unbroken])

namespace Unbroken

variable {cs ds : List Char}

theorem nil : Unbroken [] := by
  intro c hc
  cases hc

theorem append (h : Unbroken cs) (h' : Unbroken ds) : Unbroken (cs ++ ds) := by
  intro c hc
  rcases List.mem_append.mp hc with hc | hc
  · exact h c hc
  · exact h' c hc

theorem cons {c : Char} (hc : endsLine c = false) (h : Unbroken cs) : Unbroken (c :: cs) := by
  intro d hd
  rcases List.mem_cons.mp hd with rfl | hd
  · exact hc
  · exact h d hd

theorem intercalate {sep : List Char} (hsep : Unbroken sep) {items : List (List Char)}
    (h : ∀ cs ∈ items, Unbroken cs) : Unbroken (sep.intercalate items) := by
  induction items with
  | nil => exact nil
  | cons cs items ih =>
    have hitems := ih fun ds hds => h ds (List.mem_cons_of_mem cs hds)
    cases items with
    | nil =>
      rw [List.intercalate_singleton]
      exact h cs List.mem_cons_self
    | cons ds items =>
      rw [List.intercalate_cons_cons]
      exact ((h cs List.mem_cons_self).append hsep).append hitems

end Unbroken

/-- A kind of characters that ends of lines do not belong to. -/
theorem endsLine_eq_false (kind : Char → Bool) (hr : kind '\r' = false) (hn : kind '\n' = false)
    {c : Char} (h : kind c = true) : endsLine c = false := by
  by_contra hends
  simp only [endsLine, Bool.not_eq_false, Bool.or_eq_true, beq_iff_eq] at hends
  rcases hends with rfl | rfl
  · rw [hr] at h
    cases h
  · rw [hn] at h
    cases h

theorem dropLine_cons {c : Char} (h : endsLine c = false) (rest : List Char) :
    dropLine (c :: rest) = dropLine rest := by
  have hn : c ≠ '\n' := by
    rintro rfl
    cases h
  have hr : c ≠ '\r' := by
    rintro rfl
    cases h
  rw [dropLine] <;> simp [hn, hr]

theorem dropLine_append {cs : List Char} (h : Unbroken cs) (rest : List Char) :
    dropLine (cs ++ rest) = dropLine rest := by
  induction cs with
  | nil => rfl
  | cons c cs ih =>
    rw [List.cons_append, dropLine_cons (h c List.mem_cons_self),
      ih fun d hd => h d (List.mem_cons_of_mem c hd)]

theorem unbroken_of_isWord {w : String} (h : isWord w = true) : Unbroken w.toList := by
  obtain ⟨c, rest, hw, hc, hrest⟩ := isWord_iff.mp h
  have hpart {d : Char} (hd : isWordPart d = true) : endsLine d = false :=
    endsLine_eq_false isWordPart (by decide) (by decide) hd
  rw [hw]
  exact Unbroken.cons (hpart (isWordPart_of_isWordStart hc)) fun d hd => hpart (hrest d hd)

theorem unbroken_digitChars (n : Nat) : Unbroken (Decimal.digitChars n) := fun _ hc =>
  endsLine_eq_false Char.isDigit (by decide) (by decide) (Decimal.isDigit_of_mem_digitChars hc)

theorem Number.unbroken_text (n : Number) : Unbroken n.text := fun c hc =>
  endsLine_eq_false Decimal.isNumberPart (by decide) (by decide) (n.isNumberPart_text c hc)

theorem Json.unbroken_escape (c : Char) : Unbroken (escape c) := by
  obtain ⟨e, he, -, -, hs⟩ | ⟨he, hc⟩ | ⟨he, -, -, hc⟩ := escape_cases c
  · rw [he]
    refine Unbroken.cons (by decide) (Unbroken.cons ?_ Unbroken.nil)
    exact endsLine_eq_false (fun e => (simpleEscape? e).isSome) rfl rfl (by rw [hs]; rfl)
  · have hdigits : ∀ n < 0x20,
        ['\\', 'u', '0', '0', hexDigit (n / 16), hexDigit (n % 16)].all (!endsLine ·) = true := by
      decide
    rw [he]
    intro d hd
    simpa using List.all_eq_true.mp (hdigits c.toNat hc) d hd
  · rw [he]
    exact Unbroken.cons (endsLine_eq_false (fun c => 0x20 ≤ c.toNat) (by decide) (by decide)
      (by simpa using hc)) Unbroken.nil

theorem Json.unbroken_quote (s : String) : Unbroken (quote s) := by
  have hbody : Unbroken (s.toList.flatMap escape) := by
    intro c hc
    obtain ⟨d, -, hd⟩ := List.mem_flatMap.mp hc
    exact unbroken_escape d c hd
  exact Unbroken.cons rfl (hbody.append (Unbroken.cons rfl Unbroken.nil))

mutual

theorem Json.unbroken_text (v : Json) : Unbroken v.text := by
  match v with
  | .null | .bool true | .bool false | .arr [] | .obj [] =>
    rw [Json.text]
    decide
  | .num n =>
    rw [Json.text]
    exact n.unbroken_text
  | .str s =>
    rw [Json.text]
    exact unbroken_quote s
  | .arr (x :: xs) =>
    rw [Json.text]
    exact Unbroken.cons rfl ((Json.unbroken_text x).append (Json.unbroken_textItems xs))
  | .obj ((k, v) :: fs) =>
    rw [Json.text]
    exact Unbroken.cons rfl ((unbroken_quote k).append
      (Unbroken.cons rfl ((Json.unbroken_text v).append (Json.unbroken_textFields fs))))

theorem Json.unbroken_textItems (xs : List Json) : Unbroken (textItems xs) := by
  match xs with
  | [] =>
    rw [textItems]
    exact Unbroken.cons rfl Unbroken.nil
  | x :: xs =>
    rw [textItems]
    exact Unbroken.cons rfl ((Json.unbroken_text x).append (Json.unbroken_textItems xs))

theorem Json.unbroken_textFields (fs : List (String × Json)) : Unbroken (textFields fs) := by
  match fs with
  | [] =>
    rw [textFields]
    exact Unbroken.cons rfl Unbroken.nil
  | (k, v) :: fs =>
    rw [textFields]
    exact Unbroken.cons rfl ((unbroken_quote k).append
      (Unbroken.cons rfl ((Json.unbroken_text v).append (Json.unbroken_textFields fs))))

end

theorem Json.unbroken_compact (v : Json) : Unbroken v.compact.toList := by
  rw [compact, String.toList_ofList]
  exact v.unbroken_text

section

variable {number : Number → Prop}

theorem unbroken_todayText (offset : Int) : Unbroken (todayText offset).toList := by
  have hmoved {before : String} (h : Unbroken before.toList) :
      Unbroken (before ++ .ofList (Decimal.digitChars offset.natAbs)).toList := by
    rw [String.toList_append, String.toList_ofList]
    exact h.append (unbroken_digitChars _)
  unfold todayText
  split
  · exact unbroken_of_isWord (by decide)
  split
  · exact hmoved (by decide)
  · exact hmoved (by decide)

theorem FieldPath.IsTarget.unbroken {path : FieldPath} (h : path.IsTarget) :
    Unbroken path.text.toList :=
  unbroken_of_isWord h.word

theorem Operand.unbroken_text {x : Operand} (hx : x.IsProper number) : Unbroken x.text.toList := by
  cases x with
  | literal v => exact v.unbroken_compact
  | field path =>
    have hpath : path.IsOperand := hx
    exact hpath.toIsTarget.unbroken
  | today offset => exact unbroken_todayText offset

theorem unbroken_joinWith {sep : String} (hsep : Unbroken sep.toList) {texts : List String}
    (h : ∀ s ∈ texts, Unbroken s.toList) : Unbroken (joinWith sep texts).toList := by
  rw [joinWith, String.toList_intercalate]
  refine Unbroken.intercalate hsep fun cs hcs => ?_
  obtain ⟨s, hs, rfl⟩ := List.mem_map.mp hcs
  exact h s hs

theorem unbroken_comma : Unbroken ", ".toList := by
  decide

mutual

theorem Expr.unbroken_text (e : Expr) (he : ∀ n ∈ e.nodes, n.IsProper number) :
    Unbroken e.text.toList := by
  match e with
  | .literal v => exact v.unbroken_compact
  | .template t =>
    rw [Expr.text, Template.quoted, String.toList_ofList]
    exact Json.unbroken_quote t.source
  | .field path =>
    have hpath : path.IsOperand := he (.field path) (by simp [Expr.nodes])
    exact hpath.toIsTarget.unbroken
  | .today offset => exact unbroken_todayText offset
  | .binary op left right =>
    have hleft := Expr.unbroken_text left fun n hn => he n (by simp [Expr.nodes, hn])
    have hright := Expr.unbroken_text right fun n hn => he n (by simp [Expr.nodes, hn])
    have hop : Unbroken op.text.toList := by
      cases op <;> decide
    -- Parentheses add no end of a line, whether they are needed or not.
    have hinside {inside : Bool} {text : String} (h : Unbroken text.toList) :
        Unbroken (parenthesized inside text).toList := by
      cases inside with
      | false => exact h
      | true =>
        have htext : (parenthesized true text).toList = '(' :: (text.toList ++ [')']) := by
          simp [parenthesized]
        rw [htext]
        exact Unbroken.cons rfl (h.append (Unbroken.cons rfl Unbroken.nil))
    have htext : (Expr.binary op left right).text.toList =
        (parenthesized left.isCompound left.text).toList ++ ' ' :: (op.text.toList ++
          ' ' :: (parenthesized right.isCompound right.text).toList) := by
      simp [Expr.text]
    rw [htext]
    exact (hinside hleft).append
      (Unbroken.cons rfl (hop.append (Unbroken.cons rfl (hinside hright))))
  | .call handler args =>
    have hargs := Expr.unbroken_args args fun n hn => he n (by simp [Expr.nodes, hn])
    have hhandler : Rule.isIdentifier handler = true :=
      he (.call handler args) (by simp [Expr.nodes])
    have hword := unbroken_of_isWord (isWord_of_isIdentifier hhandler)
    have haction : Unbroken "action.".toList := unbroken_of_isWord (by decide)
    have htext : (Expr.call handler args).text.toList = "action.".toList ++ (handler.toList ++
        '(' :: ((joinWith ", " (args.map Expr.text)).toList ++ [')'])) := by
      simp [Expr.text, textOfArgs_eq]
    rw [htext]
    exact haction.append (hword.append (Unbroken.cons rfl
      ((unbroken_joinWith unbroken_comma hargs).append (Unbroken.cons rfl Unbroken.nil))))

theorem Expr.unbroken_args (es : List Expr) (he : ∀ n ∈ nodesOfArgs es, n.IsProper number) :
    ∀ s ∈ es.map Expr.text, Unbroken s.toList := by
  match es with
  | [] =>
    intro s hs
    cases hs
  | x :: es =>
    have hx := Expr.unbroken_text x fun n hn => he n (by simp [Expr.nodesOfArgs, hn])
    have hes := Expr.unbroken_args es fun n hn => he n (by simp [Expr.nodesOfArgs, hn])
    intro s hs
    rcases List.mem_cons.mp hs with rfl | hs
    · exact hx
    · exact hes s hs

end

theorem Action.unbroken_text {a : Action} (ha : a.IsProper number) (ho : a.IsOrdinary) :
    Unbroken a.text.toList := by
  -- All but two actions are a verb in capital letters, a blank and more text.
  have hverb {w : String} {cs : List Char} (hw : isWord w = true) (h : Unbroken cs) :
      Unbroken (w.toList ++ ' ' :: cs) :=
    (unbroken_of_isWord hw).append (Unbroken.cons rfl h)
  cases a with
  | update field value =>
    have htext : (Action.update field value).text.toList = "UPDATE".toList ++
        ' ' :: (field.text.toList ++ ' ' :: '=' :: ' ' :: value.text.toList) := by
      simp [Action.text]
    rw [htext]
    exact hverb (by decide) (ha.1.unbroken.append (Unbroken.cons rfl (Unbroken.cons rfl
      (Unbroken.cons rfl (value.unbroken_text ha.2)))))
  | notify message =>
    have htext : (Action.notify message).text.toList =
        "NOTIFY".toList ++ ' ' :: Json.quote message.source := by
      simp [Action.text, Template.quoted]
    rw [htext]
    exact hverb (by decide) (Json.unbroken_quote message.source)
  | delete => exact unbroken_of_isWord (by decide)
  | create kind payload =>
    have htext : (Action.create kind payload).text.toList = "CREATE".toList ++
        ' ' :: (kind.toList ++ ' ' :: ("WITH".toList ++ ' ' :: payload.compact.toList)) := by
      simp [Action.text]
    rw [htext]
    exact hverb (by decide) (hverb ho.1 (hverb (by decide) payload.source.unbroken_compact))
  | send subject handler =>
    have htext : (Action.send subject handler).text.toList = "SEND".toList ++
        ' ' :: (subject.toList ++ ' ' :: ("TO".toList ++ ' ' :: handler.toList)) := by
      simp [Action.text]
    rw [htext]
    exact hverb (by decide) (hverb ho.1.1 (hverb (by decide)
      (unbroken_of_isWord (isWord_of_isIdentifier ha))))
  | invoke handler args =>
    have hargs : ∀ s ∈ args.map Json.compact, Unbroken s.toList := by
      intro s hs
      obtain ⟨v, -, rfl⟩ := List.mem_map.mp hs
      exact v.unbroken_compact
    have htext : (Action.invoke handler args).text.toList = "INVOKE".toList ++
        ' ' :: (handler.toList ++
          '(' :: ((joinWith ", " (args.map Json.compact)).toList ++ [')'])) := by
      simp [Action.text]
    rw [htext]
    exact hverb (by decide) ((unbroken_of_isWord (isWord_of_isIdentifier ha.1)).append
      (Unbroken.cons rfl ((unbroken_joinWith unbroken_comma hargs).append
        (Unbroken.cons rfl Unbroken.nil))))
  | stop => exact unbroken_of_isWord (by decide)

theorem dropLine_return {rest : List Char} (h : rest.head? ≠ some '\n') :
    dropLine ('\r' :: rest) = none := by
  cases rest with
  | nil => rfl
  | cons c rest =>
    have hc : c ≠ '\n' := by
      rintro rfl
      exact h rfl
    rw [dropLine]
    simp [hc]

theorem unbroken_of_find? {cs : List Char} (h : cs.find? endsLine = none) : Unbroken cs := by
  intro c hc
  simpa using List.find?_eq_none.mp h c hc

theorem slashText_cons_of_ne {c : Char} (h : c ≠ '/') (cs : List Char) :
    slashText (c :: cs) = c :: slashText cs := by
  rw [slashText, List.flatMap_cons, if_neg h]
  rfl

theorem unbroken_slashText {cs : List Char} (h : Unbroken cs) : Unbroken (slashText cs) := by
  intro c hc
  obtain ⟨d, hd, hc⟩ := List.mem_flatMap.mp hc
  split at hc
  · have hslash : Unbroken ['\\', '/'] := by
      decide
    exact hslash c hc
  · rw [List.mem_singleton.mp hc]
    exact h d hd

/-- In a pattern a line feed stands after a backslash only. -/
theorem head?_slashText_ne {cs : List Char} (h : Slashed cs) {rest : List Char}
    (hrest : rest.head? ≠ some '\n') : (slashText cs ++ rest).head? ≠ some '\n' := by
  cases h with
  | nil => exact hrest
  | @plain c cs hn hb h =>
    rw [slashText, List.flatMap_cons]
    split
    · simp
    · simpa using hn
  | escaped he h =>
    rw [slashText, List.flatMap_cons]
    simp

/-- A carriage return in a pattern spoils the line, if it is the first end of a line there. -/
theorem dropLine_slashText {cs : List Char} (h : Slashed cs)
    (hfirst : cs.find? endsLine = some '\r') {rest : List Char} (hrest : rest.head? ≠ some '\n') :
    dropLine (slashText cs ++ rest) = none := by
  -- By induction on how the pattern is written: a backslash goes with what follows it.
  induction h with
  | nil => cases hfirst
  | @plain c cs hn hb h ih =>
    -- The first end of a line in the pattern is the carriage return that spoils it.
    by_cases hc : endsLine c = true
    · rw [List.find?_cons_of_pos hc] at hfirst
      obtain rfl := Option.some.inj hfirst
      rw [slashText_cons_of_ne (by decide), List.cons_append]
      exact dropLine_return (head?_slashText_ne h hrest)
    · rw [List.find?_cons_of_neg hc] at hfirst
      have hunbroken : Unbroken [c] := Unbroken.cons (by simpa using hc) Unbroken.nil
      have happend : slashText (c :: cs) = slashText [c] ++ slashText cs := by
        simp [slashText]
      rw [happend, List.append_assoc, dropLine_append (unbroken_slashText hunbroken), ih hfirst]
  | @escaped e cs he h ih =>
    rw [List.find?_cons_of_neg (by decide)] at hfirst
    rw [slashText_cons_of_ne (by decide), slashText_cons_of_ne he, List.cons_append,
      List.cons_append, dropLine_cons rfl]
    by_cases hc : endsLine e = true
    · rw [List.find?_cons_of_pos hc] at hfirst
      obtain rfl := Option.some.inj hfirst
      exact dropLine_return (head?_slashText_ne h hrest)
    · rw [List.find?_cons_of_neg hc] at hfirst
      rw [dropLine_cons (by simpa using hc), ih hfirst]

namespace Clause

/-- The text of a test of a field up to what the field is tested for. -/
def leadText (field : FieldPath) (negated : Bool) (test : String) : List Char :=
  field.text.toList ++ ' ' :: ((notText negated).toList ++ test.toList)

theorem unbroken_leadText {field : FieldPath} (hf : field.IsOperand) (negated : Bool)
    {test : String} (ht : Unbroken test.toList) : Unbroken (leadText field negated test) := by
  have hnot : Unbroken (notText negated).toList := by
    cases negated <;> decide
  exact hf.toIsTarget.unbroken.append (Unbroken.cons rfl (hnot.append ht))

theorem text_fits (field : FieldPath) (p : Pattern) (negated : Bool) :
    (Clause.fits field p negated).text.toList =
      leadText field negated "MATCHES " ++ '/' :: (slashText p.source.toList ++ ['/']) := by
  simp [text, leadText, Pattern.text, slashText]

variable {number : Number → Prop} {c : Clause} {clauses : List Clause}

theorem unbroken_matches : Unbroken "MATCHES ".toList := by
  decide

theorem unbroken_text (hc : c.IsProper number) (h : (sources [c]).find? endsLine = none) :
    Unbroken c.text.toList := by
  cases c with
  | compare left op right =>
    have hop : Unbroken op.text.toList := by
      cases op <;> decide
    have htext : (Clause.compare left op right).text.toList =
        left.text.toList ++ ' ' :: (op.text.toList ++ ' ' :: right.text.toList) := by
      simp [text]
    rw [htext]
    exact (Operand.unbroken_text hc.1).append (Unbroken.cons rfl
      (hop.append (Unbroken.cons rfl (Operand.unbroken_text hc.2))))
  | present field negated =>
    have htext : (Clause.present field negated).text.toList = leadText field negated "EXISTS" := by
      simp [text, leadText]
    rw [htext]
    exact unbroken_leadText hc negated (unbroken_of_isWord (by decide))
  | fits field p negated =>
    have hp : p.source.toList.find? endsLine = none := by simpa [sources, pattern?] using h
    rw [text_fits]
    exact (unbroken_leadText hc.1 negated unbroken_matches).append (Unbroken.cons rfl
      ((unbroken_slashText (unbroken_of_find? hp)).append (Unbroken.cons rfl Unbroken.nil)))
  | contains field needle negated =>
    have htext : (Clause.contains field needle negated).text.toList =
        leadText field negated "CONTAINS " ++ needle.text.toList := by
      simp [text, leadText]
    have hcontains : Unbroken "CONTAINS ".toList := by
      decide
    rw [htext]
    exact (unbroken_leadText hc.1 negated hcontains).append (Operand.unbroken_text hc.2)

/-- A carriage return in the pattern of a clause spoils the line. -/
theorem dropLine_text (hc : c.IsProper number) (h : (sources [c]).find? endsLine = some '\r')
    (rest : List Char) : dropLine (c.text.toList ++ rest) = none := by
  cases c with
  | compare left op right => cases h
  | present field negated => cases h
  | contains field needle negated => cases h
  | fits field p negated =>
    have hp : p.source.toList.find? endsLine = some '\r' := by simpa [sources, pattern?] using h
    have htext : (Clause.fits field p negated).text.toList ++ rest =
        (leadText field negated "MATCHES " ++ ['/']) ++
          (slashText p.source.toList ++ '/' :: rest) := by
      simp [text_fits]
    rw [htext, dropLine_append ((unbroken_leadText hc.1 negated unbroken_matches).append
      (Unbroken.cons rfl Unbroken.nil))]
    exact dropLine_slashText hc.2 hp (by simp)

theorem sources_cons (c : Clause) (clauses : List Clause) :
    sources (c :: clauses) = sources [c] ++ sources clauses := by
  cases hp : c.pattern? <;> simp [sources, hp]

theorem unbroken_and : Unbroken " AND ".toList := by
  decide

theorem unbroken_laterText (hc : ∀ c ∈ clauses, c.IsProper number)
    (h : (sources clauses).find? endsLine = none) : Unbroken (laterText clauses) := by
  induction clauses with
  | nil => exact Unbroken.nil
  | cons c clauses ih =>
    rw [sources_cons, List.find?_append, Option.or_eq_none_iff] at h
    have hmore := ih (fun d hd => hc d (List.mem_cons_of_mem c hd)) h.2
    exact (unbroken_and.append (unbroken_text (hc c List.mem_cons_self) h.1)).append hmore

theorem dropLine_laterText (hc : ∀ c ∈ clauses, c.IsProper number)
    (h : (sources clauses).find? endsLine = some '\r') (rest : List Char) :
    dropLine (laterText clauses ++ rest) = none := by
  induction clauses with
  | nil => cases h
  | cons c clauses ih =>
    have htext : laterText (c :: clauses) ++ rest =
        " AND ".toList ++ (c.text.toList ++ (laterText clauses ++ rest)) := by
      simp [laterText]
    have hproper := hc c List.mem_cons_self
    rw [sources_cons, List.find?_append] at h
    rw [htext, dropLine_append unbroken_and]
    cases hfirst : (sources [c]).find? endsLine with
    | none =>
      rw [hfirst, Option.none_or] at h
      rw [dropLine_append (unbroken_text hproper hfirst)]
      exact ih (fun d hd => hc d (List.mem_cons_of_mem c hd)) h
    | some d =>
      rw [hfirst, Option.some_or] at h
      exact dropLine_text hproper (hfirst.trans h) _

end Clause

end

end Bylaw
