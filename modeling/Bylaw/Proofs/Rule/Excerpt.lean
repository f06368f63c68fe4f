import Bylaw.Proofs.Rule.Compiled
import Bylaw.Proofs.Rule.Statements
import Bylaw.Proofs.Token.Braces
import Bylaw.Proofs.Token.Coverage

/-! The texts of statements, as they are cut out of the bytes of a rule file. Main statement: the
tokens of a text cover it, so that all that is cut out of it is there. -/

namespace Bylaw

open Text (between?)

namespace Token.Covers

variable {source : String} {placed : List Placed} {left : List Char}

theorem start_le_stop (h : Covers source placed left) {first last : Placed} {more : List Placed}
    (hst : first :: more <:+: placed) (hlast : (first :: more).getLast? = some last) :
    first.start ≤ last.stop := by
  have hmem : last ∈ first :: more := List.mem_of_getLast? hlast
  have hfirst := h.nonempty first (hst.subset List.mem_cons_self)
  have hend := h.nonempty last (hst.subset hmem)
  rcases List.mem_cons.mp hmem with rfl | hmem
  · exact Nat.le_of_lt (h.inside _ (hst.subset List.mem_cons_self)).1
  · have hafter := ((List.pairwise_cons.mp (h.ordered.sublist hst.sublist)).1 last hmem).2
    by_contra hback
    have hle : last.stopByte source ≤ first.startByte source :=
      Text.byteOffset_le source (Nat.le_of_lt (Nat.lt_of_not_le hback))
    omega

/-- The text of a statement is cut out of the source between two characters of it. -/
theorem exists_excerpt (h : Covers source placed left) {st : List Placed}
    (hst : st ∈ Rule.statements placed) :
    ∃ first last text, st.head? = some first ∧ st.getLast? = some last ∧
      between? source (first.startByte source) (last.stopByte source) = some text ∧
      Rule.statementText source.toList st = .ofList (Rule.shorten (Text.collapse text.toList)) := by
  have hinfix : st <:+: placed := Rule.infix_of_mem_statementsFrom hst
  obtain ⟨first, more, rfl⟩ := List.exists_cons_of_ne_nil (Rule.ne_nil_of_mem_statementsFrom hst)
  have hlast := List.getLast?_eq_some_getLast (List.cons_ne_nil first more)
  refine ⟨first, _, _, rfl, hlast,
    Text.between?_byteOffset source (h.start_le_stop hinfix hlast), ?_⟩
  rw [String.toList_ofList, Rule.statementText, hlast]
  rfl

end Token.Covers

namespace Rule

open Token

/-- Every text is read to an end. Each step skips blanks and comments and takes a token of at least
one character. The tokens cover the text up to what is left; that is nothing, and then the texts of
all statements are cut out of the source between two characters of it, or a character at which no
token begins, on the line that is reported. In a text that begins with a brace no brace closes at
depth zero before the block ends. -/
theorem tokens_cover (source : String) :
    (∀ am here cs p there after, Begins am here cs p there after →
      ∃ gap text, cs = gap ++ (text ++ after) ∧ Trivia gap (text ++ after) ∧ text ≠ []) ∧
    (∃ placed am there left, Reads false ⟨0, 1⟩ source.toList placed am there left ∧
      match tokenize source.toList with
      | .ok tokens => tokens = placed ∧ skipTrivia left = [] ∧ Covers source tokens [] ∧
          ∀ st ∈ statements tokens, ∃ first last text,
            st.head? = some first ∧ st.getLast? = some last ∧
            between? source (first.startByte source) (last.stopByte source) = some text ∧
            statementText source.toList st = .ofList (shorten (Text.collapse text.toList))
      | .error e => ∃ c rest, skipTrivia left = c :: rest ∧ scan am c rest = .error e.fault ∧
          Covers source placed (c :: rest) ∧
          lineOf? source (ahead source (c :: rest) []) = some e.line) ∧
    ∀ am rest,
      match scan am '\x7b' rest with
      | .ok r => ∃ body, '\x7b' :: rest = '\x7b' :: body ++ '\x7d' :: r.rest ∧
          r.value = .block (.ofList ('\x7b' :: body ++ ['\x7d'])) ∧
          countBraces (0, .outside) ('\x7b' :: body ++ ['\x7d']) = some (0, .outside) ∧
          ∀ front, front <+: body →
            ∃ depth mode, countBraces (0, .outside) ('\x7b' :: front) = some (depth + 1, mode)
      | .error fault => fault = .unterminatedBlock ∧ ∀ front, front <+: rest →
          ∃ depth mode, countBraces (0, .outside) ('\x7b' :: front) = some (depth + 1, mode) := by
  refine ⟨fun _ _ _ _ _ _ => Begins.takes, ?_, countBraces_scan⟩
  obtain ⟨placed, am, there, left, hreads, hend⟩ := exists_reads false ⟨0, 1⟩ source.toList
  have hcovers := hreads.covers
  have hlast := (hreads.isAt (Cursor.IsAt.start source.toList)).further (skipTrivia_suffix left)
  refine ⟨placed, am, there, left, hreads, ?_⟩
  rw [tokenize]
  rcases hend with ⟨hleft, hok⟩ | ⟨c, rest, fault, hleft, hscan, herror⟩
  · rw [hleft] at hcovers
    rw [hok]
    exact ⟨rfl, hleft, hcovers, fun st => hcovers.exists_excerpt⟩
  · rw [hleft] at hcovers hlast
    rw [herror, hleft]
    exact ⟨c, rest, rfl, hscan, hcovers, hlast.ahead_nil ▸ hlast.lineOf?_eq⟩

/-- Comments and a block with characters of two bytes. The block, which a brace in a string does not
end, begins one byte further on than it would without them, and ends two further on. -/
theorem tokens_cover_umlauts :
    let source := "# ü\nIF GET x THEN CREATE t WITH \x7b\"k\": \"\x7dä\"\x7d // ß"
    let block : Placed := ⟨.block "\x7b\"k\": \"\x7dä\"\x7d", 2, 32, 43⟩
    ∃ tokens, tokenize source.toList = .ok tokens ∧ block ∈ tokens ∧
      block.startByte source = 33 ∧ block.stopByte source = 45 ∧ Covers source tokens [] := by
  intro source block
  have htokens : tokenize source.toList =
      .ok [⟨.word "IF", 2, 4, 6⟩, ⟨.word "GET", 2, 7, 10⟩, ⟨.word "x", 2, 11, 12⟩,
        ⟨.word "THEN", 2, 13, 17⟩, ⟨.word "CREATE", 2, 18, 24⟩, ⟨.word "t", 2, 25, 26⟩,
        ⟨.word "WITH", 2, 27, 31⟩, block] := by
    decide +kernel
  obtain ⟨-, ⟨placed, am, there, left, -, hend⟩, -⟩ := tokens_cover source
  rw [htokens] at hend
  exact ⟨_, htokens, by simp, by decide +kernel, by decide +kernel, hend.2.2.1⟩

end Rule

end Bylaw
