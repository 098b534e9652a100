import TapeMachine.Proofs.Definition.Loading
import TapeMachine.Proofs.Source.FaultyLine

/-!
Where the error stands that a text has which is no document. Its line is the first that does not
fit, among the lines before the rules or among the rules, and where all fit the text ends before the
rules begin and its last line is meant.
-/

namespace TapeMachine

open Source Grammar Pattern

namespace Source

theorem reach_definition (text : List Char) :
    Source.definition.reach .top (.ofText text) =
      documentBody.reach .top (Cursor.skipGap ⟨text, 0⟩) := by
  have hbody : (sequence start [many headerLine, rulesKeyword, rulesLine,
      many (seq lineEnd rulesLine), endOfText]).reach .top ⟨text, 0⟩ =
      (seq start documentBody).reach .top ⟨text, 0⟩ := by
    change (seq (seq (seq (seq (seq start (many headerLine)) rulesKeyword) rulesLine)
      (many (seq lineEnd rulesLine))) endOfText).reach .top _ = _
    rw [reach_seq_assoc, reach_seq_assoc, ← rulesSection, reach_seq_assoc, reach_seq_assoc,
      ← documentBody]
  rw [reach_seq_of_some (find?_start text), reach, Nat.zero_max, Context.skipGap_top] at hbody
  rw [Source.definition, reach, Cursor.ofText, ite_self, Nat.max_zero]
  exact hbody

end Source

/-- The error of a text that is no document points at the furthest place that the text is matched
to. -/
theorem Document.place_of_error {text : List Char} {error : SyntaxError}
    (h : ofCharacters text = .error error) :
    documentBody.find? .top (Cursor.skipGap ⟨text, 0⟩) = none ∧
      error.position =
        [lineNumber text (documentBody.reach .top (Cursor.skipGap ⟨text, 0⟩)),
          column text (documentBody.reach .top (Cursor.skipGap ⟨text, 0⟩))] := by
  have hdefinition := find?_definition text
  cases hbody : documentBody.find? .top (Cursor.skipGap ⟨text, 0⟩) with
  | some found =>
      rw [hbody, Option.map_some] at hdefinition
      rw [ofCharacters, matchText_of_find? hdefinition] at h
      contradiction
  | none =>
      rw [hbody, Option.map_none] at hdefinition
      obtain ⟨attempts, hparse⟩ := parse_of_find?_none hdefinition
      rw [ofCharacters, matchText, hparse] at h
      cases h
      refine ⟨rfl, ?_⟩
      rw [← reach_definition, ← furthest_of_parse hparse]
      rfl

namespace Definition

/-- A text that is no document is refused with an error on its faulty line. -/
theorem position_of_malformed {text : String} {error : SyntaxError}
    (hlone : hasLoneReturn text.toList = false)
    (h : Document.ofCharacters text.toList = .error error) :
    ofText text = .error (.malformed error) ∧
      ∃ number column, error.position = [number, column] ∧
        ∀ other, FaultyLine .head ((linesFrom 0 text.toList).map Line.content) other ↔
          other = number := by
  refine ⟨ofCharacters_of_error h, ?_⟩
  obtain ⟨hnone, hplace⟩ := Document.place_of_error h
  obtain ⟨before, line, after, hlines, hstart, hstop, hfaulty⟩ :=
    (blamed_documentBody text.toList 0 hnone).exists_faultyLine
  rw [lineNumber_of_linesFrom hlone hlines hstart hstop] at hplace
  refine ⟨before.length + 1, _, hplace, fun other => ⟨hfaulty.unique, ?_⟩⟩
  rintro rfl
  exact hfaulty

/-- A rule without an arrow, on the last line but one. -/
def arrowlessText : String :=
  "initial: q0\r\nrules:\n  q0,a -> q0,a,R\n  q0,b q1,b,R\n"

def arrowlessError : SyntaxError :=
  ⟨arrowlessText.toList, .point 39, .unmatched [.rule, .endOfText] [], none⟩

theorem position_of_malformed_arrowless :
    hasLoneReturn arrowlessText.toList = false ∧
      Document.ofCharacters arrowlessText.toList = .error arrowlessError ∧
      ofText arrowlessText = .error (.malformed arrowlessError) ∧
      arrowlessError.position = [4, 3] ∧
      ∀ other, FaultyLine .head ((linesFrom 0 arrowlessText.toList).map Line.content) other ↔
        other = 4 := by
  have hlone : hasLoneReturn arrowlessText.toList = false := by decide +kernel
  have hread : Document.ofCharacters arrowlessText.toList = .error arrowlessError := by rfl
  have hplace : arrowlessError.position = [4, 3] := by decide +kernel
  obtain ⟨hload, number, column, hposition, hfaulty⟩ := position_of_malformed hlone hread
  rw [hplace] at hposition
  obtain ⟨rfl, -⟩ := List.cons.inj hposition
  exact ⟨hlone, hread, hload, hplace, hfaulty⟩

end Definition

end TapeMachine
