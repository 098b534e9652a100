import TapeMachine.Definition.Fields
import TapeMachine.Proofs.Source.RuleReading
import TapeMachine.Proofs.Text.Lines

/-!
The rule lines of a text. Each line gives itself, trimmed, or nothing, and which of the two depends
on what trimming leaves of it and on no other line.
-/

namespace TapeMachine

open Source

/-- The rule line that a line gives, if it gives one. -/
def lineRules (line : List Char) : List String :=
  ([Text.trim line].filter fun text => !text.isEmpty && !isComment text).map String.ofList

theorem lineRules_of_trim_eq {line other : List Char} (h : Text.trim line = Text.trim other) :
    lineRules line = lineRules other := by
  rw [lineRules, lineRules, h]

theorem lineRules_of_trim_eq_nil {line : List Char} (h : Text.trim line = []) :
    lineRules line = [] := by
  rw [lineRules, h]
  rfl

theorem lineRules_of_isComment {line : List Char} (h : isComment (Text.trim line) = true) :
    lineRules line = [] := by
  simp [lineRules, h]

/-- A line that is not empty is left out only as a comment. -/
theorem lineRules_of_trim_ne_nil {line : List Char} (h : Text.trim line ≠ []) :
    lineRules line =
      [String.ofList (Text.trim line)].filter fun rule => !isComment rule.toList := by
  have hnot : (Text.trim line).isEmpty = false := List.isEmpty_eq_false_iff.2 h
  cases hcomment : isComment (Text.trim line) <;> simp [lineRules, hnot, hcomment]

theorem ruleLines_eq_flatMap (text : String) :
    ruleLines text = (Text.lines text.toList).flatMap lineRules := by
  rw [ruleLines]
  induction Text.lines text.toList with
  | nil => rfl
  | cons line lines ih =>
      rw [List.flatMap_cons, ← ih, lineRules, ← List.map_append, ← List.filter_append]
      rfl

theorem ruleLines_of_not_mem {text : String} (h : '\n' ∉ text.toList) :
    ruleLines text = lineRules text.toList := by
  rw [ruleLines_eq_flatMap, Text.lines_of_not_mem h]
  cases text.toList with
  | nil => rfl
  | cons c line => exact List.flatMap_singleton ..

theorem ruleLines_append_feed {text : String} {line rest : List Char} (hline : '\n' ∉ line)
    (h : text.toList = line ++ '\n' :: rest) :
    ruleLines text = lineRules line ++ ruleLines (String.ofList rest) := by
  rw [ruleLines_eq_flatMap, h, Text.lines_append_feed hline, List.flatMap_cons,
    lineRules_of_trim_eq (Text.trim_dropReturn line), ruleLines_eq_flatMap, String.toList_ofList]

/-- Lines that were put together give what each of them gives. -/
theorem ruleLines_joinLines {lines : List (List Char)} (h : ∀ line ∈ lines, '\n' ∉ line) :
    ruleLines (Text.joinLines (lines.map String.ofList)) = lines.flatMap lineRules := by
  induction lines with
  | nil => rfl
  | cons line lines ih =>
      have hline := h line List.mem_cons_self
      have hlines := ih fun other hother => h other (List.mem_cons_of_mem line hother)
      cases lines with
      | nil =>
          have hsingle : Text.joinLines [String.ofList line] = String.ofList line :=
            String.intercalate_singleton
          rw [List.map_singleton, hsingle, List.flatMap_singleton, ruleLines_of_not_mem,
            String.toList_ofList]
          rwa [String.toList_ofList]
      | cons next lines =>
          have hjoined : (Text.joinLines ((line :: next :: lines).map String.ofList)).toList =
              line ++ '\n' :: (Text.joinLines ((next :: lines).map String.ofList)).toList := by
            rw [List.map_cons, List.map_cons, Text.joinLines, String.intercalate_cons_cons,
              String.toList_append, String.toList_append, String.toList_ofList, List.append_assoc]
            rfl
          rw [ruleLines_append_feed hline hjoined, String.ofList_toList, hlines]
          rfl

end TapeMachine
