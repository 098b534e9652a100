import TapeMachine.Proofs.Source.HeaderText

/-!
The lines of the rules. A line that reads as a rule up to its end is one, whatever it begins with,
and only a line that does not may be a comment.
-/

namespace TapeMachine.Source

open Grammar Pattern

/-- What a line of the rules may be after the gap it begins with, and the rules in it. -/
inductive RulesContent : List Char → List RuleText → Prop where
  | blank : RulesContent [] []
  | rule (rule : RuleText) (trailing : Gap) : RulesContent (rule.text ++ trailing.1) [rule]
  | comment (text : List Char)
      (hnot : ∀ (rule : RuleText) (trailing : Gap), '#' :: text ≠ rule.text ++ trailing.1) :
      RulesContent ('#' :: text) []

/-- A rule of a document, as a match at a place reports it. -/
def RuleText.ruleNode (rule : RuleText) (offset : Nat) : Node Term :=
  .mk .rule offset rule.text (rule.sides offset)

theorem endsWord_gap_tail (gap : Gap) {tail : List Char} (htail : endsLine tail = true) :
    endsWord (gap.1 ++ tail) = true :=
  endsWord_gap_append gap (endsWord_of_endsLine htail)

theorem find?_rule (rule : RuleText) {rest : List Char} (hrest : endsWord rest = true)
    (offset : Nat) :
    Source.rule.find? .top ⟨rule.text ++ rest, offset⟩ =
      some ⟨⟨rest, offset + rule.text.length⟩, [rule.ruleNode offset]⟩ :=
  find?_named rule.text rest (find?_twoSides_append rule offset hrest)

theorem find?_rule_eq_some {cursor : Cursor} {found : Found Term}
    (h : Source.rule.find? .top cursor = some found) :
    ∃ rule : RuleText, cursor.rest = rule.text ++ found.cursor.rest := by
  obtain ⟨nodes, hbody⟩ := find?_named_eq_some h
  obtain ⟨rule, htext, -⟩ := find?_twoSides_eq_some hbody
  exact ⟨rule, htext⟩

/-- The pattern for what must follow a rule. -/
theorem find?_ahead_end (text : List Char) (offset : Nat) :
    (ahead (either lineEnd endOfText)).find? .top ⟨text, offset⟩ =
      if endsLine text then some ⟨⟨text, offset⟩, []⟩ else none := by
  rw [find?, find?, find?_lineEnd]
  cases text with
  | nil => rfl
  | cons c rest =>
      have hend := isSome_afterLineEnd? c rest
      cases hafter : afterLineEnd? (c :: rest) with
      | none =>
          rw [hafter] at hend
          rw [endsLine, ← hend]
          rfl
      | some after =>
          rw [hafter] at hend
          rw [endsLine, ← hend]
          rfl

theorem find?_rule_ahead (rule : RuleText) (trailing : Gap) {tail : List Char}
    (htail : endsLine tail = true) (offset : Nat) :
    ∃ last, (seq Source.rule (ahead (either lineEnd endOfText))).find? .top
        ⟨rule.text ++ (trailing.1 ++ tail), offset⟩ = some ⟨last, [rule.ruleNode offset]⟩ ∧
      last.skipGap = ⟨tail, offset + (rule.text ++ trailing.1).length⟩ := by
  have hrule := find?_rule rule (endsWord_gap_tail trailing htail) offset
  have hahead := find?_ahead_end tail (offset + rule.text.length + trailing.1.length)
  rw [htail, if_pos rfl] at hahead
  have hskip := skipGap_append (offset + rule.text.length) trailing.2
    (startsClear_of_endsLine htail)
  rw [← hskip] at hahead
  refine ⟨_, find?_seq hrule hahead, ?_⟩
  rw [Cursor.skipGap_skipGap, hskip, List.length_append, Nat.add_assoc]

theorem find?_rule_ahead_eq_some {content tail : List Char} {offset : Nat} {found : Found Term}
    (hcontent : IsLine content) (htail : endsLine tail = true)
    (h : (seq Source.rule (ahead (either lineEnd endOfText))).find? .top ⟨content ++ tail, offset⟩ =
      some found) : ∃ (rule : RuleText) (trailing : Gap), content = rule.text ++ trailing.1 := by
  obtain ⟨one, two, hrule, hahead, -⟩ := find?_seq_eq_some.1 h
  obtain ⟨rule, htext⟩ := find?_rule_eq_some hrule
  obtain ⟨trailing, rfl, hrest⟩ :=
    exists_of_line_eq_append hcontent htail rule.isLine_text htext
  obtain ⟨gap, hgap, hsplit, -⟩ := exists_gap one.cursor
  rw [Context.skipGap_top, find?_ahead_end] at hahead
  split at hahead
  · next hends =>
      rw [hrest] at hsplit
      obtain ⟨rfl, -⟩ := line_append_inj (isLine_append.1 hcontent).2 (isLine_gap ⟨gap, hgap⟩)
        htail hends hsplit
      exact ⟨rule, ⟨trailing, hgap⟩, rfl⟩
  · contradiction

theorem find?_rule_ahead_eq_none {content tail : List Char} (hcontent : IsLine content)
    (htail : endsLine tail = true)
    (h : ∀ (rule : RuleText) (trailing : Gap), content ≠ rule.text ++ trailing.1) (offset : Nat) :
    (seq Source.rule (ahead (either lineEnd endOfText))).find? .top ⟨content ++ tail, offset⟩ =
      none := by
  cases hfound : (seq Source.rule (ahead (either lineEnd endOfText))).find? .top
      ⟨content ++ tail, offset⟩ with
  | none => rfl
  | some found =>
      obtain ⟨rule, trailing, htext⟩ := find?_rule_ahead_eq_some hcontent htail hfound
      exact absurd htext (h rule trailing)

theorem takesLine_rules : TakesLine rulesLine RulesContent RuleText.ruleNode where
  blank := .blank
  clear h := by
    cases h with
    | blank => rfl
    | rule rule trailing => exact rule.startsClear_text trailing.1
    | comment => rfl
  found {content parts tail} offset h hcontent htail := by
    cases h with
    | blank =>
        have hrule := find?_rule_ahead_eq_none hcontent htail
          (fun rule trailing => (rule.text_append_ne_nil trailing.1).symm) offset
        have hcomment := find?_comment_eq_none hcontent htail nofun offset
        exact ⟨_, find?_optional_neither hrule hcomment,
          skipGap_of_startsClear (startsClear_of_endsLine htail) offset⟩
    | rule rule trailing =>
        obtain ⟨last, hlast, hskip⟩ := find?_rule_ahead rule trailing htail offset
        rw [List.append_assoc]
        exact ⟨last, find?_optional_first hlast, hskip⟩
    | comment text hnot =>
        obtain ⟨last, hlast, hskip⟩ := find?_comment (isLine_cons.1 hcontent).2 htail offset
        have hrule := find?_rule_ahead_eq_none hcontent htail hnot offset
        refine ⟨last, find?_optional_second hrule hlast, hskip.trans ?_⟩
        rw [List.length_cons, Nat.add_assoc, Nat.add_comm 1]
  missed {content tail} offset hnone hcontent htail _ := by
    have hnot (rule : RuleText) (trailing : Gap) : content ≠ rule.text ++ trailing.1 := by
      rintro rfl
      exact hnone ⟨_, .rule rule trailing⟩
    apply find?_optional_neither
    · exact find?_rule_ahead_eq_none hcontent htail hnot offset
    · apply find?_comment_eq_none hcontent htail
      rintro text rfl
      exact hnone ⟨_, .comment text hnot⟩

end TapeMachine.Source
