import TapeMachine.Proofs.Bind
import TapeMachine.Proofs.Grammar.Furthest
import TapeMachine.Proofs.Source.RuleText
import TapeMachine.Proofs.Text.Trim
import TapeMachine.Source.RuleLine

/-!
Reading one rule. A trimmed line that is a written rule is read word by word, and the first word
that is no symbol or no direction is what the error points at. Any other line is refused at a place.
-/

namespace TapeMachine.Source

open Grammar Pattern

theorem find?_start (text : List Char) :
    (start : Pattern Term).find? .top ⟨text, 0⟩ = some ⟨⟨text, 0⟩, []⟩ :=
  rfl

theorem find?_endOfText (offset : Nat) :
    endOfText.find? .top ⟨[], offset⟩ = some ⟨⟨[], offset⟩, [.mk .endOfText offset [] []]⟩ :=
  find?_named [] [] rfl

theorem find?_endOfText_eq_some {cursor : Cursor} {found : Found Term}
    (h : endOfText.find? .top cursor = some found) : cursor.rest = [] := by
  obtain ⟨nodes, hbody⟩ := find?_named_eq_some h
  rw [find?] at hbody
  split at hbody
  · next hempty => exact List.isEmpty_iff.1 hempty
  · contradiction

/-- The pattern for a rule line has the start of the text and its end around the two sides. -/
theorem find?_ruleLine_body (cursor : Cursor) :
    (sequence start [leftSide, Source.arrow, rightSide, endOfText]).find? .top cursor =
      (seq (seq start twoSides) endOfText).find? .top cursor := by
  change (seq (sequence start [leftSide, Source.arrow, rightSide]) endOfText).find? .top cursor = _
  rw [find?, find?_sequence_sides, ← find?]

theorem matchText_of_find? {pattern : Pattern Term} {text : List Char} {found : Found Term}
    (h : pattern.find? .top (.ofText text) = some found) :
    matchText pattern text = .ok found.nodes := by
  rw [matchText, parse_of_find? h]
  rfl

theorem matchText_of_find?_none {pattern : Pattern Term} {text : List Char}
    (h : pattern.find? .top (.ofText text) = none) :
    ∃ attempts, matchText pattern text = .error (.ofAttempts text attempts) ∧
      attempts.furthest ≤ text.length := by
  obtain ⟨attempts, hparse⟩ := parse_of_find?_none h
  refine ⟨attempts, ?_, furthest_le_of_parse hparse⟩
  rw [matchText, hparse]
  rfl

namespace RuleText

variable (rule : RuleText)

/-- The words of a rule that stands at the start of a text, as a match reports them. -/
def tokens : RuleTokens where
  state := .mk .state 0 rule.left.state.1 []
  symbol := .mk .symbol rule.left.symbolStart rule.left.symbol.1 []
  next := .mk .state rule.rightStart rule.right.next.1 []
  write := .mk .symbol (rule.rightStart + rule.right.writeStart) rule.right.write.1 []
  direction := .mk .direction (rule.rightStart + rule.right.directionStart) rule.right.direction.1 []

theorem skipGap_text : Cursor.skipGap ⟨rule.text, 0⟩ = ⟨rule.text, 0⟩ :=
  skipGap_of_startsClear (startsClear_of_append (rule.startsClear_text [])) 0

theorem find?_ruleLine :
    ruleLine.find? .top (.ofText rule.text) = some ⟨⟨[], rule.text.length⟩,
      [.mk .ruleLine 0 rule.text (rule.sides 0 ++ [.mk .endOfText rule.text.length [] []])]⟩ := by
  have hsides : twoSides.find? .top (Cursor.skipGap ⟨rule.text, 0⟩) =
      some ⟨⟨[], 0 + rule.text.length⟩, rule.sides 0⟩ := by
    have happend := find?_twoSides_append rule 0 (show endsWord [] = true from rfl)
    rw [List.append_nil] at happend
    rw [rule.skipGap_text]
    exact happend
  have hend : endOfText.find? .top (Cursor.skipGap ⟨[], 0 + rule.text.length⟩) =
      some ⟨⟨[], 0 + rule.text.length⟩, [.mk .endOfText (0 + rule.text.length) [] []]⟩ := by
    rw [show Cursor.skipGap ⟨[], 0 + rule.text.length⟩ = ⟨[], 0 + rule.text.length⟩ from rfl]
    exact find?_endOfText _
  have hbody : (sequence start [leftSide, Source.arrow, rightSide, endOfText]).find?
      ⟨.consume, false⟩ ⟨rule.text ++ [], 0⟩ = some ⟨⟨[], 0 + rule.text.length⟩,
        rule.sides 0 ++ [.mk .endOfText (0 + rule.text.length) [] []]⟩ := by
    rw [List.append_nil, ← Context.top, find?_ruleLine_body]
    exact find?_seq (find?_seq (find?_start rule.text) hsides) hend
  have hnamed := @find?_named _ Term.ruleLine false _ rule.text [] 0 _ hbody
  rw [List.append_nil, Nat.zero_add] at hnamed
  exact hnamed

theorem ofSides_sides (last : Node Term) :
    RuleTokens.ofSides (rule.sides 0 ++ [last]) = some rule.tokens := by
  simp only [sides, tokens, LeftText.node, RightText.node, Nat.zero_add]
  rfl

theorem matchRule_text : matchRule rule.text = .ok rule.tokens := by
  refine bind_eq_ok.2 ⟨_, matchText_of_find? rule.find?_ruleLine, ?_⟩
  rw [RuleTokens.ofNodes, List.flatMap_singleton, Node.parts, rule.ofSides_sides]

end RuleText

theorem find?_ruleLine_eq_some {text : List Char} {found : Found Term}
    (h : ruleLine.find? .top (.ofText text) = some found) :
    ∃ (before after : Gap) (rule : RuleText), text = before.1 ++ (rule.text ++ after.1) := by
  obtain ⟨nodes, hbody⟩ := find?_named_eq_some h
  rw [← Context.top, find?_ruleLine_body] at hbody
  obtain ⟨_, _, hfirst, hend, -⟩ := find?_seq_eq_some.1 hbody
  obtain ⟨one, two, hstart, hsides, rfl⟩ := find?_seq_eq_some.1 hfirst
  obtain rfl : one = ⟨.ofText text, []⟩ := by
    simpa [find?, Cursor.ofText, eq_comm] using hstart
  obtain ⟨before, hbefore, hskip, -⟩ := exists_gap (.ofText text)
  obtain ⟨rule, hrule, -⟩ := find?_twoSides_eq_some hsides
  obtain ⟨after, hafter, hlast, -⟩ := exists_gap two.cursor
  have hnil := find?_endOfText_eq_some hend
  rw [Context.skipGap_top] at hrule hnil
  refine ⟨⟨before, hbefore⟩, ⟨after, hafter⟩, rule, ?_⟩
  have htext : (Cursor.ofText text).rest = text := rfl
  rw [← htext, hskip, hrule, hlast, hnil, List.append_nil]

/-- A trimmed text that matches is a written rule, for no gap is left at its ends. -/
theorem exists_ruleText {text : List Char} {found : Found Term} (htrimmed : Text.IsTrimmed text)
    (h : ruleLine.find? .top (.ofText text) = some found) : ∃ rule : RuleText, text = rule.text := by
  obtain ⟨⟨before, hbefore⟩, ⟨after, hafter⟩, rule, htext⟩ := find?_ruleLine_eq_some h
  have hfirst := htrimmed.first
  have hlast := htrimmed.last
  rw [htext] at hfirst hlast
  obtain rfl : before = [] := by
    cases before with
    | nil => rfl
    | cons c before =>
        have hclear := hfirst c rfl
        rw [Text.isBlank_of_isGap (hbefore c List.mem_cons_self)] at hclear
        contradiction
  obtain rfl : after = [] := by
    cases hafterLast : after.getLast? with
    | none => exact List.getLast?_eq_none_iff.1 hafterLast
    | some c =>
        have hclear := hlast c (by simp [List.getLast?_append, hafterLast])
        rw [Text.isBlank_of_isGap (hafter c (List.mem_of_getLast? hafterLast))] at hclear
        contradiction
  exact ⟨rule, by simpa using htext⟩

/-- The words for a direction. -/
def directionWords : Direction → List (List Char)
  | .left => [['L'], ['l']]
  | .right => [['R'], ['r']]

namespace RuleText

/-- The words stand for the parts of a rule. -/
structure Denotes (text : RuleText) (rule : Rule) : Prop where
  state : String.ofList text.left.state.1 = rule.situation.state
  symbol : text.left.symbol.1 = [rule.situation.symbol]
  next : String.ofList text.right.next.1 = rule.action.next
  write : text.right.write.1 = [rule.action.write]
  direction : text.right.direction.1 ∈ directionWords rule.action.direction

/-- The first word that cannot stand in its place: where it begins, the word and what is wrong with
it. -/
inductive FirstFault (text : RuleText) : Nat → List Char → Cause → Prop where
  | symbol (hsymbol : text.left.symbol.1.length ≠ 1) :
      FirstFault text text.left.symbolStart text.left.symbol.1
        (.longSymbol (String.ofList text.left.symbol.1))
  | write (hsymbol : text.left.symbol.1.length = 1) (hwrite : text.right.write.1.length ≠ 1) :
      FirstFault text (text.rightStart + text.right.writeStart) text.right.write.1
        (.longSymbol (String.ofList text.right.write.1))
  | direction (hsymbol : text.left.symbol.1.length = 1) (hwrite : text.right.write.1.length = 1)
      (hdirection : ∀ direction, text.right.direction.1 ∉ directionWords direction) :
      FirstFault text (text.rightStart + text.right.directionStart) text.right.direction.1
        (.unknownDirection (String.ofList text.right.direction.1))

end RuleText

theorem readSymbol_eq_ok {text : List Char} (token : Node Term) {symbol : Char} :
    readSymbol text token = .ok symbol ↔ token.text = [symbol] := by
  rw [readSymbol]
  split
  · next found hfound => simp [hfound]
  · next hlong =>
      refine ⟨nofun, fun htext => absurd htext (hlong symbol)⟩

theorem readSymbol_of_length_ne {text : List Char} (token : Node Term) (h : token.text.length ≠ 1) :
    readSymbol text token = .error (errorAt text token .longSymbol) := by
  rw [readSymbol]
  split
  · next found hfound => simp [hfound] at h
  · rfl

theorem readDirection_eq_ok {text : List Char} (token : Node Term) {direction : Direction} :
    readDirection text token = .ok direction ↔ token.text ∈ directionWords direction := by
  rw [readDirection]
  split <;> cases direction <;> simp_all [directionWords]

theorem readDirection_of_not_mem {text : List Char} (token : Node Term)
    (h : ∀ direction, token.text ∉ directionWords direction) :
    readDirection text token = .error (errorAt text token .unknownDirection) := by
  have hleft := h .left
  have hright := h .right
  rw [readDirection]
  split <;> simp_all [directionWords]

theorem toRule_eq_ok {text : List Char} {tokens : RuleTokens} {rule : Rule} :
    tokens.toRule text = .ok rule ↔
      String.ofList tokens.state.text = rule.situation.state ∧
      tokens.symbol.text = [rule.situation.symbol] ∧
      String.ofList tokens.next.text = rule.action.next ∧
      tokens.write.text = [rule.action.write] ∧
      tokens.direction.text ∈ directionWords rule.action.direction := by
  obtain ⟨⟨state, symbol⟩, next, write, direction⟩ := rule
  simp only [RuleTokens.toRule, bind_eq_ok, pure_eq_ok, readSymbol_eq_ok, readDirection_eq_ok]
  constructor
  · rintro ⟨_, hsymbol, _, hwrite, _, hdirection, hrule⟩
    cases hrule
    exact ⟨rfl, hsymbol, rfl, hwrite, hdirection⟩
  · rintro ⟨rfl, hsymbol, rfl, hwrite, hdirection⟩
    exact ⟨symbol, hsymbol, write, hwrite, direction, hdirection, rfl⟩

namespace RuleText

variable (text : RuleText)

theorem toRule_tokens_eq_ok (line : List Char) (rule : Rule) :
    text.tokens.toRule line = .ok rule ↔ text.Denotes rule := by
  rw [toRule_eq_ok]
  exact ⟨fun ⟨hstate, hsymbol, hnext, hwrite, hdirection⟩ =>
    ⟨hstate, hsymbol, hnext, hwrite, hdirection⟩, fun h => ⟨h.1, h.2, h.3, h.4, h.5⟩⟩

variable {text} in
theorem FirstFault.toRule_tokens {start : Nat} {word line : List Char} {cause : Cause}
    (h : text.FirstFault start word cause) :
    text.tokens.toRule line = .error ⟨line, .span start (start + word.length), cause, none⟩ := by
  cases h with
  | symbol hsymbol =>
      rw [RuleTokens.toRule, readSymbol_of_length_ne text.tokens.symbol hsymbol]
      rfl
  | write hsymbol hwrite =>
      obtain ⟨symbol, hsymbol⟩ := List.length_eq_one_iff.1 hsymbol
      rw [RuleTokens.toRule, (readSymbol_eq_ok text.tokens.symbol).2 hsymbol,
        readSymbol_of_length_ne text.tokens.write hwrite]
      rfl
  | direction hsymbol hwrite hdirection =>
      obtain ⟨symbol, hsymbol⟩ := List.length_eq_one_iff.1 hsymbol
      obtain ⟨write, hwrite⟩ := List.length_eq_one_iff.1 hwrite
      rw [RuleTokens.toRule, (readSymbol_eq_ok text.tokens.symbol).2 hsymbol,
        (readSymbol_eq_ok text.tokens.write).2 hwrite,
        readDirection_of_not_mem text.tokens.direction hdirection]
      rfl

/-- The words stand for a rule, or one of them is the first that cannot stand in its place. -/
theorem denotes_or_firstFault :
    (∃ rule, text.Denotes rule) ∨ ∃ start word cause, text.FirstFault start word cause := by
  by_cases hsymbol : text.left.symbol.1.length = 1
  · by_cases hwrite : text.right.write.1.length = 1
    · by_cases hdirection : ∃ direction, text.right.direction.1 ∈ directionWords direction
      · obtain ⟨symbol, hsymbol⟩ := List.length_eq_one_iff.1 hsymbol
        obtain ⟨write, hwrite⟩ := List.length_eq_one_iff.1 hwrite
        obtain ⟨direction, hdirection⟩ := hdirection
        exact .inl ⟨⟨⟨String.ofList text.left.state.1, symbol⟩,
          ⟨String.ofList text.right.next.1, write, direction⟩⟩, rfl, hsymbol, rfl, hwrite,
          hdirection⟩
      · exact .inr ⟨_, _, _, .direction hsymbol hwrite (not_exists.1 hdirection)⟩
    · exact .inr ⟨_, _, _, .write hsymbol hwrite⟩
  · exact .inr ⟨_, _, _, .symbol hsymbol⟩

theorem newline_not_mem_text : '\n' ∉ text.text := by
  intro h
  have hline := text.isLine_text _ h
  contradiction

variable {text} in
theorem FirstFault.stop_le {start : Nat} {word : List Char} {cause : Cause}
    (h : text.FirstFault start word cause) : start + word.length ≤ text.text.length := by
  have hlength : text.text.length = text.rightStart + text.right.text.length := by
    simp only [RuleText.text, rightStart, List.length_append]
    omega
  have hleft := text.left.length_text
  have hright := text.right.length_text
  have hbefore : text.left.text.length ≤ text.rightStart := by
    simp only [rightStart]
    omega
  cases h with
  | symbol => omega
  | write =>
      simp only [RightText.directionStart] at hright
      omega
  | direction => omega

end RuleText

/-- In a text of one line, places are counted from its start. -/
theorem lineNumber_of_not_mem {text : List Char} (h : '\n' ∉ text) (offset : Nat) :
    lineNumber text offset = 1 := by
  rw [lineNumber, List.count_eq_zero_of_not_mem fun hmem => h (List.mem_of_mem_take hmem)]

theorem column_of_not_mem {text : List Char} (h : '\n' ∉ text) {offset : Nat}
    (hoffset : offset ≤ text.length) : column text offset = offset + 1 := by
  have hall : ∀ c ∈ (text.take offset).reverse, decide (c ≠ '\n') = true := by
    rintro c hc
    have hne : c ≠ '\n' := fun heq =>
      h (heq ▸ List.mem_of_mem_take (List.mem_reverse.1 hc))
    exact decide_eq_true hne
  rw [column, lineBefore, List.takeWhile_eq_self_iff.2 hall, List.length_reverse,
    List.length_reverse, List.length_take, Nat.min_eq_left hoffset]

theorem find?_ruleLine_of_no_text {text : List Char} (htrimmed : Text.IsTrimmed text)
    (h : ∀ rule : RuleText, text ≠ rule.text) : ruleLine.find? .top (.ofText text) = none := by
  cases hfound : ruleLine.find? .top (.ofText text) with
  | none => rfl
  | some found =>
      obtain ⟨rule, hrule⟩ := exists_ruleText htrimmed hfound
      exact absurd hrule (h rule)

theorem readRule_of_text {line : List Char} {text : RuleText} (h : Text.trim line = text.text) :
    readRule line = text.tokens.toRule text.text := by
  rw [readRule, h, text.matchRule_text]
  rfl

theorem readRule_of_no_text {line : List Char}
    (h : ∀ text : RuleText, Text.trim line ≠ text.text) :
    ∃ attempts, readRule line = .error (.ofAttempts (Text.trim line) attempts) ∧
      attempts.furthest ≤ (Text.trim line).length := by
  have hnone := find?_ruleLine_of_no_text (Text.isTrimmed_trim line) h
  obtain ⟨attempts, hmatch, hle⟩ := matchText_of_find?_none hnone
  refine ⟨attempts, ?_, hle⟩
  rw [readRule, matchRule, hmatch]
  rfl

theorem readRule_eq_ok {line : List Char} {rule : Rule} :
    readRule line = .ok rule ↔ ∃ text : RuleText, Text.trim line = text.text ∧ text.Denotes rule := by
  constructor
  · intro hread
    by_cases hshape : ∃ text : RuleText, Text.trim line = text.text
    · obtain ⟨text, h⟩ := hshape
      rw [readRule_of_text h, text.toRule_tokens_eq_ok] at hread
      exact ⟨text, h, hread⟩
    · obtain ⟨attempts, herror, -⟩ := readRule_of_no_text (not_exists.1 hshape)
      rw [herror] at hread
      contradiction
  · rintro ⟨text, h, hdenotes⟩
    rw [readRule_of_text h]
    exact (text.toRule_tokens_eq_ok _ rule).2 hdenotes

/-- A rule that was read names its states. -/
theorem states_ne_of_readRule {line : List Char} {rule : Rule} (h : readRule line = .ok rule) :
    rule.situation.state ≠ "" ∧ rule.action.next ≠ "" := by
  obtain ⟨text, -, hdenotes⟩ := readRule_eq_ok.1 h
  rw [← hdenotes.state, ← hdenotes.next, ne_eq, ne_eq, String.ofList_eq_empty_iff,
    String.ofList_eq_empty_iff]
  exact ⟨text.left.state.2.ne_nil, text.right.next.2.ne_nil⟩

/-- A line is read as a rule exactly when it is one between blanks. Of a line that is five words in
the places of a rule's, the first word that cannot stand in its place is refused, and any other line
is refused at a place in it. -/
theorem readRule_spec (line : List Char) :
    (∀ rule, readRule line = .ok rule ↔
      ∃ text : RuleText, Text.trim line = text.text ∧ text.Denotes rule) ∧
    (∀ text : RuleText, Text.trim line = text.text → (¬ ∃ rule, text.Denotes rule) →
      ∃ start word cause error, text.FirstFault start word cause ∧ readRule line = .error error ∧
        error.text = Text.trim line ∧ error.cause = cause ∧
        error.position = [1, start + 1, 1, start + word.length + 1]) ∧
    ((∀ text : RuleText, Text.trim line ≠ text.text) →
      ∃ error offset, readRule line = .error error ∧ error.text = Text.trim line ∧
        error.place = .point offset ∧ offset ≤ (Text.trim line).length) := by
  refine ⟨fun rule => readRule_eq_ok, fun text h hnone => ?_, fun h => ?_⟩
  · obtain ⟨start, word, cause, hfault⟩ := text.denotes_or_firstFault.resolve_left hnone
    have hline := text.newline_not_mem_text
    have hstop := hfault.stop_le
    have hstart : start ≤ text.text.length := Nat.le_trans (Nat.le_add_right ..) hstop
    refine ⟨start, word, cause, _, hfault, (readRule_of_text h).trans hfault.toRule_tokens, h.symm,
      rfl, ?_⟩
    simp only [SyntaxError.position, lineNumber_of_not_mem hline]
    rw [column_of_not_mem hline hstart, column_of_not_mem hline hstop]
  · obtain ⟨attempts, herror, hle⟩ := readRule_of_no_text h
    exact ⟨_, attempts.furthest, herror, rfl, rfl, hle⟩

/-- Dashes and pointed brackets that make no arrow belong to the words. -/
example : readRule "q-,-->>p,>,R".toList = .ok ⟨⟨"q-", '-'⟩, ⟨">p", '>', .right⟩⟩ := by
  rfl

end TapeMachine.Source
