import TapeMachine.Proofs.Source.Lines

/-!
Written rules: five words with commas and an arrow between them, and gaps around these. The pattern
for a rule matches exactly the written rules that stand before a place where no word goes on, and
reports their words.
-/

namespace TapeMachine.Source

open Grammar Pattern

abbrev Arrow := { arrow : List Char // arrow = ['→'] ∨ arrow = ['-', '>'] }

/-- `STATE , SYMBOL`. -/
structure LeftText where
  state : Word
  beforeComma : Gap
  afterComma : Gap
  symbol : Word

/-- `NEXT , WRITE , DIRECTION`. -/
structure RightText where
  next : Word
  beforeFirst : Gap
  afterFirst : Gap
  write : Word
  beforeSecond : Gap
  afterSecond : Gap
  direction : Word

/-- A rule as it is written, without gaps before and after it. -/
structure RuleText where
  left : LeftText
  beforeArrow : Gap
  arrow : Arrow
  afterArrow : Gap
  right : RightText

namespace LeftText

variable (left : LeftText)

def text : List Char :=
  left.state.1 ++ (left.beforeComma.1 ++ ',' :: (left.afterComma.1 ++ left.symbol.1))

/-- The number of characters before the symbol. -/
def symbolStart : Nat :=
  left.state.1.length + left.beforeComma.1.length + 1 + left.afterComma.1.length

def node (offset : Nat) : Node Term :=
  .mk .left offset left.text [.mk .state offset left.state.1 [],
    .mk .symbol (offset + left.symbolStart) left.symbol.1 []]

theorem length_text : left.text.length = left.symbolStart + left.symbol.1.length := by
  simp only [text, symbolStart, List.length_append, List.length_cons]
  omega

end LeftText

namespace RightText

variable (right : RightText)

def text : List Char :=
  right.next.1 ++ (right.beforeFirst.1 ++ ',' :: (right.afterFirst.1 ++ (right.write.1 ++
    (right.beforeSecond.1 ++ ',' :: (right.afterSecond.1 ++ right.direction.1)))))

def writeStart : Nat :=
  right.next.1.length + right.beforeFirst.1.length + 1 + right.afterFirst.1.length

def directionStart : Nat :=
  right.writeStart + right.write.1.length + right.beforeSecond.1.length + 1 +
    right.afterSecond.1.length

def node (offset : Nat) : Node Term :=
  .mk .right offset right.text [.mk .state offset right.next.1 [],
    .mk .symbol (offset + right.writeStart) right.write.1 [],
    .mk .direction (offset + right.directionStart) right.direction.1 []]

theorem length_text : right.text.length = right.directionStart + right.direction.1.length := by
  simp only [text, directionStart, writeStart, List.length_append, List.length_cons]
  omega

end RightText

namespace RuleText

variable (rule : RuleText)

def text : List Char :=
  rule.left.text ++ (rule.beforeArrow.1 ++ (rule.arrow.1 ++ (rule.afterArrow.1 ++ rule.right.text)))

/-- The number of characters before the right side. -/
def rightStart : Nat :=
  rule.left.text.length + rule.beforeArrow.1.length + rule.arrow.1.length + rule.afterArrow.1.length

/-- The two sides, as a match at a place reports them. -/
def sides (offset : Nat) : List (Node Term) :=
  [rule.left.node offset, rule.right.node (offset + rule.rightStart)]

end RuleText

theorem isLine_word (word : Word) : IsLine word.1 := by
  intro c hc
  have hseparator := word.2.not_mem c hc
  rw [isLineEnd_eq_false]
  constructor
  · rintro rfl
    exact hseparator (by decide)
  · rintro rfl
    exact hseparator (by decide)

theorem isLine_arrow (arrow : Arrow) : IsLine arrow.1 := by
  obtain ⟨arrow, rfl | rfl⟩ := arrow <;> decide

/-- A rule stands on one line. -/
theorem RuleText.isLine_text (rule : RuleText) : IsLine rule.text := by
  simp only [RuleText.text, LeftText.text, RightText.text, isLine_append, isLine_cons]
  simp only [isLine_word, isLine_gap, isLine_arrow, and_true, true_and]
  decide

/-! A gap and then a comma, an arrow or a token. -/

section AfterGap

variable (gap : Gap) (rest : List Char) (offset : Nat)

theorem endsWord_gap_append {rest : List Char} (hrest : endsWord rest = true) :
    endsWord (gap.1 ++ rest) = true := by
  rcases gap_append_cases gap rest with heq | ⟨c, more, heq, rfl | rfl⟩ <;> rw [heq]
  · exact hrest
  · rfl
  · rfl

theorem endsWord_comma : endsWord (',' :: rest) = true :=
  rfl

theorem endsWord_arrow (arrow : Arrow) : endsWord (arrow.1 ++ rest) = true := by
  obtain ⟨arrow, rfl | rfl⟩ := arrow <;> rfl

theorem startsClear_word (word : Word) : startsClear (word.1 ++ rest) = true := by
  obtain ⟨word, hword⟩ := word
  cases word with
  | nil => exact absurd rfl hword.ne_nil
  | cons c word =>
      have hc := hword.not_mem c List.mem_cons_self
      simp only [separators, List.mem_cons, not_or] at hc
      simp [startsClear, Text.isGap, hc.1, hc.2.1]

theorem find?_literal (text : String) {rest : List Char}
    (hclear : startsClear (text.toList ++ rest) = true) (context : Context) :
    (literal text).find? context (Cursor.skipGap ⟨gap.1 ++ (text.toList ++ rest), offset⟩) =
      some ⟨⟨rest, offset + gap.1.length + text.toList.length⟩, []⟩ := by
  rw [skipGap_append offset gap.2 hclear]
  exact find?_exactly_append text.toList rest context _

theorem find?_comma :
    (literal ",").find? .top (Cursor.skipGap ⟨gap.1 ++ ',' :: rest, offset⟩) =
      some ⟨⟨rest, offset + gap.1.length + 1⟩, []⟩ :=
  find?_literal gap offset "," (show startsClear (',' :: rest) = true from rfl) .top

theorem find?_arrow (arrow : Arrow) :
    Source.arrow.find? .top (Cursor.skipGap ⟨gap.1 ++ (arrow.1 ++ rest), offset⟩) =
      some ⟨⟨rest, offset + gap.1.length + arrow.1.length⟩, []⟩ := by
  obtain ⟨arrow, rfl | rfl⟩ := arrow
  · rw [skipGap_append offset gap.2 rfl]
    rfl
  · rw [skipGap_append offset gap.2 rfl]
    rfl

theorem find?_word (term : Term) (word : Word) {rest : List Char} (hrest : endsWord rest = true) :
    (token term).find? .top (Cursor.skipGap ⟨gap.1 ++ (word.1 ++ rest), offset⟩) =
      some ⟨⟨rest, offset + gap.1.length + word.1.length⟩,
        [.mk term (offset + gap.1.length) word.1 []]⟩ := by
  rw [skipGap_append offset gap.2 (startsClear_word rest word)]
  exact find?_token_append term _ word.2 hrest

variable {cursor : Cursor} {found : Found Term}

theorem find?_literal_eq_some {text : String} {context : Context}
    (h : (literal text).find? context cursor.skipGap = some found) :
    ∃ gap : Gap, cursor.rest = gap.1 ++ (text.toList ++ found.cursor.rest) := by
  obtain ⟨gap, hgap, hrest, -⟩ := exists_gap cursor
  exact ⟨⟨gap, hgap⟩, hrest.trans (congrArg _ (find?_exactly_eq_some.1 h).1)⟩

theorem find?_comma_eq_some (h : (literal ",").find? .top cursor.skipGap = some found) :
    ∃ gap : Gap, cursor.rest = gap.1 ++ ',' :: found.cursor.rest :=
  find?_literal_eq_some h

theorem find?_arrow_eq_some (h : Source.arrow.find? .top cursor.skipGap = some found) :
    ∃ (gap : Gap) (arrow : Arrow), cursor.rest = gap.1 ++ (arrow.1 ++ found.cursor.rest) := by
  obtain ⟨gap, hgap, hrest, -⟩ := exists_gap cursor
  rw [Source.arrow, find?, Option.or_eq_some_iff] at h
  rcases h with h | ⟨-, h⟩
  · exact ⟨⟨gap, hgap⟩, ⟨['→'], .inl rfl⟩, hrest.trans (by rw [(find?_exactly_eq_some.1 h).1]; rfl)⟩
  · exact ⟨⟨gap, hgap⟩, ⟨['-', '>'], .inr rfl⟩,
      hrest.trans (by rw [(find?_exactly_eq_some.1 h).1]; rfl)⟩

theorem find?_word_eq_some {term : Term} (h : (token term).find? .top cursor.skipGap = some found) :
    ∃ (gap : Gap) (word : Word), cursor.rest = gap.1 ++ (word.1 ++ found.cursor.rest) ∧
      endsWord found.cursor.rest = true := by
  obtain ⟨gap, hgap, hrest, -⟩ := exists_gap cursor
  obtain ⟨word, hword, htext, hends⟩ := find?_token_eq_some h
  exact ⟨⟨gap, hgap⟩, ⟨word, hword⟩, by rw [hrest, htext], hends⟩

end AfterGap

theorem find?_leftSide_append (left : LeftText) {rest : List Char} (offset : Nat)
    (hrest : endsWord rest = true) :
    leftSide.find? .top ⟨left.text ++ rest, offset⟩ =
      some ⟨⟨rest, offset + left.text.length⟩, [left.node offset]⟩ := by
  apply find?_named
  have hstate := find?_token_append .state offset left.state.2
    (endsWord_gap_append left.beforeComma
      (endsWord_comma (left.afterComma.1 ++ (left.symbol.1 ++ rest))))
  have hcomma := find?_comma left.beforeComma (left.afterComma.1 ++ (left.symbol.1 ++ rest))
    (offset + left.state.1.length)
  have hsymbol := find?_word left.afterComma
    (offset + left.state.1.length + left.beforeComma.1.length + 1) .symbol left.symbol hrest
  have hall := find?_seq (find?_seq hstate hcomma) hsymbol
  rw [left.length_text]
  simp only [LeftText.text, LeftText.symbolStart, List.append_assoc, List.cons_append,
    Nat.add_assoc] at hall ⊢
  exact hall

theorem find?_leftSide_eq_some {cursor : Cursor} {found : Found Term}
    (h : leftSide.find? .top cursor = some found) :
    ∃ left : LeftText, cursor.rest = left.text ++ found.cursor.rest ∧
      endsWord found.cursor.rest = true := by
  obtain ⟨nodes, hbody⟩ := find?_named_eq_some h
  obtain ⟨before, last, hbefore, hsymbol, heq⟩ := find?_seq_eq_some.1 hbody
  obtain ⟨first, second, hstate, hcomma, rfl⟩ := find?_seq_eq_some.1 hbefore
  obtain ⟨state, hword, htext, -⟩ := find?_token_eq_some hstate
  obtain ⟨beforeComma, hbeforeComma⟩ := find?_comma_eq_some hcomma
  obtain ⟨afterComma, symbol, hafterComma, hends⟩ := find?_word_eq_some hsymbol
  obtain ⟨hlast, -⟩ := Found.mk.inj heq
  rw [← hlast] at hafterComma hends
  refine ⟨⟨⟨state, hword⟩, beforeComma, afterComma, symbol⟩, ?_, hends⟩
  rw [htext, hbeforeComma, hafterComma]
  simp [LeftText.text]

theorem find?_rightSide_append (right : RightText) {rest : List Char} (offset : Nat)
    (hrest : endsWord rest = true) :
    rightSide.find? .top ⟨right.text ++ rest, offset⟩ =
      some ⟨⟨rest, offset + right.text.length⟩, [right.node offset]⟩ := by
  apply find?_named
  have hnext := find?_token_append .state offset right.next.2
    (endsWord_gap_append right.beforeFirst (endsWord_comma (right.afterFirst.1 ++ (right.write.1 ++
      (right.beforeSecond.1 ++ ',' :: (right.afterSecond.1 ++ (right.direction.1 ++ rest)))))))
  have hwrite := find?_word right.afterFirst (offset + right.next.1.length +
    right.beforeFirst.1.length + 1) .symbol right.write
    (endsWord_gap_append right.beforeSecond
      (endsWord_comma (right.afterSecond.1 ++ (right.direction.1 ++ rest))))
  have hdirection := find?_word right.afterSecond (offset + right.next.1.length +
    right.beforeFirst.1.length + 1 + right.afterFirst.1.length + right.write.1.length +
    right.beforeSecond.1.length + 1) .direction right.direction hrest
  have hall := find?_seq (find?_seq (find?_seq (find?_seq hnext (find?_comma ..)) hwrite)
    (find?_comma ..)) hdirection
  rw [right.length_text]
  simp only [RightText.text, RightText.writeStart, RightText.directionStart, List.append_assoc,
    List.cons_append, Nat.add_assoc] at hall ⊢
  exact hall

theorem find?_rightSide_eq_some {cursor : Cursor} {found : Found Term}
    (h : rightSide.find? .top cursor = some found) :
    ∃ right : RightText, cursor.rest = right.text ++ found.cursor.rest ∧
      endsWord found.cursor.rest = true := by
  obtain ⟨nodes, hbody⟩ := find?_named_eq_some h
  obtain ⟨_, last, hfour, hdirection, heq⟩ := find?_seq_eq_some.1 hbody
  obtain ⟨_, _, hthree, hsecond, rfl⟩ := find?_seq_eq_some.1 hfour
  obtain ⟨_, _, htwo, hwrite, rfl⟩ := find?_seq_eq_some.1 hthree
  obtain ⟨_, _, hnext, hfirst, rfl⟩ := find?_seq_eq_some.1 htwo
  obtain ⟨next, hword, htext, -⟩ := find?_token_eq_some hnext
  obtain ⟨beforeFirst, hbeforeFirst⟩ := find?_comma_eq_some hfirst
  obtain ⟨afterFirst, write, hafterFirst, -⟩ := find?_word_eq_some hwrite
  obtain ⟨beforeSecond, hbeforeSecond⟩ := find?_comma_eq_some hsecond
  obtain ⟨afterSecond, direction, hafterSecond, hends⟩ := find?_word_eq_some hdirection
  obtain ⟨hlast, -⟩ := Found.mk.inj heq
  rw [← hlast] at hafterSecond hends
  refine ⟨⟨⟨next, hword⟩, beforeFirst, afterFirst, write, beforeSecond, afterSecond, direction⟩,
    ?_, hends⟩
  rw [htext, hbeforeFirst, hafterFirst, hbeforeSecond, hafterSecond]
  simp [RightText.text]

theorem startsClear_left (left : LeftText) (rest : List Char) :
    startsClear (left.text ++ rest) = true := by
  rw [LeftText.text, List.append_assoc]
  exact startsClear_word _ left.state

theorem startsClear_right (right : RightText) (rest : List Char) :
    startsClear (right.text ++ rest) = true := by
  rw [RightText.text, List.append_assoc]
  exact startsClear_word _ right.next

namespace RuleText

variable (rule : RuleText) (rest : List Char)

theorem startsClear_text : startsClear (rule.text ++ rest) = true := by
  rw [text, List.append_assoc]
  exact startsClear_left rule.left _

theorem text_append_ne_nil : rule.text ++ rest ≠ [] := by
  simp [text, LeftText.text]

end RuleText

/-- The two sides and the arrow between them. -/
def twoSides : Pattern Term :=
  sequence leftSide [Source.arrow, rightSide]

theorem find?_twoSides_append (rule : RuleText) {rest : List Char} (offset : Nat)
    (hrest : endsWord rest = true) :
    twoSides.find? .top ⟨rule.text ++ rest, offset⟩ =
      some ⟨⟨rest, offset + rule.text.length⟩, rule.sides offset⟩ := by
  have hleft := find?_leftSide_append rule.left offset (endsWord_gap_append rule.beforeArrow
    (endsWord_arrow (rule.afterArrow.1 ++ (rule.right.text ++ rest)) rule.arrow))
  have harrow := find?_arrow rule.beforeArrow (rule.afterArrow.1 ++ (rule.right.text ++ rest))
    (offset + rule.left.text.length) rule.arrow
  have hright := find?_rightSide_append rule.right (offset + rule.left.text.length +
    rule.beforeArrow.1.length + rule.arrow.1.length + rule.afterArrow.1.length) hrest
  rw [← skipGap_append _ rule.afterArrow.2 (startsClear_right rule.right rest)] at hright
  have hall := find?_seq (find?_seq hleft harrow) hright
  simp only [RuleText.text, RuleText.sides, RuleText.rightStart, List.append_assoc,
    List.length_append, Nat.add_assoc] at hall ⊢
  exact hall

theorem find?_twoSides_eq_some {cursor : Cursor} {found : Found Term}
    (h : twoSides.find? .top cursor = some found) :
    ∃ rule : RuleText, cursor.rest = rule.text ++ found.cursor.rest ∧
      endsWord found.cursor.rest = true := by
  obtain ⟨between, _, hbefore, hright, rfl⟩ := find?_seq_eq_some.1 h
  obtain ⟨_, _, hleft, harrow, rfl⟩ := find?_seq_eq_some.1 hbefore
  obtain ⟨left, htext, -⟩ := find?_leftSide_eq_some hleft
  obtain ⟨beforeArrow, arrow, hbeforeArrow⟩ := find?_arrow_eq_some harrow
  obtain ⟨right, hrest, hends⟩ := find?_rightSide_eq_some hright
  obtain ⟨afterArrow, hgap, hskip, -⟩ := exists_gap _
  refine ⟨⟨left, beforeArrow, arrow, ⟨afterArrow, hgap⟩, right⟩, ?_, hends⟩
  rw [htext, hbeforeArrow, hskip, ← Context.skipGap_top, hrest]
  simp [RuleText.text]

/-- A sequence that goes on with the two sides, as rule lines and documents have them. -/
theorem find?_sequence_sides (first : Pattern Term) (cursor : Cursor) :
    (sequence first [leftSide, Source.arrow, rightSide]).find? .top cursor =
      (seq first twoSides).find? .top cursor := by
  change (seq (seq (seq first leftSide) Source.arrow) rightSide).find? .top cursor = _
  rw [find?, funext (find?_seq_assoc first leftSide Source.arrow .top), ← find?]
  exact find?_seq_assoc first (seq leftSide Source.arrow) rightSide .top cursor

end TapeMachine.Source
