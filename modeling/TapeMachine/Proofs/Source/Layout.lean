import TapeMachine.Proofs.Source.RulesLine
import TapeMachine.Proofs.Source.RuleReading

/-!
The layout of documents: lines with headers, the line that begins the rules, and lines with rules.
The pattern for documents matches exactly the texts with such a layout, and reports the headers and
the rules where they stand.
-/

namespace TapeMachine.Source

open Grammar Pattern

/-- A part of a document, and the place where it begins. -/
structure Placed (Part : Type) where
  start : Nat
  part : Part

variable {Part : Type}

/-- Each line is as described after the gap it begins with. The parts are those of all lines. -/
inductive LinesOf (Content : List Char → List Part → Prop) :
    List Line → List (Placed Part) → Prop where
  | nil : LinesOf Content [] []
  | cons {line : Line} {lines : List Line} {content : List Char} {parts : List Part}
      {later : List (Placed Part)} (gap : Gap) (hline : line.content = gap.1 ++ content)
      (hcontent : Content content parts) (hlines : LinesOf Content lines later) :
      LinesOf Content (line :: lines) (parts.map (⟨line.start + gap.1.length, ·⟩) ++ later)

/-- The first line that begins the rules stands after lines with the headers. What it has left and
the lines after it have the rules. -/
inductive Layout (lines : List Line) (headers : List (Placed HeaderText))
    (rules : List (Placed RuleText)) : Prop where
  | intro (before : List Line) (line : Line) (after : List Line) (indent gap : Gap)
      (rest : List Char) (hlines : lines = before ++ line :: after)
      (hbefore : LinesOf HeadContent before headers)
      (hline : line.content = indent.1 ++ (rulesText gap ++ rest))
      (hrules : LinesOf RulesContent
        (⟨line.start + indent.1.length + (rulesText gap).length, rest⟩ :: after) rules)

theorem gap_append_inj {gap other : Gap} {text rest : List Char} (htext : startsClear text = true)
    (hrest : startsClear rest = true) (h : gap.1 ++ text = other.1 ++ rest) :
    gap = other ∧ text = rest := by
  have hfirst := skipGap_append 0 gap.2 htext
  have hsecond := skipGap_append 0 other.2 hrest
  rw [h, hsecond] at hfirst
  obtain ⟨rfl, -⟩ := Cursor.mk.inj hfirst
  exact ⟨Subtype.ext (List.append_cancel_right h), rfl⟩

theorem startsClear_rulesText (gap : Gap) (rest : List Char) :
    startsClear (rulesText gap ++ rest) = true :=
  rfl

theorem linesOf_cons {Content : List Char → List Part → Prop}
    (hclears : ∀ {content parts}, Content content parts → startsClear content = true)
    {start : Nat} {gap : Gap} {content : List Char} (hclear : startsClear content = true)
    {lines : List Line} {parts : List (Placed Part)}
    (h : LinesOf Content (⟨start, gap.1 ++ content⟩ :: lines) parts) :
    ∃ first later, Content content first ∧ LinesOf Content lines later ∧
      parts = first.map (⟨start + gap.1.length, ·⟩) ++ later := by
  cases h with
  | cons other hline hcontent hlines =>
      obtain ⟨rfl, rfl⟩ := gap_append_inj hclear (hclears hcontent) hline
      exact ⟨_, _, hcontent, hlines, rfl⟩

/-! The rules of a document. -/

/-- The rules, from the line on that begins them. -/
def rulesSection : Pattern Term :=
  seq rulesLine (seq (many (seq lineEnd rulesLine)) endOfText)

def ruleNodes (rules : List (Placed RuleText)) : List (Node Term) :=
  rules.map fun rule => rule.part.ruleNode rule.start

theorem shrinks_lineEnd_rulesLine : Shrinks ((seq lineEnd rulesLine).find? .top) :=
  shrinks_lineEnd.seq_left rulesLine

/-- Where no line ends, nothing but the end of the text can follow. -/
theorem find?_afterLine_none {text : List Char} (hclear : startsClear text = true)
    (hnone : afterLineEnd? text = none) (offset : Nat) :
    (seq (many (seq lineEnd rulesLine)) endOfText).find? .top ⟨text, offset⟩ =
      endOfText.find? .top ⟨text, offset⟩ := by
  have hskip := skipGap_of_startsClear hclear offset
  have hbody : (seq lineEnd rulesLine).find? .top (Cursor.skipGap ⟨text, offset⟩) = none := by
    rw [hskip, find?, find?_lineEnd, hnone]
    rfl
  have hseq := find?_many_seq_of_none shrinks_lineEnd_rulesLine hbody endOfText
  rwa [hskip] at hseq

/-- After a line end the rules go on as from a line's start. -/
theorem find?_afterLine {tail rest : List Char} {count : Nat} (htail : endsLine tail = true)
    (hafter : afterLineEnd? tail = some (count, rest)) (offset : Nat) :
    (seq (many (seq lineEnd rulesLine)) endOfText).find? .top ⟨tail, offset⟩ =
      rulesSection.find? .top (Cursor.skipGap ⟨rest, offset + count⟩) := by
  have hskip := skipGap_of_startsClear (startsClear_of_endsLine htail) offset
  have hend : lineEnd.find? .top (Cursor.skipGap ⟨tail, offset⟩) =
      some ⟨⟨rest, offset + count⟩, []⟩ := by
    rw [hskip, find?_lineEnd, hafter]
    rfl
  obtain ⟨found, hfound⟩ : ∃ found, rulesLine.find? .top
      (Context.top.skipGap ⟨rest, offset + count⟩) = some found := ⟨_, rfl⟩
  have hseq := find?_many_seq_of_some shrinks_lineEnd_rulesLine (find?_seq hend hfound) endOfText
  rw [hskip] at hseq
  exact hseq.trans (find?_seq_of_some hfound _).symm

theorem ruleNodes_append (first : List RuleText) (start : Nat) (later : List (Placed RuleText)) :
    ruleNodes (first.map (⟨start, ·⟩) ++ later) =
      first.map (·.ruleNode start) ++ ruleNodes later := by
  rw [ruleNodes, List.map_append, List.map_map]
  rfl

section RulesLine

variable {content tail : List Char} (start : Nat) {gap : Gap}

theorem find?_rulesSection_line {rules : List RuleText} (h : RulesContent content rules)
    (hcontent : IsLine content) (htail : endsLine tail = true) :
    rulesSection.find? .top ⟨content ++ tail, start⟩ =
      ((seq (many (seq lineEnd rulesLine)) endOfText).find? .top
        ⟨tail, start + content.length⟩).map fun last =>
          ⟨last.cursor, rules.map (·.ruleNode start) ++ last.nodes⟩ := by
  obtain ⟨last, hfound, hlast⟩ := takesLine_rules.found start h hcontent htail
  rw [rulesSection, find?_seq_of_some hfound, Context.skipGap_top, hlast]

theorem find?_rulesSection_missed (h : ¬ ∃ rules, RulesContent content rules)
    (hcontent : IsLine content) (htail : endsLine tail = true) (hclear : startsClear content = true) :
    rulesSection.find? .top ⟨content ++ tail, start⟩ = none := by
  have hboth := startsClear_append hclear htail
  have hmissed := takesLine_rules.missed start h hcontent htail hboth
  rw [rulesSection, find?_seq_of_some hmissed, Context.skipGap_top,
    skipGap_of_startsClear hboth]
  cases content with
  | nil => exact absurd ⟨_, takesLine_rules.blank⟩ h
  | cons c content =>
      have hafter := afterLineEnd?_of_startsLine (isLine_cons.1 hcontent).1 (content ++ tail)
      rw [find?_afterLine_none hboth hafter]
      rfl

end RulesLine

/-- The rules of a text are found when each of its lines has rules, and nothing is found otherwise. -/
theorem find?_rulesSection (text : List Char) (start : Nat) :
    (∀ rules, LinesOf RulesContent (linesFrom start text) rules →
      ∃ stop, rulesSection.find? .top (Cursor.skipGap ⟨text, start⟩) =
        some ⟨⟨[], stop⟩, ruleNodes rules ++ [.mk .endOfText stop [] []]⟩) ∧
    ((¬ ∃ rules, LinesOf RulesContent (linesFrom start text) rules) →
      rulesSection.find? .top (Cursor.skipGap ⟨text, start⟩) = none) := by
  induction text using line_induction generalizing start with
  | hline content tail hcontent htail ih =>
      obtain ⟨gap, content, rfl, hclear⟩ := exists_gap_content content
      have hline := (isLine_append.1 hcontent).2
      have hskip := skipGap_append start gap.2 (startsClear_append hclear htail)
      rw [linesFrom_append hcontent htail, List.append_assoc, hskip, List.length_append,
        ← Nat.add_assoc]
      constructor
      · intro rules hrules
        obtain ⟨first, later, hfirst, hlater, rfl⟩ := linesOf_cons takesLine_rules.clear hclear hrules
        rw [find?_rulesSection_line _ hfirst hline htail, ruleNodes_append]
        cases hafter : afterLineEnd? tail with
        | none =>
            obtain rfl := eq_nil_of_afterLineEnd? htail hafter
            cases hlater
            refine ⟨start + gap.1.length + content.length, ?_⟩
            rw [find?_afterLine_none rfl rfl, find?_endOfText, List.append_assoc]
            rfl
        | some after =>
            obtain ⟨count, rest⟩ := after
            rw [linesAfter, hafter] at hlater
            obtain ⟨stop, hfound⟩ := (ih count rest hafter _).1 later hlater
            refine ⟨stop, ?_⟩
            rw [find?_afterLine htail hafter, hfound, List.append_assoc]
            rfl
      · intro hnone
        by_cases hshape : ∃ first, RulesContent content first
        · obtain ⟨first, hfirst⟩ := hshape
          rw [find?_rulesSection_line _ hfirst hline htail]
          cases hafter : afterLineEnd? tail with
          | none =>
              rw [linesAfter, hafter] at hnone
              exact absurd ⟨_, .cons gap rfl hfirst .nil⟩ hnone
          | some after =>
              obtain ⟨count, rest⟩ := after
              rw [linesAfter, hafter] at hnone
              rw [find?_afterLine htail hafter, (ih count rest hafter _).2 ?_, Option.map_none]
              rintro ⟨later, hlater⟩
              exact hnone ⟨_, .cons gap rfl hfirst hlater⟩
        · exact find?_rulesSection_missed _ hshape hline htail hclear

/-! The line that begins the rules. -/

theorem find?_rulesKeyword_eq_none {text : List Char} (h : ¬ BeginsRules text) (offset : Nat) :
    rulesKeyword.find? .top ⟨text, offset⟩ = none := by
  cases hfound : rulesKeyword.find? .top ⟨text, offset⟩ with
  | none => rfl
  | some found =>
      exact absurd ((isSome_find?_rulesKeyword ..).1 (Option.isSome_of_eq_some hfound)) h

theorem find?_rulesKeyword_section (gap : Gap) (text : List Char) (offset : Nat) :
    (seq rulesKeyword rulesSection).find? .top ⟨rulesText gap ++ text, offset⟩ =
      (rulesSection.find? .top (Cursor.skipGap ⟨text, offset + (rulesText gap).length⟩)).map
        fun last => ⟨last.cursor, .mk .rulesKeyword offset (rulesText gap) [] :: last.nodes⟩ :=
  find?_seq_of_some (find?_rulesKeyword gap text offset) rulesSection

/-! The lines before it. -/

theorem shrinks_headerLine : Shrinks (headerLine.find? .top) :=
  shrinks_lineEnd.seq_right _

/-- A document, from its first line on. -/
def documentBody : Pattern Term :=
  seq (many headerLine) (seq rulesKeyword rulesSection)

section HeaderLine

variable {content tail : List Char} (offset : Nat)

theorem find?_headerLine {headers : List HeaderText} (h : HeadContent content headers)
    (hcontent : IsLine content) (htail : endsLine tail = true) {count : Nat} {rest : List Char}
    (hafter : afterLineEnd? tail = some (count, rest)) :
    headerLine.find? .top ⟨content ++ tail, offset⟩ =
      some ⟨⟨rest, offset + content.length + count⟩, headers.map (·.node offset)⟩ := by
  obtain ⟨last, hfound, hlast⟩ := takesLine_head.found offset h hcontent htail
  rw [headerLine, find?_seq_of_some hfound, Context.skipGap_top, hlast, find?_lineEnd, hafter]
  simp

theorem find?_headerLine_last {headers : List HeaderText} (h : HeadContent content headers)
    (hcontent : IsLine content) (htail : endsLine tail = true) (hafter : afterLineEnd? tail = none) :
    headerLine.find? .top ⟨content ++ tail, offset⟩ = none := by
  obtain ⟨last, hfound, hlast⟩ := takesLine_head.found offset h hcontent htail
  rw [headerLine, find?_seq_of_some hfound, Context.skipGap_top, hlast, find?_lineEnd, hafter]
  rfl

theorem find?_headerLine_missed (h : ¬ ∃ headers, HeadContent content headers)
    (hcontent : IsLine content) (htail : endsLine tail = true) (hclear : startsClear content = true) :
    headerLine.find? .top ⟨content ++ tail, offset⟩ = none := by
  have hboth := startsClear_append hclear htail
  have hmissed := takesLine_head.missed offset h hcontent htail hboth
  rw [headerLine, find?_seq_of_some hmissed, Context.skipGap_top, skipGap_of_startsClear hboth,
    find?_lineEnd]
  cases content with
  | nil => exact absurd ⟨_, takesLine_head.blank⟩ h
  | cons c content =>
      rw [List.cons_append, afterLineEnd?_of_startsLine (isLine_cons.1 hcontent).1]
      rfl

theorem find?_documentBody_of_some {found : Found Term}
    (hclear : startsClear (content ++ tail) = true)
    (h : headerLine.find? .top ⟨content ++ tail, offset⟩ = some found) :
    documentBody.find? .top ⟨content ++ tail, offset⟩ =
      (documentBody.find? .top found.cursor.skipGap).map fun last =>
        ⟨last.cursor, found.nodes ++ last.nodes⟩ := by
  have hskip := skipGap_of_startsClear hclear offset
  rw [← hskip] at h ⊢
  exact find?_many_seq_of_some shrinks_headerLine h _

theorem find?_documentBody_of_none (hclear : startsClear (content ++ tail) = true)
    (h : headerLine.find? .top ⟨content ++ tail, offset⟩ = none) :
    documentBody.find? .top ⟨content ++ tail, offset⟩ =
      (seq rulesKeyword rulesSection).find? .top ⟨content ++ tail, offset⟩ := by
  have hskip := skipGap_of_startsClear hclear offset
  rw [← hskip] at h ⊢
  exact find?_many_seq_of_none shrinks_headerLine h _

end HeaderLine

/-! How a layout is read off the first line. -/

namespace Layout

variable {start : Nat} {gap : Gap} {content : List Char} {lines : List Line}
  {headers : List (Placed HeaderText)} {rules : List (Placed RuleText)}

theorem of_nil (h : Layout [] headers rules) : False := by
  cases h with
  | intro before line after indent gap rest hlines => cases before <;> contradiction

theorem head {first : List HeaderText} (gap : Gap) (hcontent : HeadContent content first)
    (h : Layout lines headers rules) :
    Layout (⟨start, gap.1 ++ content⟩ :: lines)
      (first.map (⟨start + gap.1.length, ·⟩) ++ headers) rules := by
  cases h with
  | intro before line after indent other rest hlines hbefore hline hrules =>
      exact .intro (_ :: before) line after indent other rest (congrArg _ hlines)
        (.cons gap rfl hcontent hbefore) hline hrules

theorem keyword (indent gap : Gap) {rest : List Char}
    (h : LinesOf RulesContent
      (⟨start + indent.1.length + (rulesText gap).length, rest⟩ :: lines) rules) :
    Layout (⟨start, indent.1 ++ (rulesText gap ++ rest)⟩ :: lines) [] rules :=
  .intro [] _ lines indent gap rest rfl .nil rfl h

/-- The first line of a document begins the rules, or it is one of the lines before. -/
theorem cons_cases (hclear : startsClear content = true)
    (h : Layout (⟨start, gap.1 ++ content⟩ :: lines) headers rules) :
    (headers = [] ∧ ∃ (colonGap : Gap) (rest : List Char), content = rulesText colonGap ++ rest ∧
      LinesOf RulesContent
        (⟨start + gap.1.length + (rulesText colonGap).length, rest⟩ :: lines) rules) ∨
    ∃ first later, HeadContent content first ∧ Layout lines later rules ∧
      headers = first.map (⟨start + gap.1.length, ·⟩) ++ later := by
  cases h with
  | intro before line after indent other rest hlines hbefore hline hrules =>
      cases before with
      | nil =>
          cases hbefore
          obtain ⟨rfl, rfl⟩ := List.cons.inj hlines
          obtain ⟨rfl, rfl⟩ := gap_append_inj hclear (startsClear_rulesText other rest) hline
          exact .inl ⟨rfl, other, rest, rfl, hrules⟩
      | cons line before =>
          obtain ⟨rfl, rfl⟩ := List.cons.inj hlines
          obtain ⟨first, later, hfirst, hlater, rfl⟩ := linesOf_cons takesLine_head.clear hclear
            hbefore
          exact .inr ⟨first, later, hfirst,
            .intro before _ after indent other rest rfl hlater hline hrules, rfl⟩

end Layout

/-! Documents. -/

def headerNodes (headers : List (Placed HeaderText)) : List (Node Term) :=
  headers.map fun header => header.part.node header.start

theorem headerNodes_append (first : List HeaderText) (start : Nat)
    (later : List (Placed HeaderText)) :
    headerNodes (first.map (⟨start, ·⟩) ++ later) =
      first.map (·.node start) ++ headerNodes later := by
  rw [headerNodes, List.map_append, List.map_map]
  rfl

/-- What a document with these headers and rules consists of. -/
structure Reports (headers : List (Placed HeaderText)) (rules : List (Placed RuleText))
    (found : Found Term) : Prop where
  rest : found.cursor.rest = []
  nodes : ∃ offset gap stop, found.nodes = headerNodes headers ++
    (.mk .rulesKeyword offset (rulesText gap) [] ::
      (ruleNodes rules ++ [.mk .endOfText stop [] []]))

/-- The keyword is reported where it stands in a text that begins at a place, and what follows it
has the rules. -/
inductive RulesFollow (start : Nat) (text : List Char) (rules : List (Placed RuleText))
    (nodes : List (Node Term)) : Prop where
  | intro (before rest : List Char) (gap : Gap) (htext : text = before ++ (rulesText gap ++ rest))
      (hnode : .mk .rulesKeyword (start + before.length) (rulesText gap) [] ∈ nodes)
      (hrules : LinesOf RulesContent
        (linesFrom (start + before.length + (rulesText gap).length) rest) rules)

theorem RulesFollow.append {start : Nat} {text : List Char} {rules : List (Placed RuleText)}
    {nodes : List (Node Term)} (first : List Char) (earlier : List (Node Term))
    (h : RulesFollow (start + first.length) text rules nodes) :
    RulesFollow start (first ++ text) rules (earlier ++ nodes) := by
  obtain ⟨before, rest, gap, rfl, hnode, hrules⟩ := h
  rw [Nat.add_assoc start, ← List.length_append] at hnode hrules
  exact .intro (first ++ before) rest gap (List.append_assoc ..).symm
    (List.mem_append_right earlier hnode) hrules

/-- What follows a line is followed by the rules after that line too. -/
theorem RulesFollow.line {start count : Nat} {tail rest : List Char}
    {rules : List (Placed RuleText)} {nodes : List (Node Term)} (line : List Char)
    (hafter : afterLineEnd? tail = some (count, rest)) (earlier : List (Node Term))
    (h : RulesFollow (start + line.length + count) rest rules nodes) :
    RulesFollow start (line ++ tail) rules (earlier ++ nodes) := by
  obtain ⟨ending, rfl, rfl⟩ := eq_append_of_afterLineEnd? hafter
  rw [Nat.add_assoc, ← List.length_append] at h
  rw [← List.append_assoc]
  exact h.append (line ++ ending) earlier

section FirstLine

variable {content tail : List Char} (offset : Nat)

theorem find?_headerLine_rulesText (gap : Gap) {rest : List Char}
    (hcontent : IsLine (rulesText gap ++ rest)) (htail : endsLine tail = true) :
    headerLine.find? .top ⟨rulesText gap ++ rest ++ tail, offset⟩ = none := by
  refine find?_headerLine_missed offset ?_ hcontent htail (startsClear_rulesText gap rest)
  rintro ⟨headers, hheaders⟩
  exact hheaders.not_beginsRules ⟨gap, rest, rfl⟩

theorem find?_documentBody_keyword (gap : Gap) {rest : List Char}
    (hcontent : IsLine (rulesText gap ++ rest)) (htail : endsLine tail = true) :
    documentBody.find? .top ⟨rulesText gap ++ rest ++ tail, offset⟩ =
      (rulesSection.find? .top (Cursor.skipGap ⟨rest ++ tail, offset + (rulesText gap).length⟩)).map
        fun last => ⟨last.cursor, .mk .rulesKeyword offset (rulesText gap) [] :: last.nodes⟩ := by
  have hclear := startsClear_rulesText gap rest
  have hmissed := find?_headerLine_rulesText offset gap hcontent htail
  have hbody := find?_documentBody_of_none offset (startsClear_append hclear htail) hmissed
  have hsection := find?_rulesKeyword_section gap (rest ++ tail) offset
  rw [← List.append_assoc] at hsection
  exact hbody.trans hsection

theorem find?_documentBody_head {rest : List Char} {count : Nat} {headers : List HeaderText}
    (h : HeadContent content headers) (hcontent : IsLine content) (htail : endsLine tail = true)
    (hafter : afterLineEnd? tail = some (count, rest)) :
    documentBody.find? .top ⟨content ++ tail, offset⟩ =
      (documentBody.find? .top (Cursor.skipGap ⟨rest, offset + content.length + count⟩)).map
        fun last => ⟨last.cursor, headers.map (·.node offset) ++ last.nodes⟩ := by
  have hclear := startsClear_append (takesLine_head.clear h) htail
  have hfound := find?_headerLine offset h hcontent htail hafter
  rw [find?_documentBody_of_some offset hclear hfound]

theorem find?_documentBody_last {headers : List HeaderText} (h : HeadContent content headers)
    (hcontent : IsLine content) (htail : endsLine tail = true) (hafter : afterLineEnd? tail = none) :
    documentBody.find? .top ⟨content ++ tail, offset⟩ = none := by
  have hclear := startsClear_append (takesLine_head.clear h) htail
  have hnone := find?_headerLine_last offset h hcontent htail hafter
  have hkeyword := find?_rulesKeyword_eq_none
    (mt (beginsRules_append hcontent htail).1 h.not_beginsRules) offset
  rw [find?_documentBody_of_none offset hclear hnone, find?_seq_of_none hkeyword]

theorem find?_documentBody_missed (h : ¬ ∃ headers, HeadContent content headers)
    (hnot : ¬ BeginsRules content) (hcontent : IsLine content) (htail : endsLine tail = true)
    (hclear : startsClear content = true) :
    documentBody.find? .top ⟨content ++ tail, offset⟩ = none := by
  have hmissed := find?_headerLine_missed offset h hcontent htail hclear
  have hkeyword := find?_rulesKeyword_eq_none (mt (beginsRules_append hcontent htail).1 hnot) offset
  rw [find?_documentBody_of_none offset (startsClear_append hclear htail) hmissed,
    find?_seq_of_none hkeyword]

end FirstLine

/-- The lines that a line leaves after the keyword are the lines of what it leaves. -/
theorem linesFrom_after_rulesText {gap : Gap} {rest tail : List Char}
    (hcontent : IsLine (rulesText gap ++ rest)) (htail : endsLine tail = true) (start : Nat) :
    linesFrom (start + (rulesText gap).length) (rest ++ tail) =
      ⟨start + (rulesText gap).length, rest⟩ ::
        linesAfter (start + (rulesText gap ++ rest).length) tail := by
  rw [linesFrom_append (isLine_append.1 hcontent).2 htail, List.length_append, Nat.add_assoc]

/-- A text that is laid out as a document is found as one, and no other text is. -/
theorem find?_documentBody (text : List Char) (start : Nat) :
    (∀ headers rules, Layout (linesFrom start text) headers rules →
      ∃ found, documentBody.find? .top (Cursor.skipGap ⟨text, start⟩) = some found ∧
        Reports headers rules found ∧ RulesFollow start text rules found.nodes) ∧
    ((¬ ∃ headers rules, Layout (linesFrom start text) headers rules) →
      documentBody.find? .top (Cursor.skipGap ⟨text, start⟩) = none) := by
  induction text using line_induction generalizing start with
  | hline content tail hcontent htail ih =>
      obtain ⟨gap, content, rfl, hclear⟩ := exists_gap_content content
      have hline := (isLine_append.1 hcontent).2
      have hboth := startsClear_append hclear htail
      rw [linesFrom_append hcontent htail, List.append_assoc, skipGap_append start gap.2 hboth,
        List.length_append, ← Nat.add_assoc]
      constructor
      · intro headers rules hlayout
        -- The first line ends the head of the document, or the rest of the text is laid out too.
        rcases Layout.cons_cases hclear hlayout with
          ⟨rfl, colonGap, rest, rfl, hrules⟩ | ⟨first, later, hfirst, hlater, rfl⟩
        · rw [← linesFrom_after_rulesText hline htail] at hrules
          obtain ⟨stop, hfound⟩ := (find?_rulesSection (rest ++ tail) _).1 rules hrules
          rw [find?_documentBody_keyword _ colonGap hline htail, hfound]
          refine ⟨_, rfl, ⟨rfl, _, colonGap, stop, rfl⟩,
            .intro gap.1 (rest ++ tail) colonGap ?_ List.mem_cons_self hrules⟩
          rw [List.append_assoc]
        · cases hafter : afterLineEnd? tail with
          | none =>
              rw [linesAfter, hafter] at hlater
              exact hlater.of_nil.elim
          | some after =>
              obtain ⟨count, rest⟩ := after
              rw [linesAfter, hafter] at hlater
              obtain ⟨found, hfound, ⟨hrest, offset, colonGap, stop, hnodes⟩, hfollow⟩ :=
                (ih count rest hafter _).1 later rules hlater
              rw [find?_documentBody_head _ hfirst hline htail hafter, hfound]
              refine ⟨_, rfl, ⟨hrest, offset, colonGap, stop, ?_⟩, ?_⟩
              · rw [headerNodes_append, List.append_assoc, ← hnodes]
              · rw [Nat.add_assoc start, ← List.length_append] at hfollow
                rw [← List.append_assoc]
                exact hfollow.line _ hafter _
      · intro hnone
        by_cases hhead : ∃ headers, HeadContent content headers
        · obtain ⟨first, hfirst⟩ := hhead
          cases hafter : afterLineEnd? tail with
          | none => exact find?_documentBody_last _ hfirst hline htail hafter
          | some after =>
              obtain ⟨count, rest⟩ := after
              rw [linesAfter, hafter] at hnone
              rw [find?_documentBody_head _ hfirst hline htail hafter,
                (ih count rest hafter _).2 ?_, Option.map_none]
              rintro ⟨headers, rules, hlayout⟩
              exact hnone ⟨_, rules, hlayout.head gap hfirst⟩
        · by_cases hbegins : BeginsRules content
          · obtain ⟨colonGap, rest, rfl⟩ := hbegins
            rw [find?_documentBody_keyword _ colonGap hline htail,
              (find?_rulesSection (rest ++ tail) _).2 ?_, Option.map_none]
            rintro ⟨rules, hrules⟩
            rw [linesFrom_after_rulesText hline htail] at hrules
            exact hnone ⟨[], rules, .keyword gap colonGap hrules⟩
          · exact find?_documentBody_missed _ hhead hbegins hline htail hclear

end TapeMachine.Source
