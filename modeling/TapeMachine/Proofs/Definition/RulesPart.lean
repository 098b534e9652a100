import TapeMachine.Proofs.Definition.Loading
import TapeMachine.Proofs.Definition.RuleLines

/-!
The text after the keyword that begins the rules. The grammar divides it into lines and tells rules
from comments by matching. The rules field of a form is divided at line feeds, and its comments are
the lines that begin as one and cannot be read. Where no other blanks than spaces, tabs and line
ends stand in the text, a document and a form with that text give one definition.
-/

namespace TapeMachine

open Source Grammar

namespace Source

/-- The text after the keyword that begins the rules. -/
def rulesPart (text : List Char) (nodes : List (Node Term)) : List Char :=
  match (nodes.flatMap Node.parts).find? (·.name = .rulesKeyword) with
  | some keyword => text.drop keyword.stop
  | none => []

section Reported

variable {headers : List (Placed HeaderText)} {rules : List (Placed RuleText)} {found : Found Term}

/-- One keyword is reported. -/
theorem Reports.find?_keyword (h : Reports headers rules found) {node : Node Term}
    (hnode : node ∈ found.nodes) (hname : node.name = .rulesKeyword) :
    found.nodes.find? (·.name = .rulesKeyword) = some node := by
  obtain ⟨-, offset, gap, stop, hnodes⟩ := h
  rw [hnodes] at hnode ⊢
  have hheaders : (headerNodes headers).find? (·.name = .rulesKeyword) = none := by
    rw [List.find?_eq_none]
    intro other hother
    obtain ⟨header, -, rfl⟩ := List.mem_map.1 hother
    simp [HeaderText.node, Node.name]
  rw [List.find?_append, hheaders, Option.none_or, List.find?_cons_of_pos (by simp [Node.name])]
  rw [List.mem_append, List.mem_cons, List.mem_append, List.mem_singleton] at hnode
  rcases hnode with hheader | rfl | hrule | rfl
  · obtain ⟨header, -, rfl⟩ := List.mem_map.1 hheader
    contradiction
  · rfl
  · obtain ⟨rule, -, rfl⟩ := List.mem_map.1 hrule
    contradiction
  · contradiction

/-- What follows the keyword has the rules of the document. -/
theorem linesOf_rulesPart {text : List Char} (h : Reports headers rules found)
    (hfollow : RulesFollow 0 text rules found.nodes) (start : Nat) (whole : List Char) :
    ∃ before place, text = before ++ rulesPart text [.mk .definition start whole found.nodes] ∧
      LinesOf RulesContent
        (linesFrom place (rulesPart text [.mk .definition start whole found.nodes])) rules := by
  obtain ⟨before, rest, gap, rfl, hnode, hrules⟩ := hfollow
  have hrest : rulesPart (before ++ (rulesText gap ++ rest))
      [.mk .definition start whole found.nodes] = rest := by
    rw [rulesPart, List.flatMap_singleton, Node.parts, h.find?_keyword hnode rfl]
    have hstop : (Node.mk Term.rulesKeyword (0 + before.length) (rulesText gap) []).stop =
        (before ++ rulesText gap).length := by
      rw [Node.stop, Node.start, Node.text, List.length_append, Nat.zero_add]
    dsimp only
    rw [hstop, ← List.append_assoc, List.drop_left]
  rw [hrest]
  exact ⟨before ++ rulesText gap, _, (List.append_assoc ..).symm, hrules⟩

end Reported

/-- A text that is read as a document consists of headers, the keyword and the rules after it. -/
theorem exists_reports {text : List Char} {nodes : List (Node Term)}
    (h : matchText Source.definition text = .ok nodes) :
    ∃ headers rules found whole, nodes = [.mk .definition 0 whole found.nodes] ∧
      Reports headers rules found ∧ RulesFollow 0 text rules found.nodes := by
  have hlayout : ∃ headers rules, Layout (linesFrom 0 text) headers rules := by
    by_contra hnone
    obtain ⟨error, herror⟩ := Document.ofCharacters_of_no_layout hnone
    rw [Document.ofCharacters, h, Except.map] at herror
    cases herror
  obtain ⟨headers, rules, hlayout⟩ := hlayout
  obtain ⟨found, hfound, hreports, hfollow⟩ := (find?_documentBody text 0).1 headers rules hlayout
  have hdefinition := find?_definition text
  rw [hfound, Option.map_some] at hdefinition
  rw [matchText_of_find? hdefinition] at h
  obtain rfl := Except.ok.inj h
  exact ⟨headers, rules, found, _, rfl, hreports, hfollow⟩

/-! One line. -/

section Line

variable {content tail : List Char}

theorem isGap_of_plainBlanks (h : Text.PlainBlanks (content ++ tail)) (hcontent : IsLine content) :
    ∀ c ∈ content, Text.isBlank c = true → Text.isGap c = true := by
  induction content with
  | nil => exact nofun
  | cons c content ih =>
      obtain ⟨hfirst, hrest⟩ := h
      obtain ⟨hc, hcontent⟩ := isLine_cons.1 hcontent
      obtain ⟨hreturn, hfeed⟩ := isLineEnd_eq_false.1 hc
      intro d hd hblank
      rcases List.mem_cons.1 hd with rfl | hd
      · rcases hfirst hblank with hgap | hline | hline
        · exact hgap
        · exact absurd hline hfeed
        · exact absurd hline.1 hreturn
      · exact ih hrest hcontent d hd hblank

theorem isBlank_gap (gap : Gap) : ∀ c ∈ gap.1, Text.isBlank c = true :=
  fun c hc => Text.isBlank_of_isGap (gap.2 c hc)

/-- A comment of the rules is one for the form: what could be read as a rule would be one. -/
theorem isComment_trim {text : List Char}
    (hblanks : ∀ c ∈ '#' :: text, Text.isBlank c = true → Text.isGap c = true)
    (hnot : ∀ (rule : RuleText) (trailing : Gap), '#' :: text ≠ rule.text ++ trailing.1) :
    isComment (Text.trim ('#' :: text)) = true := by
  obtain ⟨body, after, htrim, hafter, rfl⟩ :=
    Text.exists_trim_of_first (show Text.isBlank '#' = false by decide) text
  have hgap : IsGap after := fun c hc =>
    hblanks c (List.mem_cons_of_mem '#' (List.mem_append_right body hc)) (hafter c hc)
  rw [isComment, htrim]
  cases hread : readRule ('#' :: body) with
  | error fault => rfl
  | ok rule =>
      obtain ⟨written, hwritten, -⟩ := readRule_eq_ok.1 hread
      rw [← htrim, Text.trim_trim, htrim] at hwritten
      refine absurd ?_ (hnot written ⟨after, hgap⟩)
      rw [← hwritten, List.cons_append]

/-- The grammar and the form take the same from a line. -/
theorem lineRules_of_rulesContent {rules : List RuleText} (h : RulesContent content rules)
    (hblanks : ∀ c ∈ content, Text.isBlank c = true → Text.isGap c = true) :
    lineRules content = rules.flatMap fun rule => lineRules rule.text := by
  cases h with
  | blank => exact lineRules_of_trim_eq_nil rfl
  | rule rule trailing =>
      rw [List.flatMap_singleton]
      exact lineRules_of_trim_eq (Text.trim_append_right (isBlank_gap trailing) rule.text)
  | comment text hnot => exact lineRules_of_isComment (isComment_trim hblanks hnot)

theorem newline_not_mem_of_isLine (h : IsLine content) : '\n' ∉ content :=
  fun hmem => absurd (h _ hmem) (by decide)

/-- Without lone carriage returns the form's lines are those of the document. -/
theorem ruleLines_line (hblanks : Text.PlainBlanks (content ++ tail)) (hcontent : IsLine content)
    {count : Nat} {rest : List Char} (hafter : afterLineEnd? tail = some (count, rest)) :
    ruleLines (String.ofList (content ++ tail)) =
      lineRules content ++ ruleLines (String.ofList rest) := by
  have hline := newline_not_mem_of_isLine hcontent
  unfold afterLineEnd? at hafter
  split at hafter
  · cases hafter
    exact ruleLines_append_feed hline String.toList_ofList
  · cases hafter
    rw [← lineRules_of_trim_eq (Text.trim_append_return content)]
    apply ruleLines_append_feed
    · rw [List.mem_append, not_or]
      exact ⟨hline, by decide⟩
    · rw [String.toList_ofList, List.append_assoc]
      rfl
  · -- A lone carriage return would be an end of a line here, and no end of one for the form.
    next lone hlone =>
      cases hafter
      rcases hblanks.of_append.1 (by decide) with hgap | hfeed | ⟨-, hnext⟩
      · contradiction
      · contradiction
      · obtain ⟨rest, rfl⟩ := List.head?_eq_some_iff.1 hnext
        exact absurd rfl (hlone rest)
  · contradiction

end Line

/-! All lines. -/

theorem ruleLines_of_linesOf {text : List Char} {start : Nat} {rules : List (Placed RuleText)}
    (hblanks : Text.PlainBlanks text) (h : LinesOf RulesContent (linesFrom start text) rules) :
    ruleLines (String.ofList text) = rules.flatMap fun rule => lineRules rule.part.text := by
  -- Along the document's lines: the form's are the same, but for the returns at their ends.
  induction text using line_induction generalizing start rules with
  | hline content tail hcontent htail ih =>
      obtain ⟨gap, content, rfl, hclear⟩ := exists_gap_content content
      rw [linesFrom_append hcontent htail] at h
      obtain ⟨first, later, hfirst, hlater, rfl⟩ := linesOf_cons takesLine_rules.clear hclear h
      have hgaps := isGap_of_plainBlanks hblanks hcontent
      have hline : lineRules (gap.1 ++ content) = first.flatMap fun rule => lineRules rule.text :=
        calc lineRules (gap.1 ++ content)
          _ = lineRules content :=
            lineRules_of_trim_eq (Text.trim_append_left (isBlank_gap gap) content)
          _ = first.flatMap fun rule => lineRules rule.text :=
            lineRules_of_rulesContent hfirst fun c hc => hgaps c (List.mem_append_right _ hc)
      rw [List.flatMap_append, List.flatMap_map, ← hline]
      cases hafter : afterLineEnd? tail with
      | none =>
          obtain rfl := eq_nil_of_afterLineEnd? htail hafter
          cases hlater
          rw [List.append_nil, List.flatMap_nil, List.append_nil, ruleLines_of_not_mem,
            String.toList_ofList]
          rw [String.toList_ofList]
          exact newline_not_mem_of_isLine hcontent
      | some after =>
          obtain ⟨count, rest⟩ := after
          rw [linesAfter, hafter] at hlater
          obtain ⟨ending, htext, -⟩ := eq_append_of_afterLineEnd? hafter
          have hrest : Text.PlainBlanks rest := by
            rw [htext, ← List.append_assoc] at hblanks
            exact hblanks.of_append
          rw [ruleLines_line hblanks hcontent hafter, ih count rest hafter hrest hlater]

/-- The document's rules, put together, give the same. -/
theorem ruleLines_documentRules (rules : List (Placed RuleText)) :
    ruleLines (Text.joinLines
        (rules.map fun rule => String.ofList (Text.trim rule.part.text))) =
      rules.flatMap fun rule => lineRules rule.part.text := by
  have hlines : ∀ line ∈ rules.map fun rule => Text.trim rule.part.text, '\n' ∉ line := by
    intro line hline
    obtain ⟨rule, -, rfl⟩ := List.mem_map.1 hline
    exact fun h => rule.part.newline_not_mem_text (Text.mem_of_mem_trim h)
  have hjoined := ruleLines_joinLines hlines
  rw [List.map_map, List.flatMap_map] at hjoined
  simp only [lineRules_of_trim_eq (Text.trim_trim _)] at hjoined
  exact hjoined

/-- Of the rules that the grammar finds, those stay that are no comments for the form. -/
theorem filter_documentRules (rules : List (Placed RuleText)) :
    (rules.map fun rule => String.ofList (Text.trim rule.part.text)).filter
        (fun rule => !isComment rule.toList) =
      rules.flatMap fun rule => lineRules rule.part.text := by
  induction rules with
  | nil => rfl
  | cons rule rules ih =>
      have hne : Text.trim rule.part.text ≠ [] := by
        intro hnil
        have hcomma : ',' ∈ rule.part.text := by
          simp [RuleText.text, LeftText.text]
        exact absurd (Text.isBlank_of_trim_eq_nil hnil _ hcomma) (by decide)
      rw [List.flatMap_cons, ← ih, lineRules_of_trim_ne_nil hne, ← List.filter_append]
      rfl

end Source

namespace Definition

theorem rules_of_ofFields {fields : Fields} {definition : Definition}
    (h : ofFields fields = .ok definition) : definition.rules = ruleLines fields.rules := by
  rw [ofFields] at h
  split at h
  · cases h
  · dsimp only at h
    split at h
    · cases h
    · simp only [bind_eq_ok, pure_eq_ok] at h
      obtain ⟨blank, -, rfl⟩ := h
      rfl

theorem rules_named (definition : Definition) (name : Option String) :
    (definition.named name).rules = definition.rules := by
  rw [named]
  split
  · rfl
  · split <;> rfl

/-- The fields that a form has with the values of the headers and a text of rules. -/
def formFields (headers : Headers) (rules : String) : Fields :=
  ⟨headers.value .input, headers.value .initial, headers.value .finals, headers.value .blank, rules⟩

theorem ofFields_of_ruleLines_eq {rules other : String} (h : ruleLines rules = ruleLines other)
    (headers : Headers) :
    ofFields (formFields headers rules) = ofFields (formFields headers other) := by
  rw [ofFields, ofFields, formFields, formFields, h]

theorem ofHeaders_eq_map (headers : Headers) (rules : List String) :
    ofHeaders headers rules =
      (ofFields (formFields headers (Text.joinLines rules))).map
        (·.named (headers.value? .name)) := by
  rw [ofHeaders, ← formFields]
  cases ofFields (formFields headers (Text.joinLines rules)) <;> rfl

/-- A rule beside the keyword, a remark, a rule of a state with the comment sign, and a line that
has the shape of a rule but cannot be read. -/
def mixedText : String :=
  "name: t\r\ninitial: q\nfinals: f\nrules: q,a -> f,b,R\r\n\n # remark\n\t#,a -> f,b,R\n#,ab -> f,b,R\n"

/-- The line that cannot be read is a comment to both. -/
example : (ofText mixedText).toOption.map (·.rules) = some ["q,a -> f,b,R", "#,a -> f,b,R"] := by
  rfl

end Definition

end TapeMachine
