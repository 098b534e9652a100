import TapeMachine.Definition.Document
import TapeMachine.Proofs.Source.Layout

/-!
Documents and their headers. A text has a layout exactly when it is read as a document, and the
document has the layout's headers and rules. Of the headers the first that cannot be taken in is
refused, and otherwise every field has the value that its header gives.
-/

namespace TapeMachine

open Source Grammar Pattern

/-! The pattern for documents. -/

theorem find?_definition_body (cursor : Cursor) :
    (sequence start [many headerLine, rulesKeyword, rulesLine, many (seq lineEnd rulesLine),
      endOfText]).find? .top cursor = (seq start documentBody).find? .top cursor := by
  change (seq (seq (seq (seq (seq start (many headerLine)) rulesKeyword) rulesLine)
    (many (seq lineEnd rulesLine))) endOfText).find? .top cursor = _
  rw [find?_seq_assoc, find?_seq_assoc, ← rulesSection, find?_seq_assoc, find?_seq_assoc,
    ← documentBody]

theorem find?_definition (text : List Char) :
    Source.definition.find? .top (.ofText text) =
      (documentBody.find? .top (Cursor.skipGap ⟨text, 0⟩)).map fun found =>
        ⟨found.cursor, [.mk .definition 0 (text.take found.cursor.offset) found.nodes]⟩ := by
  have hstart := find?_seq_of_some (find?_start text) documentBody
  rw [Context.skipGap_top] at hstart
  rw [Source.definition, find?_named_top, find?_definition_body, Cursor.ofText, hstart,
    Option.map_map]
  rfl

namespace Document

variable {text : List Char} {headers : List (Placed HeaderText)} {rules : List (Placed RuleText)}

theorem filter_headerNodes (headers : List (Placed HeaderText)) :
    (headerNodes headers).filter (·.name = .header) = headerNodes headers ∧
      (headerNodes headers).filter (·.name = .rule) = [] := by
  constructor
  · rw [List.filter_eq_self]
    intro node hnode
    obtain ⟨header, -, rfl⟩ := List.mem_map.1 hnode
    rfl
  · rw [List.filter_eq_nil_iff]
    intro node hnode
    obtain ⟨header, -, rfl⟩ := List.mem_map.1 hnode
    simp [HeaderText.node, Node.name]

theorem filter_ruleNodes (rules : List (Placed RuleText)) :
    (ruleNodes rules).filter (·.name = .header) = [] ∧
      (ruleNodes rules).filter (·.name = .rule) = ruleNodes rules := by
  constructor
  · rw [List.filter_eq_nil_iff]
    intro node hnode
    obtain ⟨rule, -, rfl⟩ := List.mem_map.1 hnode
    simp [RuleText.ruleNode, Node.name]
  · rw [List.filter_eq_self]
    intro node hnode
    obtain ⟨rule, -, rfl⟩ := List.mem_map.1 hnode
    rfl

/-- The headers and the rules are all of a document that counts. -/
theorem ofNodes_of_reports {found : Found Term} (h : Reports headers rules found) (start : Nat)
    (text : List Char) :
    ofNodes [.mk .definition start text found.nodes] =
      ⟨headerNodes headers, rules.map fun rule => String.ofList (Text.trim rule.part.text)⟩ := by
  obtain ⟨-, offset, gap, stop, hnodes⟩ := h
  have hheaders : found.nodes.filter (·.name = .header) = headerNodes headers := by
    have hlast : [Node.mk Term.endOfText stop [] []].filter (·.name = .header) = [] := rfl
    rw [hnodes, List.filter_append, List.filter_cons_of_neg (by simp [Node.name]), List.filter_append,
      (filter_headerNodes headers).1, (filter_ruleNodes rules).1, hlast, List.append_nil,
      List.append_nil]
  have hrules : found.nodes.filter (·.name = .rule) = ruleNodes rules := by
    have hlast : [Node.mk Term.endOfText stop [] []].filter (·.name = .rule) = [] := rfl
    rw [hnodes, List.filter_append, List.filter_cons_of_neg (by simp [Node.name]), List.filter_append,
      (filter_headerNodes headers).2, (filter_ruleNodes rules).2, hlast, List.append_nil,
      List.nil_append]
  rw [ofNodes, List.flatMap_singleton, Node.parts, hheaders, hrules, ruleNodes, List.map_map]
  rfl

theorem ofCharacters_of_layout (h : Layout (linesFrom 0 text) headers rules) :
    ofCharacters text = .ok ⟨headerNodes headers,
      rules.map fun rule => String.ofList (Text.trim rule.part.text)⟩ := by
  obtain ⟨found, hfound, hreports, -⟩ := (find?_documentBody text 0).1 headers rules h
  have hdefinition := find?_definition text
  rw [hfound, Option.map_some] at hdefinition
  rw [ofCharacters, matchText_of_find? hdefinition]
  exact congrArg Except.ok (ofNodes_of_reports hreports ..)

theorem ofCharacters_of_no_layout
    (h : ¬ ∃ headers rules, Layout (linesFrom 0 text) headers rules) :
    ∃ error, ofCharacters text = .error error := by
  have hdefinition := find?_definition text
  rw [(find?_documentBody text 0).2 h, Option.map_none] at hdefinition
  obtain ⟨attempts, herror, -⟩ := matchText_of_find?_none hdefinition
  exact ⟨_, by rw [ofCharacters, herror]; rfl⟩

end Document

end TapeMachine
