import TapeMachine.Proofs.Definition.RulesPart

/-!
Definitions in normal form. What a form or a document gives is divided and trimmed already. Each
part of it that is written back as the text of its field is read as it was.
-/

namespace TapeMachine

open Source

namespace Text

theorem trimmed_eq_self_iff {text : String} : trimmed text = text ↔ trim text.toList = text.toList := by
  rw [trimmed, ← String.toList_inj, String.toList_ofList]

theorem trimmed_ofList_trim (text : List Char) :
    trimmed (String.ofList (trim text)) = String.ofList (trim text) := by
  rw [trimmed_eq_self_iff, String.toList_ofList, trim_trim]

/-- Puts commas between the given names. -/
def joinNames (names : List String) : String :=
  String.intercalate "," names

end Text

/-! What is read from the text of a field. -/

/-- A name that a list of names can hold. -/
structure IsListedName (name : String) : Prop where
  ne_empty : name ≠ ""
  trimmed : Text.trimmed name = name
  comma_not_mem : ',' ∉ name.toList

/-- A line that a form takes for a rule. -/
structure IsRuleLine (line : String) : Prop where
  ne_empty : line ≠ ""
  trimmed : Text.trimmed line = line
  feed_not_mem : '\n' ∉ line.toList
  notComment : isComment line.toList = false

theorem ofList_ne_empty {text : List Char} (h : text.isEmpty = false) : String.ofList text ≠ "" := by
  rw [Ne, String.ofList_eq_empty_iff]
  exact List.isEmpty_eq_false_iff.1 h

theorem isListedName_of_mem_stateNames {text name : String} (h : name ∈ stateNames text) :
    IsListedName name := by
  obtain ⟨item, hitem, rfl⟩ := List.mem_map.1 h
  obtain ⟨hpiece, hne⟩ := List.mem_filter.1 hitem
  obtain ⟨piece, hmem, rfl⟩ := List.mem_map.1 hpiece
  refine ⟨ofList_ne_empty (Bool.not_eq_true' _ ▸ hne), Text.trimmed_ofList_trim piece, ?_⟩
  rw [String.toList_ofList]
  exact fun hcomma => Text.not_mem_of_mem_splitOn hmem (Text.mem_of_mem_trim hcomma)

/-- A line that begins with the comment sign is kept only as a rule. -/
theorem isComment_eq_false_iff {line : List Char} :
    isComment line = false ↔ (line.head? = some '#' → ∃ rule, readRule line = .ok rule) := by
  rw [isComment, Bool.and_eq_false_imp, decide_eq_true_eq, Bool.not_eq_false', toBool_eq_true]

theorem isRuleLine_of_mem_ruleLines {text line : String} (h : line ∈ ruleLines text) :
    IsRuleLine line := by
  obtain ⟨trimmed, htrimmed, rfl⟩ := List.mem_map.1 h
  obtain ⟨hmem, hkept⟩ := List.mem_filter.1 htrimmed
  obtain ⟨raw, hraw, rfl⟩ := List.mem_map.1 hmem
  rw [Bool.and_eq_true, Bool.not_eq_true', Bool.not_eq_true'] at hkept
  refine ⟨ofList_ne_empty hkept.1, Text.trimmed_ofList_trim raw, ?_, ?_⟩
  · rw [String.toList_ofList]
    exact fun hfeed => Text.feed_not_mem_of_mem_lines hraw (Text.mem_of_mem_trim hfeed)
  · rw [String.toList_ofList]
    exact hkept.2

/-- Of a text without rule lines every line is empty, once trimmed, or a comment. -/
theorem ruleLines_eq_nil_iff {text : String} :
    ruleLines text = [] ↔ ∀ line ∈ Text.lines text.toList,
      Text.trim line = [] ∨ isComment (Text.trim line) = true := by
  rw [ruleLines, List.map_eq_nil_iff, List.filter_eq_nil_iff, List.forall_mem_map]
  simp only [Bool.and_eq_true, Bool.not_eq_true', not_and, Bool.not_eq_false, ← or_iff_not_imp_left,
    List.isEmpty_eq_false_iff]

theorem isBlank_of_readBlank {text : String} {symbol : Char} (h : readBlank text = .ok (some symbol)) :
    Text.isBlank symbol = false := by
  rw [readBlank] at h
  split at h
  · cases h
  · next htrim =>
      cases h
      apply (Text.isTrimmed_trim text.toList).first
      rw [htrim]
      rfl
  · cases h

/-- A blank symbol may have blanks around it. -/
theorem exists_readBlank_eq_ok_iff {text : String} :
    (∃ blank, readBlank text = .ok blank) ↔ (Text.trim text.toList).length ≤ 1 := by
  rw [readBlank]
  rcases Text.trim text.toList with _ | ⟨symbol, _ | ⟨second, rest⟩⟩
  · simp
  · simp
  · simp

theorem exists_readBlank_eq_error_iff {text : String} :
    (∃ invalid, readBlank text = .error invalid) ↔ 2 ≤ (Text.trim text.toList).length := by
  rw [readBlank]
  rcases Text.trim text.toList with _ | ⟨symbol, _ | ⟨second, rest⟩⟩
  · simp
  · simp
  · simp

/-! What was read is read again from what is written back. -/

theorem IsListedName.trim_toList {name : String} (h : IsListedName name) :
    Text.trim name.toList = name.toList :=
  Text.trimmed_eq_self_iff.1 h.trimmed

theorem stateNames_joinNames {names : List String} (h : ∀ name ∈ names, IsListedName name) :
    stateNames (Text.joinNames names) = names := by
  by_cases hnil : names = []
  · rw [hnil]
    rfl
  · have hpieces : (Text.joinNames names).toList.splitOn ',' = names.map String.toList := by
      have hcommas : ∀ name ∈ names.map String.toList, ',' ∉ name := by
        intro text htext
        obtain ⟨name, hname, rfl⟩ := List.mem_map.1 htext
        exact (h name hname).comma_not_mem
      rw [Text.joinNames, String.toList_intercalate]
      exact List.splitOn_intercalate ',' hcommas (mt List.map_eq_nil_iff.1 hnil)
    have htrim : (names.map String.toList).map Text.trim = names.map String.toList := by
      rw [List.map_map]
      exact List.map_congr_left fun name hname => (h name hname).trim_toList
    have hkept : (names.map String.toList).filter (!·.isEmpty) = names.map String.toList := by
      rw [List.filter_eq_self]
      intro text htext
      obtain ⟨name, hname, rfl⟩ := List.mem_map.1 htext
      rw [Bool.not_eq_true', List.isEmpty_eq_false_iff]
      exact mt String.toList_eq_nil_iff.1 (h name hname).ne_empty
    rw [stateNames, Text.items, hpieces, htrim, hkept, List.map_map]
    exact List.map_id'' (fun _ => String.ofList_toList) names

theorem IsRuleLine.lineRules {line : String} (h : IsRuleLine line) :
    lineRules line.toList = [line] := by
  have htrim := Text.trimmed_eq_self_iff.1 h.trimmed
  have hne : Text.trim line.toList ≠ [] := by
    rw [htrim]
    exact mt String.toList_eq_nil_iff.1 h.ne_empty
  rw [lineRules_of_trim_ne_nil hne, htrim, String.ofList_toList]
  exact List.filter_eq_self.2 (List.forall_mem_singleton.2 (by rw [h.notComment]; rfl))

theorem ruleLines_joinLines_of_isRuleLine {lines : List String}
    (h : ∀ line ∈ lines, IsRuleLine line) : ruleLines (Text.joinLines lines) = lines := by
  have hfeeds : ∀ line ∈ lines.map String.toList, '\n' ∉ line := by
    intro text htext
    obtain ⟨line, hline, rfl⟩ := List.mem_map.1 htext
    exact (h line hline).feed_not_mem
  have hsame : (lines.map String.toList).map String.ofList = lines := by
    rw [List.map_map]
    exact List.map_id'' (fun _ => String.ofList_toList) lines
  have hjoined := ruleLines_joinLines hfeeds
  rw [hsame] at hjoined
  rw [hjoined, List.flatMap_map]
  calc lines.flatMap (fun line => lineRules line.toList)
    _ = lines.flatMap fun line => [line] :=
      List.flatMap_congr fun line hline => (h line hline).lineRules
    _ = lines := List.flatMap_singleton' lines

/-- A blank symbol as the text of its field. -/
def blankText (blank : Option Char) : String :=
  blank.elim "" Char.toString

theorem readBlank_blankText {blank : Option Char} (h : ∀ symbol ∈ blank, Text.isBlank symbol = false) :
    readBlank (blankText blank) = .ok blank := by
  cases blank with
  | none => rfl
  | some symbol =>
      have htrim : Text.trim [symbol] = [symbol] := by
        simp [Text.trim_eq, List.rdropWhile, h symbol rfl]
      rw [readBlank, blankText, Option.elim_some, Char.toString, String.toList_singleton, htrim]

/-! Definitions. -/

namespace Definition

/-- The parts are such as are read from the text of fields. -/
structure IsNormal (definition : Definition) : Prop where
  initial_ne : definition.initial ≠ ""
  initial_trimmed : Text.trimmed definition.initial = definition.initial
  finals : ∀ name ∈ definition.finals, IsListedName name
  blank : ∀ symbol ∈ definition.blank, Text.isBlank symbol = false
  rules_ne : definition.rules ≠ []
  rules : ∀ line ∈ definition.rules, IsRuleLine line

/-- Two fields must not come out empty. The blank is looked at last. -/
theorem ofFields_eq_ite (fields : Fields) :
    ofFields fields =
      if Text.trimmed fields.initial = "" then .error .initialStateMissing
      else if ruleLines fields.rules = [] then .error .rulesMissing
      else (readBlank fields.blank).map fun blank =>
        ⟨none, fields.input, Text.trimmed fields.initial, stateNames fields.finals, blank,
          ruleLines fields.rules⟩ := by
  simp only [ofFields, String.isEmpty_iff, List.isEmpty_iff]
  split
  · rfl
  · split
    · rfl
    · cases readBlank fields.blank <;> rfl

theorem ofFields_eq_ok_iff {fields : Fields} {definition : Definition} :
    ofFields fields = .ok definition ↔
      Text.trimmed fields.initial ≠ "" ∧ ruleLines fields.rules ≠ [] ∧
        ∃ blank, readBlank fields.blank = .ok blank ∧
          ⟨none, fields.input, Text.trimmed fields.initial, stateNames fields.finals, blank,
            ruleLines fields.rules⟩ = definition := by
  rw [ofFields_eq_ite]
  split
  · next hinitial => exact iff_of_false nofun fun h => h.1 hinitial
  · next hinitial =>
      split
      · next hrules => exact iff_of_false nofun fun h => h.2.1 hrules
      · next hrules =>
          rw [map_eq_ok]
          exact ⟨fun h => ⟨hinitial, hrules, h⟩, fun h => h.2.2⟩

theorem isNormal_of_ofFields {fields : Fields} {definition : Definition}
    (h : ofFields fields = .ok definition) : definition.IsNormal := by
  obtain ⟨hinitial, hrules, blank, hblank, rfl⟩ := ofFields_eq_ok_iff.1 h
  refine ⟨hinitial, Text.trimmed_ofList_trim _, fun name => isListedName_of_mem_stateNames, ?_,
    hrules, fun line => isRuleLine_of_mem_ruleLines⟩
  rintro symbol rfl
  exact isBlank_of_readBlank hblank

/-- There is no other reason to refuse fields. -/
theorem exists_ofFields_eq_error_iff {fields : Fields} :
    (∃ invalid, ofFields fields = .error invalid) ↔
      Text.trimmed fields.initial = "" ∨
      (∀ line ∈ Text.lines fields.rules.toList,
        Text.trim line = [] ∨ isComment (Text.trim line) = true) ∨
      2 ≤ (Text.trim fields.blank.toList).length := by
  rw [← ruleLines_eq_nil_iff, ofFields_eq_ite]
  by_cases hinitial : Text.trimmed fields.initial = ""
  · rw [if_pos hinitial]
    exact iff_of_true ⟨_, rfl⟩ (.inl hinitial)
  · rw [if_neg hinitial]
    by_cases hrules : ruleLines fields.rules = []
    · rw [if_pos hrules]
      exact iff_of_true ⟨_, rfl⟩ (.inr (.inl hrules))
    · rw [if_neg hrules]
      simp only [map_eq_error, exists_readBlank_eq_error_iff, hinitial, hrules, false_or]

/-- The fields that a definition is written back to. Its name has none. -/
def written (definition : Definition) : Fields :=
  ⟨definition.input, definition.initial, Text.joinNames definition.finals,
    blankText definition.blank, Text.joinLines definition.rules⟩

theorem ofFields_written {definition : Definition} (h : definition.IsNormal) :
    ofFields definition.written = .ok { definition with name := none } := by
  have hinitial := h.initial_trimmed
  have hfinals := stateNames_joinNames h.finals
  have hblank := readBlank_blankText h.blank
  have hrules := ruleLines_joinLines_of_isRuleLine h.rules
  rw [ofFields_eq_ok_iff, written, hinitial, hfinals, hrules]
  exact ⟨h.initial_ne, h.rules_ne, definition.blank, hblank, rfl⟩

/-- The name has no part in it. -/
theorem IsNormal.setName {definition : Definition} (h : definition.IsNormal)
    (name : Option String) : IsNormal { definition with name := name } :=
  ⟨h.initial_ne, h.initial_trimmed, h.finals, h.blank, h.rules_ne, h.rules⟩

theorem IsNormal.named {definition : Definition} (h : definition.IsNormal) (name : Option String) :
    (definition.named name).IsNormal := by
  rw [Definition.named]
  split
  · exact h
  · split
    · exact h
    · exact h.setName _

/-- A document gives what its fields do, and the name of a header. -/
theorem exists_of_ofText {text : String} {definition : Definition}
    (h : ofText text = .ok definition) :
    ∃ document headers formed, Document.ofCharacters text.toList = .ok document ∧
      ofFields (formFields headers (Text.joinLines document.rules)) = .ok formed ∧
      formed.named (headers.value? .name) = definition := by
  cases hread : Document.ofCharacters text.toList with
  | error error =>
      rw [ofText, ofCharacters_of_error hread] at h
      cases h
  | ok document =>
      rw [ofText, ofCharacters_of_ok hread, bind_eq_ok] at h
      obtain ⟨headers, -, hfields⟩ := h
      rw [ofHeaders_eq_map, mapError_map_eq_ok] at hfields
      obtain ⟨formed, hformed, hnamed⟩ := hfields
      exact ⟨document, headers, formed, rfl, hformed, hnamed⟩

theorem isNormal_of_ofText {text : String} {definition : Definition}
    (h : ofText text = .ok definition) : definition.IsNormal := by
  obtain ⟨document, headers, formed, -, hformed, rfl⟩ := exists_of_ofText h
  exact (isNormal_of_ofFields hformed).named _

/-- Reading fields normalises them: what comes out, written back as fields and read again, comes out
as it is. It has an initial state and a rule line at least, and all its parts are trimmed and not
empty: its final states without commas, its blank symbol no blank character, and its rule lines
without line feeds and, where they begin with the comment sign, rules. Fields are refused exactly
when no initial state or no rule line is left of them, or more than one character of the blank. -/
theorem ofFields_normalises (fields : Fields) :
    (∀ definition, ofFields fields = .ok definition →
      ofFields definition.written = .ok definition ∧ definition.IsNormal ∧
      ∀ line ∈ definition.rules, line.toList.head? = some '#' →
        ∃ rule, readRule line.toList = .ok rule) ∧
    ((∃ invalid, ofFields fields = .error invalid) ↔
      Text.trimmed fields.initial = "" ∨
      (∀ line ∈ Text.lines fields.rules.toList,
        Text.trim line = [] ∨ isComment (Text.trim line) = true) ∨
      2 ≤ (Text.trim fields.blank.toList).length) := by
  refine ⟨fun definition h => ?_, exists_ofFields_eq_error_iff⟩
  have hnormal := isNormal_of_ofFields h
  refine ⟨?_, hnormal, fun line hline => ?_⟩
  · obtain ⟨-, -, blank, -, rfl⟩ := ofFields_eq_ok_iff.1 h
    exact ofFields_written hnormal
  · exact isComment_eq_false_iff.1 (hnormal.rules line hline).notComment

end Definition

end TapeMachine
