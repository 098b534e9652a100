import TapeMachine.Proofs.Definition.KeptRules

/-!
Definition documents in the usual form: a remark, headers, and then the rules, one on each line and
two spaces in. What is written so is read as it was meant: the document gives what its headers and
rules say, and the table of its rule lines is that of the rules.
-/

namespace TapeMachine

open Source

/-! Words that need no care. -/

/-- The word holds only characters that the key of a header may have. -/
structure IsPlainWord (word : List Char) : Prop where
  ne_nil : word ≠ []
  key : ∀ c ∈ word, isKeyCharacter c = true

instance (word : List Char) : Decidable (IsPlainWord word) :=
  decidable_of_iff (word ≠ [] ∧ word.all isKeyCharacter = true)
    ⟨fun h => ⟨h.1, List.all_eq_true.1 h.2⟩, fun h => ⟨h.ne_nil, List.all_eq_true.2 h.key⟩⟩

theorem isBlank_of_isKeyCharacter {c : Char} (h : isKeyCharacter c = true) :
    Text.isBlank c = false := by
  have hval : ((((65 ≤ c.toNat ∧ c.toNat ≤ 90) ∨ (97 ≤ c.toNat ∧ c.toNat ≤ 122)) ∨
      (48 ≤ c.toNat ∧ c.toNat ≤ 57)) ∨ c = '_') ∨ c = '-' := by
    change ((((decide (65 ≤ c.val ∧ c.val ≤ 90) ||
      (decide (97 ≤ c.val) && decide (c.val ≤ 122))) ||
      (decide (48 ≤ c.val) && decide (c.val ≤ 57))) || c == '_') || c == '-') = true at h
    simp only [Bool.or_eq_true, Bool.and_eq_true, decide_eq_true_eq, beq_iff_eq,
      UInt32.le_iff_toNat_le] at h
    exact h
  rcases hval with (hplain | rfl) | rfl
  · simp only [Text.isBlank, Bool.or_eq_false_iff, Bool.and_eq_false_iff, decide_eq_false_iff_not,
      beq_eq_false_iff_ne]
    omega
  · rfl
  · rfl

namespace IsPlainWord

variable {word : List Char}

theorem isWord (h : IsPlainWord word) : IsWord word := by
  refine ⟨h.ne_nil, fun c hc hseparator => ?_, fun harrow => ?_⟩
  · have hkey := h.key c hc
    simp only [separators, List.mem_cons, List.not_mem_nil, or_false] at hseparator
    rcases hseparator with rfl | rfl | rfl | rfl | rfl | rfl <;> contradiction
  · have hkey := h.key '>' (harrow.subset (by decide))
    contradiction

theorem isTrimmed (h : IsPlainWord word) : Text.IsTrimmed word where
  first c hc := isBlank_of_isKeyCharacter (h.key c (List.mem_of_mem_head? hc))
  last c hc := isBlank_of_isKeyCharacter (h.key c (List.mem_of_mem_getLast? hc))

theorem singleton {c : Char} (h : isKeyCharacter c = true) : IsPlainWord [c] :=
  ⟨List.cons_ne_nil c [], List.forall_mem_singleton.2 h⟩

end IsPlainWord

/-! Rules as lines. -/

def spaces (count : Nat) : Gap :=
  ⟨List.replicate count ' ', fun c hc => by rw [List.eq_of_mem_replicate hc]; rfl⟩

def directionWord : Direction → List Char
  | .left => ['L']
  | .right => ['R']

theorem isPlainWord_directionWord (direction : Direction) : IsPlainWord (directionWord direction) := by
  cases direction <;> decide

namespace Rule

variable {rule : Rule}

structure IsPlain (rule : Rule) : Prop where
  state : IsPlainWord rule.situation.state.toList
  symbol : isKeyCharacter rule.situation.symbol = true
  next : IsPlainWord rule.action.next.toList
  write : isKeyCharacter rule.action.write = true

instance (rule : Rule) : Decidable rule.IsPlain :=
  decidable_of_iff (IsPlainWord rule.situation.state.toList ∧
      isKeyCharacter rule.situation.symbol = true ∧ IsPlainWord rule.action.next.toList ∧
      isKeyCharacter rule.action.write = true)
    ⟨fun h => ⟨h.1, h.2.1, h.2.2.1, h.2.2.2⟩, fun h => ⟨h.1, h.2, h.3, h.4⟩⟩

/-- The rule on a line, without the spaces before it. -/
def characters (rule : Rule) : List Char :=
  (rule.situation.state.toList ++ [',', rule.situation.symbol]) ++
    ' ' :: '→' :: ' ' :: (rule.action.next.toList ++
      ',' :: rule.action.write :: ',' :: directionWord rule.action.direction)

def line (rule : Rule) : String :=
  String.ofList rule.characters

/-- The words of the rule and the gaps between them. -/
def written (h : rule.IsPlain) : RuleText where
  left := ⟨⟨_, h.state.isWord⟩, spaces 0, spaces 0, ⟨_, (IsPlainWord.singleton h.symbol).isWord⟩⟩
  beforeArrow := spaces 1
  arrow := ⟨['→'], .inl rfl⟩
  afterArrow := spaces 1
  right := ⟨⟨_, h.next.isWord⟩, spaces 0, spaces 0, ⟨_, (IsPlainWord.singleton h.write).isWord⟩,
    spaces 0, spaces 0, ⟨_, (isPlainWord_directionWord rule.action.direction).isWord⟩⟩

theorem text_written (h : rule.IsPlain) : (written h).text = rule.characters :=
  rfl

theorem denotes_written (h : rule.IsPlain) : (written h).Denotes rule where
  state := String.ofList_toList
  symbol := rfl
  next := String.ofList_toList
  write := rfl
  direction := by
    cases hdirection : rule.action.direction <;> simp [written, directionWord, directionWords, hdirection]

theorem isTrimmed_characters (h : rule.IsPlain) : Text.IsTrimmed rule.characters where
  first c hc := by
    apply h.state.isTrimmed.first
    rw [characters, List.append_assoc, List.head?_append_of_ne_nil _ h.state.ne_nil] at hc
    exact hc
  last c hc := by
    have hlast : rule.characters.getLast? = (directionWord rule.action.direction).getLast? := by
      cases hdirection : rule.action.direction <;>
        simp [characters, directionWord, hdirection, List.getLast?_append, List.getLast?_cons]
    rw [hlast] at hc
    exact (isPlainWord_directionWord rule.action.direction).isTrimmed.last c hc

theorem trim_characters (h : rule.IsPlain) : Text.trim rule.characters = rule.characters :=
  (isTrimmed_characters h).trim_eq_self

/-- A rule is read from its line. -/
theorem readRule_line (h : rule.IsPlain) : readRule rule.line.toList = .ok rule := by
  refine readRule_eq_ok.2 ⟨written h, ?_, denotes_written h⟩
  rw [line, String.toList_ofList, trim_characters h, text_written]

theorem isRuleLine_line (h : rule.IsPlain) : IsRuleLine rule.line where
  ne_empty := by
    rw [line, Ne, String.ofList_eq_empty_iff]
    exact List.append_ne_nil_of_right_ne_nil _ nofun
  trimmed := by
    rw [Text.trimmed_eq_self_iff, line, String.toList_ofList, trim_characters h]
  feed_not_mem := by
    rw [line, String.toList_ofList, ← text_written h]
    exact (written h).newline_not_mem_text
  notComment := isComment_of_readRule (readRule_line h)

end Rule

theorem Source.readTable_line {rules : List Rule} (h : ∀ rule ∈ rules, rule.IsPlain) :
    (readTable (rules.map Rule.line)).table = .ok (Table.ofRules rules) := by
  have hread : ReadAs (rules.map Rule.line) rules := by
    rw [ReadAs, List.map_map]
    exact List.map_congr_left fun rule hrule => Rule.readRule_line (h rule hrule)
  rw [readTable_of_readAs hread]

/-! Headers as lines. -/

/-- The key that a header for the field has. -/
def Slot.key : Slot → String
  | name => "name"
  | input => "input"
  | initial => "initial"
  | finals => "final"
  | blank => "blank"

theorem Slot.ofKey_key (slot : Slot) : ofKey slot.key = some slot := by
  cases slot <;> rfl

theorem isPlainWord_key (slot : Slot) : IsPlainWord slot.key.toList := by
  cases slot <;> decide

/-- A value is on one line and does not begin with a space or a tab. -/
structure IsHeaderValue (value : String) : Prop where
  line : IsLine value.toList
  clear : startsClear value.toList = true

instance (value : String) : Decidable (IsHeaderValue value) :=
  decidable_of_iff (IsLine value.toList ∧ startsClear value.toList = true)
    ⟨fun h => ⟨h.1, h.2⟩, fun h => ⟨h.1, h.2⟩⟩

/-- The gap before a value. There is none before an empty one. -/
def valueGap (value : String) : Gap :=
  spaces (if value = "" then 0 else 1)

/-- The header on its line. -/
def headerCharacters (header : Slot × String) : List Char :=
  header.1.key.toList ++ ':' :: ((valueGap header.2).1 ++ header.2.toList)

def writtenHeader (header : Slot × String) (h : IsHeaderValue header.2) : HeaderText where
  key := ⟨header.1.key.toList, (isPlainWord_key header.1).ne_nil, (isPlainWord_key header.1).key⟩
  beforeColon := spaces 0
  afterColon := valueGap header.2
  value := ⟨header.2.toList, h.clear⟩

section Header

variable {header : Slot × String} (h : IsHeaderValue header.2)

theorem keyName_writtenHeader : (writtenHeader header h).keyName = header.1.key :=
  String.ofList_toList

theorem valueText_writtenHeader : (writtenHeader header h).valueText = header.2 :=
  String.ofList_toList

theorem not_beginsRules_writtenHeader : ¬ BeginsRules (writtenHeader header h).text := by
  rintro ⟨gap, rest, htext⟩
  have hkey : header.1.key.toList.head? = some 'r' := by
    have hne : header.1.key.toList ≠ [] := (writtenHeader header h).key.2.1
    rw [← List.head?_append_of_ne_nil _ hne]
    exact congrArg List.head? htext
  have hother : ∀ slot : Slot, slot.key.toList.head? ≠ some 'r' := by
    intro slot
    cases slot <;> decide
  exact hother _ hkey

include h in
theorem isLine_headerCharacters : IsLine (headerCharacters header) := by
  simp only [headerCharacters, isLine_append, isLine_cons]
  exact ⟨isLine_key (writtenHeader header h).key, rfl, isLine_gap _, h.line⟩

end Header

/-! Documents. -/

/-- What a document of the usual form says, and the remark on its first line. -/
structure Sheet where
  remark : String
  headers : Headers
  rules : List Rule

namespace Sheet

variable {sheet : Sheet}

structure IsPlain (sheet : Sheet) : Prop where
  remark : IsLine sheet.remark.toList
  slots : (sheet.headers.map Prod.fst).Nodup
  headers : ∀ header ∈ sheet.headers, IsHeaderValue header.2
  rules : ∀ rule ∈ sheet.rules, rule.IsPlain

instance (sheet : Sheet) : Decidable sheet.IsPlain :=
  decidable_of_iff (IsLine sheet.remark.toList ∧ (sheet.headers.map Prod.fst).Nodup ∧
      (∀ header ∈ sheet.headers, IsHeaderValue header.2) ∧ ∀ rule ∈ sheet.rules, rule.IsPlain)
    ⟨fun h => ⟨h.1, h.2.1, h.2.2.1, h.2.2.2⟩, fun h => ⟨h.1, h.2, h.3, h.4⟩⟩

def linesOfHeaders (headers : Headers) : List Char :=
  headers.flatMap fun header => headerCharacters header ++ ['\n']

def linesOfRules (rules : List Rule) : List Char :=
  rules.flatMap fun rule => (spaces 2).1 ++ rule.characters ++ ['\n']

def characters (sheet : Sheet) : List Char :=
  '#' :: sheet.remark.toList ++ '\n' :: (linesOfHeaders sheet.headers ++
    (rulesText (spaces 0) ++ '\n' :: linesOfRules sheet.rules))

def text (sheet : Sheet) : String :=
  String.ofList sheet.characters

theorem linesFrom_feed {content : List Char} (h : IsLine content) (start : Nat) (rest : List Char) :
    linesFrom start (content ++ '\n' :: rest) =
      ⟨start, content⟩ :: linesFrom (start + content.length + 1) rest :=
  linesFrom_append h rfl start

theorem exists_linesOf {rules : List Rule} (h : ∀ rule ∈ rules, rule.IsPlain) (start : Nat) :
    ∃ placed, LinesOf RulesContent (linesFrom start (linesOfRules rules)) placed ∧
      placed.map (·.part.text) = rules.map Rule.characters := by
  induction rules generalizing start with
  | nil => exact ⟨_, .cons (spaces 0) rfl .blank .nil, rfl⟩
  | cons rule rules ih =>
      obtain ⟨hrule, hrules⟩ := List.forall_mem_cons.1 h
      have hline : IsLine ((spaces 2).1 ++ rule.characters) := by
        rw [isLine_append, ← Rule.text_written hrule]
        exact ⟨isLine_gap _, RuleText.isLine_text _⟩
      obtain ⟨placed, hplaced, htexts⟩ :=
        ih hrules (start + ((spaces 2).1 ++ rule.characters).length + 1)
      have hcontent : RulesContent rule.characters [Rule.written hrule] := by
        have hwritten := RulesContent.rule (Rule.written hrule) (spaces 0)
        rwa [Rule.text_written, show (spaces 0).1 = [] from rfl, List.append_nil] at hwritten
      rw [linesOfRules, List.flatMap_cons, List.append_assoc, List.singleton_append,
        linesFrom_feed hline, ← linesOfRules]
      refine ⟨_, .cons (spaces 2) rfl hcontent hplaced, ?_⟩
      rw [List.map_append, htexts, List.map_cons]
      rfl

/-- The key and the value of a header. -/
def entry (header : Placed HeaderText) : String × String :=
  (header.part.keyName, header.part.valueText)

theorem exists_layout_headers {headers : Headers} (h : ∀ header ∈ headers, IsHeaderValue header.2)
    {rules : List Rule} (hrules : ∀ rule ∈ rules, rule.IsPlain) (start : Nat) :
    ∃ placedHeaders placedRules,
      Layout (linesFrom start (linesOfHeaders headers ++
        (rulesText (spaces 0) ++ '\n' :: linesOfRules rules))) placedHeaders placedRules ∧
      placedHeaders.map entry = headers.map (fun header => (header.1.key, header.2)) ∧
      placedRules.map (·.part.text) = rules.map Rule.characters := by
  induction headers generalizing start with
  | nil =>
      obtain ⟨placed, hplaced, htexts⟩ :=
        exists_linesOf hrules (start + (rulesText (spaces 0)).length + 1)
      have hlayout : Layout (⟨start, _⟩ :: _) _ _ :=
        .keyword (spaces 0) (spaces 0) (LinesOf.cons (spaces 0) rfl RulesContent.blank hplaced)
      rw [List.append_nil] at hlayout
      rw [linesOfHeaders, List.flatMap_nil, List.nil_append, linesFrom_feed (isLine_rulesText _)]
      exact ⟨_, _, hlayout, rfl, htexts⟩
  | cons header headers ih =>
      obtain ⟨hheader, hheaders⟩ := List.forall_mem_cons.1 h
      obtain ⟨placedHeaders, placedRules, hlayout, hentries, htexts⟩ :=
        ih hheaders (start + (headerCharacters header).length + 1)
      have hcontent : HeadContent _ _ :=
        .header (writtenHeader header hheader) (not_beginsRules_writtenHeader hheader)
      have hfirst : Layout (⟨start, _⟩ :: _) _ _ := hlayout.head (spaces 0) hcontent
      rw [linesOfHeaders, List.flatMap_cons, List.append_assoc, List.append_assoc,
        List.singleton_append, linesFrom_feed (isLine_headerCharacters hheader), ← linesOfHeaders]
      refine ⟨_, _, hfirst, ?_, htexts⟩
      rw [List.map_append, hentries, List.map_cons, List.map_cons, entry, keyName_writtenHeader,
        valueText_writtenHeader]
      rfl

theorem exists_layout (h : sheet.IsPlain) :
    ∃ headers rules, Layout (linesFrom 0 sheet.characters) headers rules ∧
      headers.map entry = sheet.headers.map (fun header => (header.1.key, header.2)) ∧
      rules.map (·.part.text) = sheet.rules.map Rule.characters := by
  have hremark : IsLine ('#' :: sheet.remark.toList) := isLine_cons.2 ⟨rfl, h.remark⟩
  obtain ⟨headers, rules, hlayout, hentries, htexts⟩ :=
    exists_layout_headers h.headers h.rules (0 + ('#' :: sheet.remark.toList).length + 1)
  rw [characters, linesFrom_feed hremark]
  exact ⟨_, _, hlayout.head (spaces 0) (.comment _), hentries, htexts⟩

theorem slot_mem_ofPlaced {placed : List (Placed HeaderText)} {header : Placed HeaderText}
    {slot : Slot} (hmem : header ∈ placed) (hkey : header.part.keyName ∈ slot.keys) :
    slot ∈ (Headers.ofPlaced placed).map Prod.fst := by
  refine List.mem_map.2 ⟨(slot, header.part.valueText), List.mem_filterMap.2 ⟨header, hmem, ?_⟩, rfl⟩
  rw [Slot.ofKey_eq_some.2 hkey, Option.map_some]

section Entries

variable {placed : List (Placed HeaderText)} {headers : Headers}
  (hentries : placed.map entry = headers.map fun header => (header.1.key, header.2))

include hentries

theorem ofPlaced_of_entries : Headers.ofPlaced placed = headers := by
  have hmapped : Headers.ofPlaced placed =
      (placed.map entry).filterMap fun pair => (Slot.ofKey pair.1).map fun slot => (slot, pair.2) := by
    rw [List.filterMap_map]
    rfl
  rw [hmapped, hentries, List.filterMap_map]
  simp [Slot.ofKey_key]

/-- Headers for different fields are all taken in. -/
theorem faultless_of_entries (hslots : (headers.map Prod.fst).Nodup) : Faultless placed := by
  intro earlier header later cause heq hfault
  cases hfault with
  | unknown hunknown =>
      have hmem : entry header ∈ placed.map entry := by
        rw [heq]
        exact List.mem_map_of_mem (List.mem_append_right _ List.mem_cons_self)
      rw [hentries] at hmem
      obtain ⟨known, -, hknown⟩ := List.mem_map.1 hmem
      have hkey : known.1.key = header.part.keyName := congrArg Prod.fst hknown
      exact hunknown known.1 (hkey ▸ Slot.ofKey_eq_some.1 known.1.ofKey_key)
  | repeated hkey hmem hother =>
      have hparts : headers = Headers.ofPlaced earlier ++ Headers.ofPlaced (header :: later) := by
        rw [← ofPlaced_of_entries hentries, heq]
        exact List.filterMap_append
      rw [hparts, List.map_append] at hslots
      exact (List.nodup_append.1 hslots).2.2 _ (slot_mem_ofPlaced hmem hother) _
        (slot_mem_ofPlaced List.mem_cons_self hkey) rfl

end Entries

/-- A document of the usual form is read as what its headers and its rules say. -/
theorem ofText_text (h : sheet.IsPlain) : Definition.ofText sheet.text =
    (Definition.ofHeaders sheet.headers (sheet.rules.map Rule.line)).mapError .invalid := by
  obtain ⟨headers, rules, hlayout, hentries, htexts⟩ := exists_layout h
  have htrimmed : rules.map (fun rule => String.ofList (Text.trim rule.part.text)) =
      sheet.rules.map Rule.line := by
    have hmapped : rules.map (fun rule => String.ofList (Text.trim rule.part.text)) =
        (rules.map (·.part.text)).map (fun line => String.ofList (Text.trim line)) := by
      rw [List.map_map]
      rfl
    rw [hmapped, htexts, List.map_map]
    exact List.map_congr_left fun rule hrule =>
      congrArg String.ofList (Rule.trim_characters (h.rules rule hrule))
  rw [Definition.ofText, text, String.toList_ofList,
    Definition.ofCharacters_of_ok (Document.ofCharacters_of_layout hlayout),
    Headers.ofNodes_of_faultless (faultless_of_entries hentries h.slots), Except.mapError, ok_bind,
    ofPlaced_of_entries hentries, htrimmed]

/-- The definition that the headers and the rules make, with the blank symbol that is read. -/
def definition (sheet : Sheet) (blank : Option Char) : Definition :=
  Definition.named ⟨none, sheet.headers.value .input, Text.trimmed (sheet.headers.value .initial),
    stateNames (sheet.headers.value .finals), blank, sheet.rules.map Rule.line⟩
    (sheet.headers.value? .name)

/-- A definition with this blank symbol can be made of the sheet. -/
structure IsWhole (sheet : Sheet) (blank : Option Char) : Prop extends sheet.IsPlain where
  initial_ne : Text.trimmed (sheet.headers.value .initial) ≠ ""
  rules_ne : sheet.rules ≠ []
  blank : readBlank (sheet.headers.value .blank) = .ok blank

variable {blank : Option Char}

theorem ofText_eq_ok (h : sheet.IsWhole blank) :
    Definition.ofText sheet.text = .ok (sheet.definition blank) := by
  have hlines : ruleLines (Text.joinLines (sheet.rules.map Rule.line)) =
      sheet.rules.map Rule.line := by
    refine ruleLines_joinLines_of_isRuleLine fun line hline => ?_
    obtain ⟨rule, hrule, rfl⟩ := List.mem_map.1 hline
    exact Rule.isRuleLine_line (h.rules rule hrule)
  have hfields : Definition.ofFields ⟨sheet.headers.value .input, sheet.headers.value .initial,
      sheet.headers.value .finals, sheet.headers.value .blank,
      Text.joinLines (sheet.rules.map Rule.line)⟩ =
        .ok ⟨none, sheet.headers.value .input, Text.trimmed (sheet.headers.value .initial),
          stateNames (sheet.headers.value .finals), blank, sheet.rules.map Rule.line⟩ := by
    refine Definition.ofFields_eq_ok_iff.2 ⟨h.initial_ne, ?_, blank, h.blank, by rw [hlines]⟩
    rw [hlines, Ne, List.map_eq_nil_iff]
    exact h.rules_ne
  rw [ofText_text h.toIsPlain, Definition.ofHeaders, hfields, ok_bind]
  rfl

theorem rules_definition (sheet : Sheet) (blank : Option Char) :
    (sheet.definition blank).rules = sheet.rules.map Rule.line :=
  Definition.rules_named ..

theorem displayName_definition {name : String} (hname : sheet.headers.value? .name = some name)
    (htrimmed : Text.trimmed name = name) (hne : name ≠ "") (blank : Option Char) :
    (sheet.definition blank).displayName = name := by
  rw [definition, Definition.named, hname, Option.map_some, htrimmed]
  simp [hne, Definition.withName, Definition.displayName]

theorem readTable_definition (h : sheet.IsPlain) (blank : Option Char) :
    (readTable (sheet.definition blank).rules).table = .ok (Table.ofRules sheet.rules) := by
  rw [rules_definition, readTable_line h.rules]

/-- A machine loads the definition with any input. -/
theorem load_definition (h : sheet.IsPlain) (blank : Option Char) (machine : Machine)
    (input : String) : machine.load { sheet.definition blank with input := input } =
      .ok (machine.setUp { sheet.definition blank with input := input } (.ofRules sheet.rules)) :=
  Machine.load_eq_ok_iff.2 ⟨_, readTable_definition h blank, rfl⟩

end Sheet

end TapeMachine
