import TapeMachine.Proofs.Definition.Sheet
import TapeMachine.Proofs.Tape.View

/-!
The states of rules as fields. Words end at spaces, tabs and line ends but not at other blanks, and
a field loses every blank at its ends. So a field names a state of a rule exactly when no blank
stands at either end of it.
-/

namespace TapeMachine

open Source

/-! The states that rules have. -/

namespace Source

variable {line : List Char} {rule : Rule}

theorem readRule_trim (line : List Char) : readRule (Text.trim line) = readRule line := by
  rw [readRule, Text.trim_trim]
  rfl

theorem isWord_of_readRule (h : readRule line = .ok rule) :
    IsWord rule.situation.state.toList ∧ IsWord rule.action.next.toList := by
  obtain ⟨text, -, hdenotes⟩ := readRule_eq_ok.1 h
  rw [← hdenotes.state, ← hdenotes.next, String.toList_ofList, String.toList_ofList]
  exact ⟨text.left.state.2, text.right.next.2⟩

theorem RuleText.head?_text (text : RuleText) : text.text.head? = text.left.state.1.head? := by
  rw [RuleText.text, LeftText.text, List.append_assoc,
    List.head?_append_of_ne_nil _ text.left.state.2.ne_nil]

/-- The state that a rule is for stands first in its line. -/
theorem isBlank_head_of_readRule (h : readRule line = .ok rule) :
    ∀ c ∈ rule.situation.state.toList.head?, Text.isBlank c = false := by
  obtain ⟨text, htext, hdenotes⟩ := readRule_eq_ok.1 h
  have hfirst := (Text.isTrimmed_trim line).first
  rw [htext, text.head?_text] at hfirst
  rw [← hdenotes.state, String.toList_ofList]
  exact hfirst

theorem isTrimmed_state_iff (h : readRule line = .ok rule) :
    Text.IsTrimmed rule.situation.state.toList ↔
      ∀ c ∈ rule.situation.state.toList.getLast?, Text.isBlank c = false :=
  ⟨fun htrimmed => htrimmed.last, fun hlast => ⟨isBlank_head_of_readRule h, hlast⟩⟩

/-- Any two words are the states of a rule that can be written. -/
theorem exists_ruleText_between (state next : Word) :
    ∃ (text : RuleText) (rule : Rule), text.Denotes rule ∧ text.left.state = state ∧
      text.right.next = next ∧ text.text.getLast? = some 'R' := by
  have hletter : IsWord ['a'] := (@IsPlainWord.singleton 'a' rfl).isWord
  have hdirection : IsWord ['R'] := (isPlainWord_directionWord .right).isWord
  refine ⟨⟨⟨state, spaces 0, spaces 0, ⟨_, hletter⟩⟩, spaces 0, ⟨['→'], .inl rfl⟩, spaces 0,
      ⟨next, spaces 0, spaces 0, ⟨_, hletter⟩, spaces 0, spaces 0, ⟨_, hdirection⟩⟩⟩,
    ⟨⟨String.ofList state.1, 'a'⟩, ⟨String.ofList next.1, 'a', .right⟩⟩,
    ⟨rfl, rfl, rfl, rfl, List.mem_cons_self⟩, rfl, rfl, ?_⟩
  simp [RuleText.text, RightText.text, List.getLast?_append, List.getLast?_cons]

theorem exists_readRule {state next : Word}
    (hfirst : ∀ c ∈ state.1.head?, Text.isBlank c = false) :
    ∃ line rule, readRule line = .ok rule ∧ rule.situation.state.toList = state.1 ∧
      rule.action.next.toList = next.1 := by
  obtain ⟨text, rule, hdenotes, rfl, rfl, hlast⟩ := exists_ruleText_between state next
  have htrimmed : Text.IsTrimmed text.text := by
    constructor
    · rw [text.head?_text]
      exact hfirst
    · rw [hlast]
      rintro c ⟨⟩
      rfl
  refine ⟨text.text, rule, readRule_eq_ok.2 ⟨text, htrimmed.trim_eq_self, hdenotes⟩, ?_, ?_⟩
  · rw [← hdenotes.state, String.toList_ofList]
  · rw [← hdenotes.next, String.toList_ofList]

/-- Every word is the next state of some rule. -/
theorem exists_next_iff {name : String} :
    (∃ line rule, readRule line = .ok rule ∧ rule.action.next = name) ↔ IsWord name.toList := by
  constructor
  · rintro ⟨line, rule, hread, rfl⟩
    exact (isWord_of_readRule hread).2
  · intro hword
    have hplain : IsPlainWord ['a'] := .singleton rfl
    obtain ⟨line, rule, hread, -, hnext⟩ :=
      @exists_readRule ⟨_, hplain.isWord⟩ ⟨_, hword⟩ hplain.isTrimmed.first
    exact ⟨line, rule, hread, String.toList_injective hnext⟩

/-- A word is the state that some rule is for exactly when it begins with no blank. -/
theorem exists_state_iff {name : String} :
    (∃ line rule, readRule line = .ok rule ∧ rule.situation.state = name) ↔
      IsWord name.toList ∧ ∀ c ∈ name.toList.head?, Text.isBlank c = false := by
  constructor
  · rintro ⟨line, rule, hread, rfl⟩
    exact ⟨(isWord_of_readRule hread).1, isBlank_head_of_readRule hread⟩
  · rintro ⟨hword, hfirst⟩
    obtain ⟨line, rule, hread, hstate, -⟩ := @exists_readRule ⟨_, hword⟩ ⟨_, hword⟩ hfirst
    exact ⟨line, rule, hread, String.toList_injective hstate⟩

end Source

/-! The states that fields name. -/

theorem Text.trimmed_eq_self_iff_isTrimmed {text : String} :
    trimmed text = text ↔ IsTrimmed text.toList := by
  rw [trimmed_eq_self_iff]
  exact ⟨fun h => h ▸ isTrimmed_trim text.toList, IsTrimmed.trim_eq_self⟩

theorem stateNames_eq_singleton {name : String} (h : IsListedName name) : stateNames name = [name] := by
  have hnames := stateNames_joinNames (List.forall_mem_singleton.2 h)
  rwa [Text.joinNames, String.intercalate_singleton] at hnames

theorem mem_stateNames_self_iff {name : String} : name ∈ stateNames name ↔ IsListedName name := by
  refine ⟨isListedName_of_mem_stateNames, fun h => ?_⟩
  rw [stateNames_eq_singleton h]
  exact List.mem_singleton_self name

theorem isListedName_iff_isTrimmed {name : String} (h : IsWord name.toList) :
    IsListedName name ↔ Text.IsTrimmed name.toList := by
  rw [← Text.trimmed_eq_self_iff_isTrimmed]
  refine ⟨fun hlisted => hlisted.trimmed, fun htrimmed => ⟨?_, htrimmed, ?_⟩⟩
  · exact mt String.toList_eq_nil_iff.2 h.ne_nil
  · exact fun hcomma => h.not_mem ',' hcomma (by decide)

theorem stateNames_eq_singleton_iff {name : String} (h : IsWord name.toList) :
    stateNames name = [name] ↔ Text.IsTrimmed name.toList := by
  rw [← isListedName_iff_isTrimmed h]
  refine ⟨fun hnames => mem_stateNames_self_iff.1 ?_, stateNames_eq_singleton⟩
  rw [hnames]
  exact List.mem_singleton_self name

/-! Machines that are loaded from fields. -/

namespace Definition

/-- Fields that come out whole give a definition with their parts, and a machine loads it when its
rule lines can be read. -/
theorem exists_load_of_fields {fields : Fields} (hinitial : Text.trimmed fields.initial ≠ "")
    (hblank : ∃ blank, readBlank fields.blank = .ok blank) (hne : ruleLines fields.rules ≠ [])
    (hrules : ∀ line ∈ ruleLines fields.rules, ∃ rule, readRule line.toList = .ok rule)
    (machine : Machine) :
    ∃ definition table, ofFields fields = .ok definition ∧
      (readTable (ruleLines fields.rules)).table = .ok table ∧
      machine.load definition = .ok (machine.setUp definition table) ∧
      definition.input = fields.input ∧ definition.initial = Text.trimmed fields.initial ∧
      definition.finals = stateNames fields.finals := by
  obtain ⟨blank, hblank⟩ := hblank
  have hfields := ofFields_eq_ok_iff.2 ⟨hinitial, hne, blank, hblank, rfl⟩
  obtain ⟨table, htable⟩ := readTable_isOk_iff.2 hrules
  exact ⟨_, table, hfields, htable, Machine.load_eq_ok_iff.2 ⟨table, htable, rfl⟩, rfl, rfl, rfl⟩

/-- The states of a rule that is read are words. A field names one exactly when no blank stands at
either end of it: trimming leaves it, it is the one state of a list that is written as it, and a
machine that is loaded from fields begins in it or has it as a final state. Of the state that the
rule is for, only the end matters. A machine that begins in the rule's situation applies a rule. -/
theorem fields_name_states {line : List Char} {rule : Rule} (hread : readRule line = .ok rule)
    {name : String} (hname : name = rule.situation.state ∨ name = rule.action.next) :
    IsWord name.toList ∧
    (Text.trimmed name = name ↔ Text.IsTrimmed name.toList) ∧
    (stateNames name = [name] ↔ Text.IsTrimmed name.toList) ∧
    (Text.IsTrimmed rule.situation.state.toList ↔
      ∀ c ∈ rule.situation.state.toList.getLast?, Text.isBlank c = false) ∧
    ∀ (machine : Machine) (fields : Fields),
      String.ofList (Text.trim line) ∈ ruleLines fields.rules →
      (∀ other ∈ ruleLines fields.rules, ∃ read, readRule other.toList = .ok read) →
      (∃ blank, readBlank fields.blank = .ok blank) → Text.trimmed fields.initial ≠ "" →
      ∃ definition loaded, ofFields fields = .ok definition ∧
        machine.load definition = .ok loaded ∧
        (fields.initial = name → (loaded.state = name ↔ Text.IsTrimmed name.toList)) ∧
        (fields.finals = name → (name ∈ loaded.program.finals ↔ Text.IsTrimmed name.toList)) ∧
        (fields.initial = rule.situation.state →
          fields.input.toList.head? = some rule.situation.symbol →
            (loaded.situation = rule.situation ↔ Text.IsTrimmed rule.situation.state.toList)) ∧
        (loaded.situation = rule.situation → loaded.step.1.applied = true) := by
  obtain ⟨hstate, hnext⟩ := isWord_of_readRule hread
  have hword : IsWord name.toList := by
    rcases hname with rfl | rfl
    · exact hstate
    · exact hnext
  refine ⟨hword, Text.trimmed_eq_self_iff_isTrimmed, stateNames_eq_singleton_iff hword,
    isTrimmed_state_iff hread, fun machine fields hline hrules hblank hinitial => ?_⟩
  obtain ⟨definition, table, hfields, htable, hloaded, hinput, hstart, hfinals⟩ :=
    exists_load_of_fields hinitial hblank (List.ne_nil_of_mem hline) hrules machine
  have hbegins (start : String) (heq : fields.initial = start) :
      (machine.setUp definition table).state = start ↔ Text.IsTrimmed start.toList := by
    rw [← Text.trimmed_eq_self_iff_isTrimmed, ← heq, ← hstart]
    rfl
  refine ⟨definition, _, hfields, hloaded, hbegins name, ?_, fun heq hfirst => ?_,
    fun hsituation => ?_⟩
  · rintro rfl
    rw [← isListedName_iff_isTrimmed hword, ← mem_stateNames_self_iff, ← hfinals]
    exact NameSet.mem_ofList
  · have hsymbol : (machine.setUp definition table).tape.read = rule.situation.symbol :=
      Tape.read_ofInput (hinput ▸ hfirst) _
    rw [← hbegins _ heq, Machine.situation, hsymbol]
    exact ⟨congrArg Situation.state, congrArg (Situation.mk · rule.situation.symbol)⟩
  · have hkept : readRule (String.ofList (Text.trim line)).toList = .ok rule := by
      rw [String.toList_ofList, readRule_trim, hread]
    obtain ⟨action, hsome⟩ := exists_find?_of_readTable htable hline hkept
    rw [← hsituation] at hsome
    exact (Machine.step_cases _).applied rfl hsome

/-- A rule whose state ends in a blank that no word ends at, and fields that name this state. -/
def spacedLine : String := "q\u00a0,a -> f,b,R"

def spacedFields : Fields := ⟨"a", "q\u00a0", "f", "", spacedLine⟩

theorem readRule_spacedLine :
    readRule spacedLine.toList = .ok ⟨⟨"q\u00a0", 'a'⟩, ⟨"f", 'b', .right⟩⟩ := by rfl

/-- The state of a rule that is read is another one in a field, and no rule is for that one. -/
theorem fields_lose_state :
    readRule spacedLine.toList = .ok ⟨⟨"q\u00a0", 'a'⟩, ⟨"f", 'b', .right⟩⟩ ∧
      Text.isBlank '\u00a0' = true ∧ Text.trimmed "q\u00a0" = "q" ∧ stateNames "q\u00a0" = ["q"] ∧
      ∃ definition loaded, ofFields spacedFields = .ok definition ∧
        Machine.new.load definition = .ok loaded ∧ loaded.state = "q" ∧
        (loaded.run 10).1 = .halts .rejected ∧ (loaded.run 10).2.steps = 0 :=
  ⟨readRule_spacedLine, rfl, rfl, rfl, _, _, rfl, rfl, rfl, rfl, rfl⟩

theorem fields_name_states_spacedLine :
    readRule spacedLine.toList = .ok ⟨⟨"q\u00a0", 'a'⟩, ⟨"f", 'b', .right⟩⟩ ∧
      Text.trimmed "q\u00a0" ≠ "q\u00a0" ∧ stateNames "f" = ["f"] ∧
      ∃ definition loaded, ofFields spacedFields = .ok definition ∧
        Machine.new.load definition = .ok loaded ∧ loaded.situation ≠ ⟨"q\u00a0", 'a'⟩ ∧
        "f" ∈ loaded.program.finals := by
  have hread := readRule_spacedLine
  have hlines : ruleLines spacedFields.rules = [spacedLine] := by rfl
  have hplain : IsPlainWord "f".toList := by decide
  obtain ⟨-, htrimmed, -, hlast, -⟩ := fields_name_states hread (.inl rfl)
  obtain ⟨-, -, hnames, -, hload⟩ := fields_name_states hread (.inr rfl)
  have hspaced : ¬ Text.IsTrimmed "q\u00a0".toList := fun h =>
    absurd (hlast.1 h '\u00a0' rfl) (by decide)
  have hreadable : ∀ other ∈ ruleLines spacedFields.rules, ∃ read, readRule other.toList = .ok read := by
    rw [hlines]
    exact List.forall_mem_singleton.2 ⟨_, hread⟩
  obtain ⟨definition, loaded, hfields, hloaded, -, hfinal, hsituation, -⟩ :=
    hload .new spacedFields (hlines ▸ List.mem_singleton_self _) hreadable ⟨none, by rfl⟩ (by decide)
  exact ⟨hread, mt htrimmed.1 hspaced, hnames.2 hplain.isTrimmed, definition, loaded, hfields, hloaded,
    mt (hsituation rfl rfl).1 hspaced, (hfinal rfl).2 hplain.isTrimmed⟩

end Definition

end TapeMachine
