import TapeMachine.Proofs.Definition.Sheet
import TapeMachine.Proofs.Machine.Course
import TapeMachine.Proofs.Preset.Lookup

/-!
The built-in machines as documents of the usual form. Each text is that of its sheet, so that the
definition and the table it gives are known without reading the text again.
-/

namespace TapeMachine.Preset

def rule (state : String) (symbol : Char) (next : String) (write : Char) (direction : Direction) :
    Rule :=
  ⟨⟨state, symbol⟩, ⟨next, write, direction⟩⟩

def exactlyOneZeroSheet : Sheet where
  remark := " Accepts binary strings that contain exactly one 0."
  headers := [(.name, "Exactly one zero"), (.input, "101"), (.initial, "q0"), (.finals, "qf"),
    (.blank, "_")]
  rules := [rule "q0" '1' "q0" '1' .right, rule "q0" '0' "q1" '0' .right,
    rule "q1" '1' "q1" '1' .right, rule "q1" '_' "qf" '_' .right]

def binaryIncrementSheet : Sheet where
  remark := " Adds one to a binary number. The head runs to the right end, then carries leftwards."
  headers := [(.name, "Binary increment"), (.input, "1011"), (.initial, "right"), (.finals, "done"),
    (.blank, "_")]
  rules := [rule "right" '0' "right" '0' .right, rule "right" '1' "right" '1' .right,
    rule "right" '_' "carry" '_' .left, rule "carry" '1' "carry" '0' .left,
    rule "carry" '0' "done" '1' .left, rule "carry" '_' "done" '1' .left]

def evenOnesSheet : Sheet where
  remark := " Accepts binary strings with an even number of 1s."
  headers := [(.name, "Even number of ones"), (.input, "1001"), (.initial, "even"),
    (.finals, "accept"), (.blank, "_")]
  rules := [rule "even" '0' "even" '0' .right, rule "even" '1' "odd" '1' .right,
    rule "odd" '0' "odd" '0' .right, rule "odd" '1' "even" '1' .right,
    rule "even" '_' "accept" '_' .right]

def palindromeSheet : Sheet where
  remark := " Accepts palindromes over \x7ba, b\x7d by erasing matching symbols from both ends."
  headers := [(.name, "Palindrome"), (.input, "abba"), (.initial, "q0"), (.finals, "yes"),
    (.blank, "_")]
  rules := [rule "q0" 'a' "qa" '_' .right, rule "q0" 'b' "qb" '_' .right,
    rule "q0" '_' "yes" '_' .right,
    rule "qa" 'a' "qa" 'a' .right, rule "qa" 'b' "qa" 'b' .right, rule "qa" '_' "ca" '_' .left,
    rule "ca" 'a' "back" '_' .left, rule "ca" '_' "yes" '_' .right,
    rule "qb" 'a' "qb" 'a' .right, rule "qb" 'b' "qb" 'b' .right, rule "qb" '_' "cb" '_' .left,
    rule "cb" 'b' "back" '_' .left, rule "cb" '_' "yes" '_' .right,
    rule "back" 'a' "back" 'a' .left, rule "back" 'b' "back" 'b' .left,
    rule "back" '_' "q0" '_' .right]

def busyBeaverSheet : Sheet where
  remark := " Two-state busy beaver: writes four 1s in six steps, growing the tape to the left."
  headers := [(.name, "Busy beaver (2 states)"), (.input, ""), (.initial, "A"), (.finals, "H"),
    (.blank, "0")]
  rules := [rule "A" '0' "B" '1' .right, rule "A" '1' "B" '1' .left, rule "B" '0' "A" '1' .left,
    rule "B" '1' "H" '1' .right]

section Texts

/- A text is compared with its sheet character by character. -/
set_option maxRecDepth 4000

theorem text_exactlyOneZeroSheet : exactlyOneZeroSheet.text = exactlyOneZeroText := by
  rfl

theorem text_binaryIncrementSheet : binaryIncrementSheet.text = binaryIncrementText := by
  rfl

theorem text_evenOnesSheet : evenOnesSheet.text = evenOnesText := by
  rfl

theorem text_palindromeSheet : palindromeSheet.text = palindromeText := by
  rfl

theorem text_busyBeaverSheet : busyBeaverSheet.text = busyBeaverText := by
  rfl

end Texts

/-- A built-in text with the sheet that it is written from, and the blank symbol that is read. -/
structure Written where
  sheet : Sheet
  blank : Option Char
  text : String
  isWhole : sheet.IsWhole blank
  text_eq : sheet.text = text

namespace Written

variable (written : Written)

def definition : Definition :=
  written.sheet.definition written.blank

def preset : Preset :=
  ⟨written.definition, written.text⟩

theorem ofSource_text : ofSource written.text = some written.preset := by
  have hread := Sheet.ofText_eq_ok written.isWhole
  rw [written.text_eq] at hread
  unfold ofSource
  rw [hread]
  rfl

theorem filterMap_ofSource_text (texts : List Written) :
    (texts.map Written.text).filterMap ofSource = texts.map Written.preset := by
  induction texts with
  | nil => rfl
  | cons written texts ih =>
      rw [List.map_cons, List.filterMap_cons_some written.ofSource_text, ih, List.map_cons]

theorem readTable_definition : (Source.readTable written.definition.rules).table =
    .ok (.ofRules written.sheet.rules) :=
  Sheet.readTable_definition written.isWhole.toIsPlain written.blank

/-- A machine that was loaded with the definition and an input halts as the course does that begins
there. -/
theorem exists_load (machine : Machine) (input : String) :
    ∃ loaded, machine.load { written.definition with input := input } = .ok loaded ∧
      loaded.steps = 0 ∧ loaded.isHalted = false ∧
      ∀ {count halt last},
        Program.Halts
          ⟨written.definition.initial, .ofList written.definition.finals,
            .ofRules written.sheet.rules⟩ count halt
          ⟨.heading (written.definition.blank.getD defaultBlank) input.toList [] .right,
            written.definition.initial⟩ last →
        loaded.HaltsAfter count halt last :=
  ⟨_, Sheet.load_definition written.isWhole.toIsPlain written.blank machine input, rfl, rfl,
    fun hcourse => machine.haltsAfter_setUp _ _ hcourse⟩

end Written

def exactlyOneZero : Written :=
  ⟨exactlyOneZeroSheet, some '_', exactlyOneZeroText, ⟨by decide, by decide, by decide, by decide⟩,
    text_exactlyOneZeroSheet⟩

def binaryIncrement : Written :=
  ⟨binaryIncrementSheet, some '_', binaryIncrementText,
    ⟨by decide, by decide, by decide, by decide⟩, text_binaryIncrementSheet⟩

def evenOnes : Written :=
  ⟨evenOnesSheet, some '_', evenOnesText, ⟨by decide, by decide, by decide, by decide⟩,
    text_evenOnesSheet⟩

def palindrome : Written :=
  ⟨palindromeSheet, some '_', palindromeText, ⟨by decide, by decide, by decide, by decide⟩,
    text_palindromeSheet⟩

def busyBeaver : Written :=
  ⟨busyBeaverSheet, some '0', busyBeaverText, ⟨by decide, by decide, by decide, by decide⟩,
    text_busyBeaverSheet⟩

def writtenAll : List Written :=
  [exactlyOneZero, binaryIncrement, evenOnes, palindrome, busyBeaver]

/-- Every text is read, and gives a preset. -/
theorem all_eq : all = writtenAll.map Written.preset := by
  have htexts : all = (writtenAll.map Written.text).filterMap ofSource := rfl
  rw [htexts, Written.filterMap_ofSource_text]

/-- The rules of every preset can be read. -/
theorem exists_readTable {preset : Preset} (h : preset ∈ all) :
    ∃ table, (Source.readTable preset.definition.rules).table = .ok table := by
  rw [all_eq] at h
  obtain ⟨written, -, rfl⟩ := List.mem_map.1 h
  exact ⟨_, written.readTable_definition⟩

theorem length_all : all.length = 5 := by
  rw [all_eq, List.length_map, writtenAll]
  rfl

theorem length_all_pos : 0 < all.length := by
  rw [length_all]
  decide

/-! Names. -/

theorem displayName_exactlyOneZero : exactlyOneZero.definition.displayName = "Exactly one zero" :=
  Sheet.displayName_definition rfl (by decide) (by decide) _

theorem displayName_binaryIncrement : binaryIncrement.definition.displayName = "Binary increment" :=
  Sheet.displayName_definition rfl (by decide) (by decide) _

theorem displayName_evenOnes : evenOnes.definition.displayName = "Even number of ones" :=
  Sheet.displayName_definition rfl (by decide) (by decide) _

theorem displayName_palindrome : palindrome.definition.displayName = "Palindrome" :=
  Sheet.displayName_definition rfl (by decide) (by decide) _

/-- A name that no earlier preset has finds the preset that has it. -/
theorem withName_of_writtenAll {earlier later : List Written} {written : Written} {name : String}
    (hall : writtenAll = earlier ++ written :: later)
    (hearlier : ∀ other ∈ earlier, sameName other.definition.displayName name = false)
    (hname : sameName written.definition.displayName name = true) :
    withName name = .ok written.preset := by
  refine withName_of_find? ?_
  have hnone : (earlier.map Written.preset).find?
      (fun preset => sameName preset.definition.displayName name) = none := by
    rw [List.find?_map, Option.map_eq_none_iff, List.find?_eq_none]
    intro other hother
    rw [Bool.not_eq_true]
    exact hearlier other hother
  rw [all_eq, hall, List.map_append, List.find?_append, hnone, Option.none_or, List.map_cons]
  exact List.find?_cons_of_pos hname

theorem withName_exactlyOneZero : withName "Exactly one zero" = .ok exactlyOneZero.preset := by
  refine @withName_of_writtenAll [] _ _ _ rfl nofun ?_
  rw [displayName_exactlyOneZero]
  decide

theorem withName_binaryIncrement : withName "Binary increment" = .ok binaryIncrement.preset := by
  refine @withName_of_writtenAll [exactlyOneZero] _ _ _ rfl ?_ ?_
  · rw [List.forall_mem_singleton, displayName_exactlyOneZero]
    decide
  · rw [displayName_binaryIncrement]
    decide

theorem withName_evenOnes : withName "Even number of ones" = .ok evenOnes.preset := by
  refine @withName_of_writtenAll [exactlyOneZero, binaryIncrement] _ _ _ rfl ?_ ?_
  · rw [List.forall_mem_cons, List.forall_mem_singleton, displayName_exactlyOneZero,
      displayName_binaryIncrement]
    decide
  · rw [displayName_evenOnes]
    decide

theorem withName_palindrome : withName "Palindrome" = .ok palindrome.preset := by
  refine @withName_of_writtenAll [exactlyOneZero, binaryIncrement, evenOnes] _ _ _ rfl ?_ ?_
  · rw [List.forall_mem_cons, List.forall_mem_cons, List.forall_mem_singleton,
      displayName_exactlyOneZero, displayName_binaryIncrement, displayName_evenOnes]
    decide
  · rw [displayName_palindrome]
    decide

end TapeMachine.Preset
