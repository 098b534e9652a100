import TapeMachine.Proofs.Machine.Course
import TapeMachine.Proofs.Preset.Sheets
import Mathlib.Algebra.Group.Nat.Even

/-!
The presets that go over a word once, to the right, and leave its symbols as they are. What they
have read so far stands in the state: whether the ones are even in number, or whether there was a
zero. They reject where no rule is for what comes next, and they accept on the blank behind the word.
-/

namespace TapeMachine

namespace Program

variable {program : Program} {blank : Char} {state : String} {word : List Char}

/-- The word is gone over to its end, and with the blank behind it comes a final state. -/
def Admits (program : Program) (blank : Char) (state : String) (word : List Char) : Prop :=
  ∃ last final, program.Scans .right state word last word ∧
    program.table.find? ⟨last, blank⟩ = some ⟨final, blank, .right⟩ ∧ final ∈ program.finals

/-- The word is gone over up to a symbol without a rule, which may be the blank behind it. -/
def Refuses (program : Program) (blank : Char) (state : String) (word : List Char) : Prop :=
  ∃ before rest last, word = before ++ rest ∧ program.Scans .right state before last before ∧
    program.table.find? ⟨last, rest.head?.getD blank⟩ = none

theorem Admits.halts (h : program.Admits blank state word) : ∃ scene : Scene,
    program.Halts word.length .accepted ⟨.heading blank word [] .right, state⟩ scene ∧
      scene.tape.cells.toList = word ++ [blank] := by
  obtain ⟨last, final, hscans, hfind, hfinal⟩ := h
  have hleads := hscans.leads blank [] []
  have hend := halts_onward hfind hfinal (rfl : ([] : List Char).head?.getD blank = blank)
    (word.reverse ++ [])
  rw [List.append_nil] at hleads
  exact ⟨_, hleads.halts hend, by simp [Tape.heading]⟩

theorem Refuses.halts (h : program.Refuses blank state word) : ∃ (count : Nat) (scene : Scene),
    count ≤ word.length ∧
      program.Halts count .rejected ⟨.heading blank word [] .right, state⟩ scene ∧
        scene.tape.cells.toList = word := by
  obtain ⟨before, rest, last, rfl, hscans, hnone⟩ := h
  have hleads := hscans.leads blank rest []
  have hend := halts_rejected hnone rfl (before.reverse ++ []) .right
  refine ⟨before.length, _, ?_, hleads.halts hend, by simp [Tape.heading]⟩
  rw [List.length_append]
  exact Nat.le_add_right ..

end Program

namespace Machine

/-- A run of the machine with this limit tells whether the word has the property. A word that has it
is followed by one blank then, and any other is all that the tape stores. -/
structure Tells (machine : Machine) (limit : Nat) (word : String) (property : Prop) : Prop where
  accepts : property → (machine.run limit).1 = .halts .accepted ∧
    (machine.run limit).2.status = .accepted ∧ (machine.run limit).2.steps = word.length + 1 ∧
    (machine.run limit).2.tape.cells.toList = word.toList ++ ['_']
  rejects : ¬ property → (machine.run limit).1 = .halts .rejected ∧
    (machine.run limit).2.status = .rejected ∧
    (machine.run limit).2.tape.cells.toList = word.toList

/-- A machine tells the words that its program admits from those that it refuses. -/
theorem tells_of_courses {program : Program} {initial : String} {loaded : Machine} {word : String}
    {property : Prop} (hnew : loaded.steps = 0)
    (hcourses : ∀ {count halt last},
      program.Halts count halt ⟨.heading '_' word.toList [] .right, initial⟩ last →
        loaded.HaltsAfter count halt last)
    (hadmits : property → program.Admits '_' initial word.toList)
    (hrefuses : ¬ property → program.Refuses '_' initial word.toList)
    {limit : Nat} (hlimit : word.length + 1 ≤ limit) : loaded.Tells limit word property where
  accepts hproperty := by
    obtain ⟨last, hcourse, hcells⟩ := (hadmits hproperty).halts
    rw [String.length_toList] at hcourse
    have hafter := hcourses hcourse
    have hscene := hafter.scene_run hlimit
    refine ⟨hafter.halts_run hlimit, hafter.accepted_run hlimit, ?_, ?_⟩
    · rw [hafter.steps_run hlimit, hnew, Nat.zero_add]
      rfl
    · rw [← hcells, ← hscene]
      rfl
  rejects hnot := by
    obtain ⟨count, last, hcount, hcourse, hcells⟩ := (hrefuses hnot).halts
    rw [String.length_toList] at hcount
    have hafter := hcourses hcourse
    have hreached : count + 1 ≤ limit := Nat.le_trans (Nat.succ_le_succ hcount) hlimit
    have hscene := hafter.scene_run hreached
    refine ⟨hafter.halts_run hreached, hafter.rejected_run hreached, ?_⟩
    rw [← hcells, ← hscene]
    rfl

end Machine

namespace Preset

namespace EvenOnes

def program : Program :=
  ⟨"even", .ofList ["accept"], .ofRules evenOnesSheet.rules⟩

/-- The state that a word leads to. -/
def stateAfter (word : List Char) : String :=
  if Even (word.count '1') then "even" else "odd"

theorem mem_finals {state : String} : state ∈ program.finals ↔ state = "accept" := by
  rw [program, NameSet.mem_ofList, List.mem_singleton]

theorem stateAfter_not_mem_finals (word : List Char) : stateAfter word ∉ program.finals := by
  rw [mem_finals, stateAfter]
  split <;> decide

theorem find?_stateAfter (word : List Char) {symbol : Char} (h : symbol = '0' ∨ symbol = '1') :
    program.table.find? ⟨stateAfter word, symbol⟩ =
      some ⟨stateAfter (word ++ [symbol]), symbol, .right⟩ := by
  rw [program, Table.find?_ofRules, stateAfter, stateAfter, List.count_append]
  rcases h with rfl | rfl
  · have hcount : ['0'].count '1' = 0 := rfl
    rw [hcount, Nat.add_zero]
    split <;> rfl
  · have hcount : ['1'].count '1' = 1 := rfl
    rw [hcount]
    by_cases heven : Even (word.count '1')
    · rw [if_pos heven, if_neg (by rw [Nat.even_add_one]; exact not_not_intro heven)]
      rfl
    · rw [if_neg heven, if_pos (Nat.even_add_one.2 heven)]
      rfl

theorem find?_even_blank : program.table.find? ⟨"even", '_'⟩ = some ⟨"accept", '_', .right⟩ := by
  rw [program, Table.find?_ofRules]
  rfl

theorem find?_odd_blank : program.table.find? ⟨"odd", '_'⟩ = none := by
  rw [program, Table.find?_ofRules]
  rfl

/-- The state keeps to whether the ones read so far are even in number. -/
theorem scans {word : List Char} (h : ∀ c ∈ word, c = '0' ∨ c = '1') :
    program.Scans .right "even" word (stateAfter word) word := by
  induction word using List.reverseRecOn with
  | nil => exact .nil "even"
  | append_singleton word symbol ih =>
      obtain ⟨hword, hsymbol⟩ := List.forall_mem_append.1 h
      have hfind := find?_stateAfter word (hsymbol symbol (List.mem_singleton_self symbol))
      exact (ih hword).append (.cons hfind (stateAfter_not_mem_finals _) (.nil _))

theorem admits {word : List Char} (h : ∀ c ∈ word, c = '0' ∨ c = '1')
    (heven : Even (word.count '1')) : program.Admits '_' "even" word := by
  have hscans := scans h
  rw [stateAfter, if_pos heven] at hscans
  exact ⟨_, _, hscans, find?_even_blank, mem_finals.2 rfl⟩

theorem refuses {word : List Char} (h : ∀ c ∈ word, c = '0' ∨ c = '1')
    (hodd : ¬ Even (word.count '1')) : program.Refuses '_' "even" word := by
  have hscans := scans h
  rw [stateAfter, if_neg hodd] at hscans
  exact ⟨word, [], _, (List.append_nil word).symm, hscans, find?_odd_blank⟩

end EvenOnes

namespace OneZero

def program : Program :=
  ⟨"q0", .ofList ["qf"], .ofRules exactlyOneZeroSheet.rules⟩

/-- The state that a word with one zero at most leads to. -/
def stateAfter (word : List Char) : String :=
  if word.count '0' = 0 then "q0" else "q1"

theorem mem_finals {state : String} : state ∈ program.finals ↔ state = "qf" := by
  rw [program, NameSet.mem_ofList, List.mem_singleton]

theorem stateAfter_not_mem_finals (word : List Char) : stateAfter word ∉ program.finals := by
  rw [mem_finals, stateAfter]
  split <;> decide

theorem find?_stateAfter {word : List Char} {symbol : Char} (h : symbol = '0' ∨ symbol = '1')
    (hcount : (word ++ [symbol]).count '0' ≤ 1) : program.table.find? ⟨stateAfter word, symbol⟩ =
      some ⟨stateAfter (word ++ [symbol]), symbol, .right⟩ := by
  rw [program, Table.find?_ofRules, stateAfter, stateAfter]
  rw [List.count_append] at hcount ⊢
  rcases h with rfl | rfl
  · have hone : ['0'].count '0' = 1 := rfl
    rw [hone] at hcount ⊢
    have hzero : word.count '0' = 0 := by omega
    rw [hzero]
    rfl
  · have hnone : ['1'].count '0' = 0 := rfl
    rw [hnone, Nat.add_zero]
    split <;> rfl

theorem find?_zero_blank : program.table.find? ⟨"q0", '_'⟩ = none := by
  rw [program, Table.find?_ofRules]
  rfl

theorem find?_one_blank : program.table.find? ⟨"q1", '_'⟩ = some ⟨"qf", '_', .right⟩ := by
  rw [program, Table.find?_ofRules]
  rfl

theorem find?_one_zero : program.table.find? ⟨"q1", '0'⟩ = none := by
  rw [program, Table.find?_ofRules]
  rfl

/-- The state keeps to whether a zero was read, as long as there was no second one. -/
theorem scans {word : List Char} (h : ∀ c ∈ word, c = '0' ∨ c = '1')
    (hcount : word.count '0' ≤ 1) : program.Scans .right "q0" word (stateAfter word) word := by
  induction word using List.reverseRecOn with
  | nil => exact .nil "q0"
  | append_singleton word symbol ih =>
      obtain ⟨hword, hsymbol⟩ := List.forall_mem_append.1 h
      have hfind := find?_stateAfter (hsymbol symbol (List.mem_singleton_self symbol)) hcount
      rw [List.count_append] at hcount
      have hearlier := ih hword (Nat.le_trans (Nat.le_add_right ..) hcount)
      exact hearlier.append (.cons hfind (stateAfter_not_mem_finals _) (.nil _))

theorem exists_second_zero {word : List Char} (h : 2 ≤ word.count '0') :
    ∃ before rest, word = before ++ '0' :: rest ∧ before.count '0' = 1 := by
  induction word using List.reverseRecOn with
  | nil => contradiction
  | append_singleton word symbol ih =>
      by_cases hword : 2 ≤ word.count '0'
      · obtain ⟨before, rest, rfl, hbefore⟩ := ih hword
        exact ⟨before, rest ++ [symbol], by rw [List.append_assoc, List.cons_append], hbefore⟩
      · rw [List.count_append, List.count_singleton] at h
        split at h
        · next hzero =>
            rw [beq_iff_eq] at hzero
            exact ⟨word, [], by rw [hzero], by omega⟩
        · omega

theorem admits {word : List Char} (h : ∀ c ∈ word, c = '0' ∨ c = '1')
    (hone : word.count '0' = 1) : program.Admits '_' "q0" word := by
  have hscans := scans h (Nat.le_of_eq hone)
  rw [stateAfter, if_neg (by rw [hone]; decide)] at hscans
  exact ⟨_, _, hscans, find?_one_blank, mem_finals.2 rfl⟩

/-- A word without a zero ends too early, and a second zero comes too late. -/
theorem refuses {word : List Char} (h : ∀ c ∈ word, c = '0' ∨ c = '1')
    (hnot : word.count '0' ≠ 1) : program.Refuses '_' "q0" word := by
  by_cases hnone : word.count '0' = 0
  · have hscans := scans h (by omega)
    rw [stateAfter, if_pos hnone] at hscans
    exact ⟨word, [], _, (List.append_nil word).symm, hscans, find?_zero_blank⟩
  · obtain ⟨before, rest, rfl, hbefore⟩ := exists_second_zero (by omega : 2 ≤ word.count '0')
    have hscans := scans (List.forall_mem_append.1 h).1 (Nat.le_of_eq hbefore)
    rw [stateAfter, if_neg (by rw [hbefore]; decide)] at hscans
    exact ⟨before, '0' :: rest, _, rfl, hscans, find?_one_zero⟩

end OneZero

/-! The machines. -/

/-- The two presets, loaded with any word of bits, tell whether its ones are even in number and
whether it has exactly one zero. A run that may make a step for each bit and one more halts. When it
accepts it made all of them and the word has one blank behind it, and when it rejects the tape is as
it was. -/
theorem scanning_presets_decide (machine : Machine) {word : String}
    (h : ∀ c ∈ word.toList, c = '0' ∨ c = '1') :
    (∃ preset loaded, withName "Even number of ones" = .ok preset ∧
      machine.load { preset.definition with input := word } = .ok loaded ∧
      ∀ limit, word.length + 1 ≤ limit →
        loaded.Tells limit word (Even (word.toList.count '1'))) ∧
    ∃ preset loaded, withName "Exactly one zero" = .ok preset ∧
      machine.load { preset.definition with input := word } = .ok loaded ∧
      ∀ limit, word.length + 1 ≤ limit → loaded.Tells limit word (word.toList.count '0' = 1) := by
  constructor
  · obtain ⟨loaded, hload, hnew, -, hcourses⟩ := evenOnes.exists_load machine word
    refine ⟨_, loaded, withName_evenOnes, hload, fun limit hlimit => ?_⟩
    exact Machine.tells_of_courses hnew hcourses (EvenOnes.admits h) (EvenOnes.refuses h) hlimit
  · obtain ⟨loaded, hload, hnew, -, hcourses⟩ := exactlyOneZero.exists_load machine word
    refine ⟨_, loaded, withName_exactlyOneZero, hload, fun limit hlimit => ?_⟩
    exact Machine.tells_of_courses hnew hcourses (OneZero.admits h) (OneZero.refuses h) hlimit

theorem scanning_presets_decide_twoZeros :
    (∀ c ∈ "1001".toList, c = '0' ∨ c = '1') ∧
      (∃ preset loaded, withName "Even number of ones" = .ok preset ∧
        Machine.new.load { preset.definition with input := "1001" } = .ok loaded ∧
        (loaded.run 5).1 = .halts .accepted ∧ (loaded.run 5).2.steps = 5 ∧
        (loaded.run 5).2.tape.cells.toList = ['1', '0', '0', '1', '_']) ∧
      ∃ preset loaded, withName "Exactly one zero" = .ok preset ∧
        Machine.new.load { preset.definition with input := "1001" } = .ok loaded ∧
        (loaded.run 5).1 = .halts .rejected ∧
        (loaded.run 5).2.tape.cells.toList = ['1', '0', '0', '1'] := by
  have hbits : ∀ c ∈ "1001".toList, c = '0' ∨ c = '1' := by simp
  obtain ⟨⟨even, loaded, heven, hload, htells⟩, zero, other, hzero, hother, htellsOther⟩ :=
    scanning_presets_decide .new hbits
  obtain ⟨haccepts, -, hsteps, hcells⟩ := (htells 5 (by decide)).accepts (by decide)
  obtain ⟨hrejects, -, hkept⟩ := (htellsOther 5 (by decide)).rejects (by decide)
  exact ⟨hbits, ⟨even, loaded, heven, hload, haccepts, hsteps, hcells⟩,
    zero, other, hzero, hother, hrejects, hkept⟩

end Preset

end TapeMachine
