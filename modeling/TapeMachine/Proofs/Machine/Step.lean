import TapeMachine.Machine.Basic
import TapeMachine.Proofs.Source.TableReading

/-!
What loading and a step can do. Loading sets up a machine when every rule can be read. A halted
machine records that it is halted, one without a fitting rule rejects, and any other applies its
rule and then accepts or goes on. Statements about steps start from these four cases and do not open
the definition.
-/

namespace TapeMachine

theorem Journal.size_record (journal : Journal) (event : Event) :
    (journal.record event).size = journal.size + 1 :=
  Array.size_push event

namespace Machine

theorem load_eq_ok_iff {machine loaded : Machine} {definition : Definition} :
    machine.load definition = .ok loaded ↔
      ∃ table, (Source.readTable definition.rules).table = .ok table ∧
        machine.setUp definition table = loaded := by
  simp only [load, bind_eq_ok, pure_eq_ok]

theorem load_of_unreadable (machine : Machine) {definition : Definition} {line : String}
    (hline : line ∈ definition.rules) {error : Source.SyntaxError}
    (hread : Source.readRule line.toList = .error error) :
    ∃ refusal, machine.load definition = .error refusal := by
  obtain ⟨refusal, hrefused⟩ := Source.readTable_of_unreadable hline hread
  refine ⟨refusal, ?_⟩
  rw [load, hrefused]
  rfl

theorem load_of_readable (machine : Machine) {definition : Definition}
    (h : ∀ line ∈ definition.rules, ∃ rule, Source.readRule line.toList = .ok rule) :
    ∃ table, (Source.readTable definition.rules).table = .ok table ∧
      machine.load definition = .ok (machine.setUp definition table) := by
  obtain ⟨table, htable⟩ := Source.readTable_isOk_iff.2 h
  exact ⟨table, htable, load_eq_ok_iff.2 ⟨table, htable, rfl⟩⟩

theorem isHalted_eq_status (machine : Machine) : machine.isHalted = machine.status.isHalted := by
  unfold isHalted status
  cases machine.outcome with
  | none => cases machine.isLoaded <;> rfl
  | some halt => cases halt <;> rfl

inductive StepCase (machine : Machine) : Step × Machine → Prop where
  | halted (hhalted : machine.isHalted = true) :
      StepCase machine (.halts .alreadyHalted, machine.record .alreadyHalted)
  | rejects (hrunning : machine.isHalted = false)
      (hnone : machine.program.table.find? machine.situation = none) :
      StepCase machine
        (.halts .rejected, (machine.halt .rejected).record (.noRule machine.situation))
  | accepts {action : Action} (hrunning : machine.isHalted = false)
      (hsome : machine.program.table.find? machine.situation = some action)
      (hfinal : action.next ∈ machine.program.finals) :
      StepCase machine
        (.halts .accepted, ((machine.applyRule machine.situation action).halt .accepted).record
          (.accepted action.next))
  | moves {action : Action} (hrunning : machine.isHalted = false)
      (hsome : machine.program.table.find? machine.situation = some action)
      (hfinal : action.next ∉ machine.program.finals) :
      StepCase machine (.goesOn, machine.applyRule machine.situation action)

theorem step_cases (machine : Machine) : StepCase machine machine.step := by
  unfold step
  cases hhalted : machine.isHalted with
  | true => exact .halted hhalted
  | false =>
      cases hfind : machine.program.table.find? machine.situation with
      | none =>
          simp only [Bool.false_eq_true, ↓reduceIte, hfind]
          exact .rejects hhalted hfind
      | some action =>
          simp only [Bool.false_eq_true, ↓reduceIte, hfind]
          split
          · next hfinal => exact .accepts hhalted hfind hfinal
          · next hfinal => exact .moves hhalted hfind hfinal

/-- A step ends as its case says. -/
theorem StepCase.eq_step {machine : Machine} {result : Step × Machine}
    (h : StepCase machine result) : result = machine.step := by
  rw [step]
  cases h with
  | halted hhalted => rw [if_pos hhalted]
  | rejects hrunning hnone => simp only [hrunning, hnone, Bool.false_eq_true, if_false]
  | accepts hrunning hsome hfinal =>
      simp only [hrunning, hsome, Bool.false_eq_true, if_false]
      exact (if_pos hfinal).symm
  | moves hrunning hsome hfinal =>
      simp only [hrunning, hsome, Bool.false_eq_true, if_false]
      exact (if_neg hfinal).symm

theorem StepCase.program {machine : Machine} {result : Step × Machine}
    (h : StepCase machine result) : result.2.program = machine.program := by
  cases h <;> rfl

/-- A step never leaves the journal as it was. -/
theorem StepCase.size_journal_lt {machine : Machine} {result : Step × Machine}
    (h : StepCase machine result) : machine.journal.size < result.2.journal.size := by
  cases h <;> simp only [record, halt, applyRule, Journal.size_record] <;> omega

/-- A machine for whose situation there is a rule applies one. -/
theorem StepCase.applied {machine : Machine} {result : Step × Machine}
    (h : StepCase machine result) (hrunning : machine.isHalted = false) {action : Action}
    (hsome : machine.program.table.find? machine.situation = some action) :
    result.1.applied = true := by
  cases h with
  | halted hhalted =>
      rw [hrunning] at hhalted
      cases hhalted
  | rejects _ hnone =>
      rw [hsome] at hnone
      cases hnone
  | accepts => rfl
  | moves => rfl

/-- Steps so many times, halted or not. Gives what each step ended in. -/
def stepTimes (machine : Machine) : Nat → List Step × Machine
  | 0 => ([], machine)
  | count + 1 =>
      let (steps, later) := machine.stepTimes count
      let (step, next) := later.step
      (steps ++ [step], next)

theorem program_stepTimes (machine : Machine) (count : Nat) :
    (machine.stepTimes count).2.program = machine.program := by
  induction count with
  | zero => rfl
  | succ count ih => exact (step_cases _).program.trans ih

theorem stepTimes_succ (machine : Machine) (count : Nat) :
    (machine.stepTimes (count + 1)).2 = (machine.step.2.stepTimes count).2 := by
  induction count with
  | zero => rfl
  | succ count ih =>
      show (machine.stepTimes (count + 1)).2.step.2 = (machine.step.2.stepTimes count).2.step.2
      rw [ih]

end Machine

end TapeMachine
