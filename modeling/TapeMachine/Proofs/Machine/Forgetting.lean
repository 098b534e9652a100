import TapeMachine.Proofs.Machine.Operation
import TapeMachine.Proofs.Machine.Run

/-!
What a machine remembers of its past once it was loaded: nothing but the events in its journal. It
answers every later operation as a new machine does that was loaded alike, and shows the same after
it. The earlier events stay in front of the later ones until a reset clears the journal. A load that
is refused changes nothing.
-/

namespace TapeMachine

namespace Journal

def append (earlier later : Journal) : Journal :=
  ⟨earlier.events ++ later.events⟩

instance : Append Journal := ⟨append⟩

theorem append_record (earlier later : Journal) (event : Event) :
    earlier ++ later.record event = (earlier ++ later).record event := by
  change append _ _ = _
  rw [append, record, Array.append_push]
  rfl

theorem empty_append (journal : Journal) : empty ++ journal = journal := by
  change append _ _ = _
  rw [append, empty, Array.empty_append]

end Journal

/-- What an operation tells its caller. -/
inductive Reply where
  | loaded
  | refused (error : Source.SyntaxError)
  | stepped (step : Step)
  | cleared
deriving DecidableEq

/-- A reply, and what can be seen of the machine after it. -/
structure Showing where
  reply : Reply
  config : Configuration
  program : Program
deriving DecidableEq

namespace Machine

def reply (machine : Machine) : Operation → Reply
  | .load definition =>
      match machine.load definition with
      | .error error => .refused error
      | .ok _ => .loaded
  | .step => .stepped machine.step.1
  | .run limit => .stepped (machine.run limit).1
  | .reset => .cleared

/-- What the machine replies and shows as operations are performed. -/
def showings (machine : Machine) : List Operation → List Showing
  | [] => []
  | operation :: operations =>
      let next := machine.perform operation
      ⟨machine.reply operation, next.config, next.program⟩ :: next.showings operations

/-- The machine with earlier events in its journal. -/
def withPast (machine : Machine) (past : Journal) : Machine :=
  { machine with journal := past ++ machine.journal }

section Past

variable (machine : Machine) (past : Journal)

theorem withPast_empty : machine.withPast .empty = machine := by
  rw [withPast, Journal.empty_append]

theorem record_withPast (event : Event) :
    (machine.withPast past).record event = (machine.record event).withPast past := by
  rw [record, record, withPast, withPast, Journal.append_record]

theorem halt_withPast (outcome : Halt) :
    (machine.withPast past).halt outcome = (machine.halt outcome).withPast past :=
  rfl

theorem applyRule_withPast (situation : Situation) (action : Action) :
    (machine.withPast past).applyRule situation action =
      (machine.applyRule situation action).withPast past := by
  rw [applyRule, applyRule, withPast, withPast, Journal.append_record]

theorem setUp_withPast (definition : Definition) (table : Table) :
    (machine.withPast past).setUp definition table =
      (machine.setUp definition table).withPast past :=
  record_withPast { machine.setUp definition table with journal := machine.journal } past _

/-- Setting up takes nothing from the machine but its journal. -/
theorem setUp_eq_withPast (definition : Definition) (table : Table) :
    machine.setUp definition table = (new.setUp definition table).withPast machine.journal :=
  setUp_withPast { machine with journal := .empty } machine.journal definition table

end Past

theorem StepCase.withPast {machine : Machine} {result : Step × Machine}
    (h : StepCase machine result) (past : Journal) :
    StepCase (machine.withPast past) (result.1, result.2.withPast past) := by
  cases h with
  | halted hhalted =>
      rw [← record_withPast]
      exact .halted hhalted
  | rejects hrunning hnone =>
      rw [← record_withPast]
      exact .rejects hrunning hnone
  | accepts hrunning hsome hfinal =>
      rw [← record_withPast, ← halt_withPast, ← applyRule_withPast]
      exact .accepts hrunning hsome hfinal
  | moves hrunning hsome hfinal =>
      rw [← applyRule_withPast]
      exact .moves hrunning hsome hfinal

/-! No operation looks at the past, and all but a reset keep it. -/

section Operations

variable (machine : Machine) (past : Journal)

theorem step_withPast :
    (machine.withPast past).step = (machine.step.1, machine.step.2.withPast past) :=
  (machine.step_cases.withPast past).eq_step.symm

theorem run_withPast (limit : Nat) : (machine.withPast past).run limit =
    ((machine.run limit).1, (machine.run limit).2.withPast past) := by
  induction limit generalizing machine with
  | zero => rfl
  | succ limit ih =>
      have hstep := machine.step_withPast past
      by_cases hgoesOn : machine.step.1 = .goesOn
      · rw [run_succ_of_goesOn hgoesOn, run_succ_of_goesOn (by rw [hstep, hgoesOn]), hstep, ih]
      · rw [run_succ_of_halts hgoesOn, run_succ_of_halts (by rwa [hstep]), hstep]

theorem load_withPast (definition : Definition) : (machine.withPast past).load definition =
    (machine.load definition).map (·.withPast past) := by
  rw [load, load]
  cases (Source.readTable definition.rules).table with
  | error error => rfl
  | ok table => exact congrArg Except.ok (machine.setUp_withPast past definition table)

theorem reply_withPast (operation : Operation) :
    (machine.withPast past).reply operation = machine.reply operation := by
  cases operation with
  | load definition =>
      rw [reply, reply, load_withPast]
      cases machine.load definition <;> rfl
  | step => rw [reply, reply, step_withPast]
  | run limit => rw [reply, reply, run_withPast]
  | reset => rfl

theorem perform_withPast (operation : Operation) : (machine.withPast past).perform operation =
    (machine.perform operation).withPast (if operation = .reset then .empty else past) := by
  cases operation with
  | load definition =>
      rw [if_neg (by simp : Operation.load definition ≠ .reset), perform, perform, load_withPast]
      cases machine.load definition <;> rfl
  | step => rw [if_neg (by simp : Operation.step ≠ .reset), perform, perform, step_withPast]
  | run limit =>
      rw [if_neg (by simp : Operation.run limit ≠ .reset), perform, perform, run_withPast]
  | reset =>
      rw [if_pos rfl, withPast_empty]
      rfl

theorem performAll_withPast (operations : List Operation) :
    (machine.withPast past).performAll operations =
      (machine.performAll operations).withPast (if .reset ∈ operations then .empty else past) := by
  induction operations generalizing machine past with
  | nil => rfl
  | cons operation operations ih =>
      have hperform := machine.perform_withPast past operation
      rw [performAll, List.foldl_cons, hperform, ← performAll, ih]
      by_cases hreset : operation = .reset
      · simp [hreset, performAll]
      · simp [hreset, Ne.symm hreset, performAll]

theorem showings_withPast (operations : List Operation) :
    (machine.withPast past).showings operations = machine.showings operations := by
  induction operations generalizing machine past with
  | nil => rfl
  | cons operation operations ih =>
      rw [showings, showings, perform_withPast, reply_withPast, ih]
      rfl

end Operations

end Machine

end TapeMachine
