import TapeMachine.Proofs.Machine.Step
import TapeMachine.Proofs.Tape.View
import Mathlib.Logic.Function.Basic

/-!
The textbook machine: a deterministic machine on a tape with a cell for every integer, given by its
transition function and its final states. It ends as accepted when a transition enters a final
state, and as rejected when there is no transition. The main statement says that a machine that was
loaded stays in step with the textbook machine of its definition, however often it is stepped.
-/

namespace TapeMachine

namespace Textbook

structure Machine where
  initial : String
  isFinal : String → Bool
  blank : Char
  transition : Situation → Option Action

structure Configuration where
  state : String
  cells : Int → Char
  head : Int

inductive Verdict where
  | running
  | accepted
  | rejected
deriving DecidableEq

/-- A run so far: where it is, how many transitions it applied, how many steps it made, the one that
found no transition counted, and whether it ended. -/
structure Run where
  config : Configuration
  applied : Nat
  time : Nat
  verdict : Verdict

namespace Configuration

def situation (config : Configuration) : Situation :=
  ⟨config.state, config.cells config.head⟩

def apply (config : Configuration) (action : Action) : Configuration :=
  ⟨action.next, Function.update config.cells config.head action.write,
    config.head + action.direction.offset⟩

end Configuration

namespace Machine

/-- The input from cell zero on, blanks elsewhere, and the head on cell zero. -/
def start (machine : Machine) (input : String) : Run :=
  ⟨⟨machine.initial,
    fun place => if 0 ≤ place then input.toList.getD place.toNat machine.blank else machine.blank,
    0⟩, 0, 0, .running⟩

/-- One step more. A run that ended makes none. -/
def next? (machine : Machine) (run : Run) : Option Run :=
  match run.verdict with
  | .accepted | .rejected => none
  | .running =>
      match machine.transition run.config.situation with
      | none => some { run with time := run.time + 1, verdict := .rejected }
      | some action =>
          some ⟨run.config.apply action, run.applied + 1, run.time + 1,
            if machine.isFinal action.next then .accepted else .running⟩

/-- The run after so many steps, or at its end where that comes first. -/
def after (machine : Machine) (input : String) : Nat → Run
  | 0 => machine.start input
  | count + 1 =>
      (machine.next? (machine.after input count)).getD (machine.after input count)

/-- The run ends with the step of that number. -/
def EndsAt (machine : Machine) (input : String) (time : Nat) : Prop :=
  (machine.after input time).verdict ≠ .running ∧
    ∀ earlier < time, (machine.after input earlier).verdict = .running

end Machine

namespace Verdict

def status : Verdict → Status
  | running => .running
  | accepted => .accepted
  | rejected => .rejected

def step : Verdict → Step
  | running => .goesOn
  | accepted => .halts .accepted
  | rejected => .halts .rejected

end Verdict

/-- What so many calls to step ended in: the machine went on until its run ended, said so once, and
was found halted by every later call. -/
def Run.answers (run : Run) (calls : Nat) : List Step :=
  match run.verdict with
  | .running => List.replicate calls .goesOn
  | ended =>
      List.replicate (run.time - 1) .goesOn ++ ended.step ::
        List.replicate (calls - run.time) (.halts .alreadyHalted)

theorem Machine.next?_eq_none_iff (machine : Machine) (run : Run) :
    machine.next? run = none ↔ run.verdict ≠ .running := by
  unfold next?
  cases hverdict : run.verdict with
  | running => cases machine.transition run.config.situation <;> simp
  | accepted => simp
  | rejected => simp

theorem Machine.after_add_of_ended {machine : Machine} {input : String} {count : Nat}
    (h : (machine.after input count).verdict ≠ .running) (more : Nat) :
    machine.after input (count + more) = machine.after input count := by
  induction more with
  | zero => rfl
  | succ more ih =>
      rw [← Nat.add_assoc, after, ih, (machine.next?_eq_none_iff _).2 h, Option.getD_none]

theorem Machine.EndsAt.after_eq_min {machine : Machine} {input : String} {time : Nat}
    (h : machine.EndsAt input time) (count : Nat) :
    machine.after input count = machine.after input (min count time) := by
  by_cases hle : count ≤ time
  · rw [Nat.min_eq_left hle]
  · have hcount : time + (count - time) = count := by omega
    rw [Nat.min_eq_right (by omega), ← hcount, after_add_of_ended h.1]

/-- A run makes no step after its end, and as long as it goes on one for each count. -/
theorem Machine.time_after (machine : Machine) (input : String) (count : Nat) :
    (machine.after input count).time ≤ count ∧
      ((machine.after input count).verdict = .running → (machine.after input count).time = count) ∧
      ((machine.after input count).verdict ≠ .running → 0 < (machine.after input count).time) := by
  induction count with
  | zero => exact ⟨Nat.le_refl 0, fun _ => rfl, fun h => absurd rfl h⟩
  | succ count ih =>
      obtain ⟨hle, hrunning, hended⟩ := ih
      rw [after]
      generalize machine.after input count = run at *
      cases hverdict : run.verdict with
      | accepted | rejected =>
          have hnone : machine.next? run = none := by
            rw [next?_eq_none_iff, hverdict]
            simp
          rw [hnone, Option.getD_none, hverdict]
          exact ⟨by omega, by simp, fun h => hended (hverdict ▸ h)⟩
      | running =>
          have htime := hrunning hverdict
          unfold next?
          rw [hverdict]
          cases machine.transition run.config.situation with
          | none => simp [htime]
          | some action => simp [htime]

theorem Machine.answers_after_succ (machine : Machine) (input : String) (count : Nat) :
    (machine.after input (count + 1)).answers (count + 1) =
      (machine.after input count).answers count ++
        [if (machine.after input count).verdict = .running
          then (machine.after input (count + 1)).verdict.step else .halts .alreadyHalted] := by
  obtain ⟨hle, hrunning, -⟩ := machine.time_after input count
  rw [after]
  generalize machine.after input count = run at *
  have hnone := machine.next?_eq_none_iff run
  cases hverdict : run.verdict with
  | accepted | rejected =>
      have hmore : count + 1 - run.time = count - run.time + 1 := by omega
      rw [hnone.2 (by simp [hverdict]), Option.getD_none]
      simp [Run.answers, hverdict, hmore, List.replicate_succ']
  | running =>
      have htime := hrunning hverdict
      unfold next?
      rw [hverdict]
      cases machine.transition run.config.situation with
      | none => simp [Run.answers, hverdict, htime]
      | some action =>
          cases hfinal : machine.isFinal action.next with
          | true => simp [Run.answers, hverdict, htime, hfinal]
          | false => simp [Run.answers, hverdict, hfinal, Verdict.step, List.replicate_succ']

end Textbook

/-- The program is that of a textbook machine. -/
structure Program.Implements (program : Program) (textbook : Textbook.Machine) : Prop where
  transition : ∀ situation, program.table.find? situation = textbook.transition situation
  finals : ∀ name, name ∈ program.finals ↔ textbook.isFinal name = true

namespace Machine

/-- The machine stands where a textbook run does. The tapes are compared by what their heads see,
since the machine numbers its cells anew and the textbook machine never does. -/
structure Simulates (machine : Machine) (run : Textbook.Run) : Prop where
  state : machine.state = run.config.state
  steps : machine.steps = run.applied
  cells : ∀ distance, machine.tape.readAt (machine.tape.head + distance) =
    run.config.cells (run.config.head + distance)
  status : machine.status = run.verdict.status

namespace Simulates

variable {machine : Machine} {run : Textbook.Run}

theorem situation (h : Simulates machine run) : machine.situation = run.config.situation := by
  have hread := h.cells 0
  rw [Int.add_zero, Int.add_zero] at hread
  rw [Machine.situation, Textbook.Configuration.situation, h.state, Tape.read, hread]

theorem ended_iff (h : Simulates machine run) :
    machine.isHalted = true ↔ run.verdict ≠ .running := by
  rw [isHalted_eq_status, h.status]
  cases run.verdict <;> simp [Textbook.Verdict.status, Status.isHalted]

theorem running_of_not_halted (h : Simulates machine run) (hrunning : machine.isHalted = false) :
    run.verdict = .running := by
  by_contra hne
  rw [h.ended_iff.2 hne] at hrunning
  contradiction

/-- An applied action changes both tapes alike, whatever cells the machine had to store for it. -/
theorem cells_apply (h : Simulates machine run) (action : Action) (distance : Int) :
    ((machine.tape.write action.write).shift action.direction).view distance =
      (run.config.apply action).cells ((run.config.apply action).head + distance) := by
  have hview : ∀ distance, machine.tape.view distance =
      run.config.cells (run.config.head + distance) := h.cells
  have hplace : run.config.head + action.direction.offset + distance =
      run.config.head + (action.direction.offset + distance) := by omega
  rw [Tape.view_shift, Tape.view_write, hview]
  simp only [Textbook.Configuration.apply, Function.update_apply, hplace]
  split
  · next hzero => rw [hzero, Int.add_zero, if_pos rfl]
  · next hne => rw [if_neg (by omega)]

end Simulates

/-- One call to step is one step of the textbook run, or finds that it ended. -/
theorem StepCase.simulates {machine : Machine} {textbook : Textbook.Machine} {run : Textbook.Run}
    {result : Step × Machine} (hstep : StepCase machine result)
    (himp : machine.program.Implements textbook) (h : Simulates machine run) :
    Simulates result.2 ((textbook.next? run).getD run) ∧
      result.1 = if run.verdict = .running then ((textbook.next? run).getD run).verdict.step
        else .halts .alreadyHalted := by
  have hsituation := h.situation
  cases hstep with
  | halted hhalted =>
      have hverdict := h.ended_iff.1 hhalted
      rw [(textbook.next?_eq_none_iff run).2 hverdict, if_neg hverdict]
      exact ⟨⟨h.state, h.steps, h.cells, h.status⟩, rfl⟩
  | rejects hrunning hnone =>
      have hverdict := h.running_of_not_halted hrunning
      rw [himp.transition, hsituation] at hnone
      simp only [Textbook.Machine.next?, hverdict, hnone, Option.getD_some]
      exact ⟨⟨h.state, h.steps, h.cells, rfl⟩, rfl⟩
  | @accepts action hrunning hsome hfinal =>
      have hverdict := h.running_of_not_halted hrunning
      rw [himp.transition, hsituation] at hsome
      rw [himp.finals] at hfinal
      simp only [Textbook.Machine.next?, hverdict, hsome, hfinal, Option.getD_some]
      exact ⟨⟨rfl, congrArg (· + 1) h.steps, h.cells_apply action, rfl⟩, rfl⟩
  | @moves action hrunning hsome hfinal =>
      have hverdict := h.running_of_not_halted hrunning
      have hstatus := h.status
      rw [himp.transition, hsituation] at hsome
      rw [himp.finals] at hfinal
      rw [hverdict] at hstatus
      simp only [Textbook.Machine.next?, hverdict, hsome, hfinal, Option.getD_some]
      exact ⟨⟨rfl, congrArg (· + 1) h.steps, h.cells_apply action, hstatus⟩, rfl⟩

/-- What a definition says in textbook terms, once its rule lines are read as a table. -/
def textbook (definition : Definition) (table : Table) : Textbook.Machine :=
  ⟨definition.initial, fun name => definition.finals.contains name,
    definition.blank.getD defaultBlank, table.find?⟩

theorem setUp_implements (machine : Machine) (definition : Definition) (table : Table) :
    (machine.setUp definition table).program.Implements (textbook definition table) :=
  ⟨fun _ => rfl, fun _ => NameSet.mem_ofList.trans List.contains_iff_mem.symm⟩

theorem setUp_simulates (machine : Machine) (definition : Definition) (table : Table) :
    Simulates (machine.setUp definition table)
      ((textbook definition table).start definition.input) := by
  refine ⟨rfl, rfl, fun distance => ?_, rfl⟩
  have hview := Tape.view_ofInput definition.input (definition.blank.getD defaultBlank) distance
  simp only [textbook, Textbook.Machine.start, Int.zero_add]
  exact hview

theorem Simulates.stepTimes {machine : Machine} {textbook : Textbook.Machine} {input : String}
    (himp : machine.program.Implements textbook) (h : Simulates machine (textbook.start input))
    (count : Nat) :
    Simulates (machine.stepTimes count).2 (textbook.after input count) ∧
      (machine.stepTimes count).1 = (textbook.after input count).answers count := by
  induction count with
  | zero => exact ⟨h, rfl⟩
  | succ count ih =>
      obtain ⟨hsim, hanswers⟩ := ih
      have himp' : (machine.stepTimes count).2.program.Implements textbook := by
        rwa [program_stepTimes]
      obtain ⟨hnext, hanswer⟩ := (step_cases _).simulates himp' hsim
      refine ⟨hnext, ?_⟩
      rw [textbook.answers_after_succ, ← hanswers, Textbook.Machine.after, ← hanswer]
      rfl

/-- A machine that was loaded, on whatever machine it was, follows the textbook machine of its
definition: after any number of steps it shows the textbook run after so many steps, or after those
to its end if that comes first, and its answers are those that the run calls for. -/
theorem load_simulates (machine : Machine) {definition : Definition} {table : Table}
    (h : (Source.readTable definition.rules).table = .ok table) :
    ∃ loaded, machine.load definition = .ok loaded ∧ ∀ count,
      let run := (textbook definition table).after definition.input count
      Simulates (loaded.stepTimes count).2 run ∧
      (loaded.stepTimes count).1 = run.answers count ∧
      ∀ time, (textbook definition table).EndsAt definition.input time →
        run = (textbook definition table).after definition.input (min count time) := by
  refine ⟨_, load_eq_ok_iff.2 ⟨table, h, rfl⟩, fun count => ?_⟩
  obtain ⟨hsim, hanswers⟩ := (machine.setUp_simulates definition table).stepTimes
    (machine.setUp_implements definition table) count
  exact ⟨hsim, hanswers, fun _ hends => hends.after_eq_min count⟩

/-- A machine that leaves its input on the left, writes there and comes back. -/
def outAndBack : Definition :=
  ⟨none, "a", "q", ["f"], none, ["q,a->p,b,L", "p,_ → f,c,R"]⟩

def outAndBackTable : Table :=
  (Table.empty.insert ⟨⟨"q", 'a'⟩, ⟨"p", 'b', .left⟩⟩).insert ⟨⟨"p", '_'⟩, ⟨"f", 'c', .right⟩⟩

theorem load_simulates_outAndBack :
    (Source.readTable outAndBack.rules).table = .ok outAndBackTable ∧
    ∃ loaded, new.load outAndBack = .ok loaded ∧
      Simulates (loaded.stepTimes 3).2 ((textbook outAndBack outAndBackTable).after "a" 3) ∧
      (loaded.stepTimes 3).1 = [.goesOn, .halts .accepted, .halts .alreadyHalted] := by
  have htable : (Source.readTable outAndBack.rules).table = .ok outAndBackTable := by rfl
  obtain ⟨loaded, hload, hafter⟩ := load_simulates new htable
  obtain ⟨hsim, hanswers, -⟩ := hafter 3
  exact ⟨htable, loaded, hload, hsim, hanswers⟩

end Machine

end TapeMachine
