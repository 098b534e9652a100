import TapeMachine.Configuration
import TapeMachine.Definition.Fields
import TapeMachine.Journal

/-!
Machines and their steps. A machine accepts when an applied action enters a final state, and
rejects when no rule fits its situation. Once halted it stays so until it is loaded or reset.
-/

namespace TapeMachine

/-- What a call to step ended in, when it left the machine halted. -/
inductive Halt where
  | accepted
  | rejected
  | alreadyHalted
deriving DecidableEq

def Halt.text : Halt → String
  | accepted => "Accepted"
  | rejected => "Rejected"
  | alreadyHalted => "AlreadyHalted"

inductive Step where
  | goesOn
  | halts (halt : Halt)
deriving DecidableEq

namespace Step

/-- Whether the step applied an action. The step into a final state did. -/
def applied : Step → Bool
  | goesOn | halts .accepted => true
  | halts .rejected | halts .alreadyHalted => false

def text : Step → String
  | goesOn => "Continue"
  | halts halt => halt.text

end Step

/-- What loading sets and running keeps. -/
structure Program where
  initial : String
  finals : NameSet
  table : Table
deriving DecidableEq

structure Machine where
  program : Program
  tape : Tape
  state : String
  /-- The number of actions applied so far. -/
  steps : Nat
  /-- What the run ended in, once it did. -/
  outcome : Option Halt
  /-- Whether the machine was loaded since it was made or last reset. -/
  isLoaded : Bool
  journal : Journal
deriving DecidableEq

namespace Machine

/-- The number of steps that a run makes at most when no limit is given. -/
def defaultLimit : Nat := 10000

/-- A machine without rules that was never loaded. -/
def new : Machine :=
  ⟨⟨"", .empty, .empty⟩, default, "", 0, none, false, .empty⟩

def status (machine : Machine) : Status :=
  match machine.outcome with
  | some .accepted => .accepted
  | some .rejected | some .alreadyHalted => .rejected
  | none => if machine.isLoaded then .running else .idle

/-- What can be seen of a machine at one moment. -/
def config (machine : Machine) : Configuration :=
  ⟨machine.tape, machine.state, machine.steps, machine.status⟩

def situation (machine : Machine) : Situation :=
  ⟨machine.state, machine.tape.read⟩

def record (machine : Machine) (event : Event) : Machine :=
  { machine with journal := machine.journal.record event }

def halt (machine : Machine) (outcome : Halt) : Machine :=
  { machine with outcome := some outcome }

/-- Sets up the whole machine but its journal, which goes on. -/
def setUp (machine : Machine) (definition : Definition) (table : Table) : Machine :=
  let finals := NameSet.ofList definition.finals
  let loaded : Machine :=
    { machine with
      program := ⟨definition.initial, finals, table⟩
      tape := .ofInput definition.input (definition.blank.getD defaultBlank)
      state := definition.initial
      steps := 0
      outcome := none
      isLoaded := true }
  loaded.record (.started definition.input definition.initial finals.toList)

/-- Sets up a machine for a definition. A rule line that cannot be read leaves it as it was. -/
def load (machine : Machine) (definition : Definition) : Except Source.SyntaxError Machine := do
  let table ← (Source.readTable definition.rules).table
  return machine.setUp definition table

def isHalted (machine : Machine) : Bool :=
  machine.outcome.isSome

/-- Writes, changes the state and then moves the head. -/
def applyRule (machine : Machine) (situation : Situation) (action : Action) : Machine :=
  { machine with
    tape := (machine.tape.write action.write).shift action.direction
    state := action.next
    steps := machine.steps + 1
    journal := machine.journal.record (.applied situation action) }

def step (machine : Machine) : Step × Machine :=
  if machine.isHalted then
    (.halts .alreadyHalted, machine.record .alreadyHalted)
  else
    let situation := machine.situation
    match machine.program.table.find? situation with
    | none => (.halts .rejected, (machine.halt .rejected).record (.noRule situation))
    | some action =>
        let moved := machine.applyRule situation action
        if action.next ∈ moved.program.finals then
          (.halts .accepted, (moved.halt .accepted).record (.accepted action.next))
        else (.goesOn, moved)

/-- Steps until the machine halts, and at most so often. Gives the last step. -/
def run : Nat → Machine → Step × Machine
  | 0, machine => (.goesOn, machine)
  | limit + 1, machine =>
      match machine.step with
      | (.goesOn, next) => run limit next
      | stopped => stopped

/-- Clears the run and keeps the program and the blank symbol. The journal starts anew. -/
def reset (machine : Machine) : Machine :=
  { machine with
    tape := .empty machine.tape.blank
    state := ""
    steps := 0
    outcome := none
    isLoaded := false
    journal := Journal.empty.record .reset }

end Machine

end TapeMachine
