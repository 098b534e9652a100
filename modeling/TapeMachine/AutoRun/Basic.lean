import TapeMachine.AutoRun.Token
import TapeMachine.Machine.Notice

/-!
Automatic runs: a machine stepped at a fixed interval. A run has no clock. Its caller says how much
time went by, and the run makes the steps that became due, the first one at once. Times are in
nanoseconds.
-/

namespace TapeMachine

def millisecond : Nat := 1000000

inductive Phase where
  /-- The first step is made as soon as the run is told of any time. -/
  | pending
  | active
  /-- A step was not applied, or it halted the machine. -/
  | finished
  | cancelled
deriving DecidableEq

def Phase.text : Phase → String
  | pending => "Pending"
  | active => "Active"
  | finished => "Finished"
  | cancelled => "Cancelled"

structure AutoRun where
  interval : Nat
  /-- The time that went by since the last step. -/
  elapsed : Nat
  phase : Phase
  token : Token
  millisecond_le : millisecond ≤ interval
deriving DecidableEq

namespace AutoRun

def defaultInterval : Nat := 500 * millisecond

/-- A run that stops when its token is cancelled. Its interval is at least a millisecond. -/
def new (interval : Nat) (token : Token) : AutoRun :=
  ⟨max interval millisecond, 0, .pending, token, Nat.le_max_right ..⟩

/-- Whether the run will make further steps. -/
def isActive (run : AutoRun) (tokens : Tokens) : Bool :=
  (run.phase = .pending || run.phase = .active) && !tokens.isCancelled run.token

/-- The time left until the next step. -/
def nextDue (run : AutoRun) : Nat :=
  if run.phase = .pending then 0 else run.interval - run.elapsed

def cancel (run : AutoRun) (tokens : Tokens) : AutoRun × Tokens :=
  ({ run with phase := .cancelled }, tokens.cancel run.token)

end AutoRun

/-- A run, its machine, and the number of actions applied so far. -/
structure Progress where
  run : AutoRun
  machine : Machine
  applied : Nat
deriving DecidableEq

namespace Progress

/-- Makes one step, unless the run is cancelled. -/
def fire (tokens : Tokens) (progress : Progress) : Progress :=
  if tokens.isCancelled progress.run.token then
    { progress with run.phase := .cancelled }
  else
    let (step, machine) := progress.machine.step
    let finished := !step.applied || machine.isHalted
    { run := if finished then { progress.run with phase := .finished } else progress.run
      machine := machine
      applied := progress.applied + step.applied.toNat }

/-- Makes at most so many of the steps that are due. -/
def fireDue (tokens : Tokens) : Nat → Progress → Progress
  | 0, progress => progress
  | count + 1, progress =>
      let run := progress.run
      if run.phase = .active && run.interval ≤ run.elapsed then
        let left := { run with elapsed := run.elapsed - run.interval }
        fireDue tokens count (fire tokens { progress with run := left })
      else progress

end Progress

namespace AutoRun

/-- Lets time go by. The first call makes one step whatever the time, and later calls one step for
each full interval. -/
def advance (run : AutoRun) (tokens : Tokens) (machine : Machine) (time : Nat) : Progress :=
  let progress : Progress :=
    match run.phase with
    | .pending => Progress.fire tokens ⟨{ run with phase := .active }, machine, 0⟩
    | .active => ⟨{ run with elapsed := run.elapsed + time }, machine, 0⟩
    | .finished | .cancelled => ⟨run, machine, 0⟩
  progress.fireDue tokens (progress.run.elapsed / progress.run.interval)

/-- What an advance tells besides the machine's own notices. -/
def advanceNotices (before after : AutoRun) : List Notice :=
  if before.phase = after.phase then []
  else match after.phase with
    | .finished => [.runFinished]
    | .cancelled => [.runCancelled]
    | .pending | .active => []

end AutoRun

end TapeMachine
