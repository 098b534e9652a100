import TapeMachine.AutoRun.Basic

/-!
Runs that show the configurations they pass through: step by step, or at the pace of an automatic
run.
-/

namespace TapeMachine.CommandLine

/-- The number of cells shown on each side of the head. -/
def shownRadius : Nat := 10

/-- The cells around the head, the head's own in brackets. -/
def tapeText (config : Configuration) : String :=
  String.join ((config.window shownRadius).map fun cell =>
    if cell.isHead then "[" ++ cell.symbol.toString ++ "]" else " " ++ cell.symbol.toString ++ " ")

def stateLine (config : Configuration) : String :=
  "Step: " ++ toString config.steps ++ ", State: " ++ config.state ++ ", Head: " ++
    toString config.tape.head ++ ", Tape: " ++ tapeText config

/-- What a run showed, newest first, how it halted if it did, and the machine it left. -/
structure Trace (α : Type) where
  shown : List α
  halt : Option Halt
  machine : Machine

/-- Steps until the machine halts, and at most so often, and shows every configuration that an
action led to. Stepping a halted machine shows its configuration again. -/
def traceOnto {α : Type} (view : Configuration → α) (shown : List α) : Nat → Machine → Trace α
  | 0, machine => ⟨shown, none, machine⟩
  | limit + 1, machine =>
      match machine.step with
      | (.goesOn, next) => traceOnto view (view next.config :: shown) limit next
      | (.halts .rejected, next) => ⟨shown, some .rejected, next⟩
      | (.halts halt, next) => ⟨view next.config :: shown, some halt, next⟩

def trace {α : Type} (view : Configuration → α) (limit : Nat) (machine : Machine) : Trace α :=
  traceOnto view [] limit machine

/-- A paced run: what it showed, newest first, and whether its loop goes on. -/
structure Paced (α : Type) where
  run : AutoRun
  machine : Machine
  shown : List α
  goesOn : Bool

namespace Paced

variable {α : Type}

def start (tokens : Tokens) (interval : Nat) (machine : Machine) : Paced α :=
  ⟨.new interval (tokens.issue none).1, machine, [], true⟩

/-- Wakes up after some time. A configuration is shown when an action was applied. The loop ends
when the step count reached the limit or the run is no longer active. -/
def wake (view : Configuration → α) (limit : Nat) (tokens : Tokens) (paced : Paced α) (time : Nat) :
    Paced α :=
  let progress := paced.run.advance tokens paced.machine time
  let shown :=
    if progress.applied = 0 then paced.shown else view progress.machine.config :: paced.shown
  let limited : Bool := limit ≤ progress.machine.config.steps
  ⟨progress.run, progress.machine, shown, !limited && progress.run.isActive tokens⟩

/-- Wakes up until the loop ends, at most so often. The clock gives the time before each wake. -/
def loop (view : Configuration → α) (limit : Nat) (tokens : Tokens) (clock : Nat → Nat) :
    Nat → Nat → Paced α → Paced α
  | 0, _, paced => paced
  | bound + 1, turn, paced =>
      if paced.goesOn then
        loop view limit tokens clock bound (turn + 1) (paced.wake view limit tokens (clock turn))
      else paced

end Paced

end TapeMachine.CommandLine
