import TapeMachine.Tape

/-!
Configurations: the tape, the state, the number of applied actions, and whether the machine runs.
A window shows the stored cells near the head and always the head's own cell.
-/

namespace TapeMachine

inductive Status where
  /-- Not started since it was made or last reset. -/
  | idle
  | running
  | accepted
  | rejected
deriving DecidableEq

namespace Status

def isHalted : Status → Bool
  | accepted | rejected => true
  | idle | running => false

def text : Status → String
  | idle => "Idle"
  | running => "Running"
  | accepted => "Accepted"
  | rejected => "Rejected"

end Status

structure Configuration where
  tape : Tape
  state : String
  steps : Nat
  status : Status
deriving DecidableEq

/-- A cell of a window: its place counts as the head's does. -/
structure Cell where
  place : Int
  symbol : Char
  isHead : Bool
deriving DecidableEq

namespace Configuration

/-- A radius is a signed number of 64 bits, so one of 2^63 or more is negative. -/
def signedRadius (radius : Nat) : Int :=
  Int.bmod (Int.ofNat radius) 0x10000000000000000

/-- The stored cells from one place up to another. -/
def cellsBetween (tape : Tape) (first last : Int) : List Cell :=
  (List.range (last - first).toNat).map fun (k : Nat) =>
    let place := first + k
    ⟨place, tape.readAt place, place = tape.head⟩

/-- The stored cells within a radius of the head. A head outside the stored cells is added as a
blank cell at its end. -/
def window (config : Configuration) (radius : Nat) : List Cell :=
  let tape := config.tape
  let reach := signedRadius radius
  let cells := cellsBetween tape (max (tape.head - reach) 0)
    (min (tape.head + reach + 1) tape.cells.size)
  if tape.headStored then cells
  else
    let headCell : Cell := ⟨tape.head, tape.blank, true⟩
    if tape.head < 0 then headCell :: cells else cells ++ [headCell]

end Configuration

end TapeMachine
