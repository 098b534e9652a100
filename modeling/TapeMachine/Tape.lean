import TapeMachine.Rule

/-!
The tape: a stored block of cells in a two-way infinite row of blanks, and the head's place
relative to that block. Moving the head stores nothing. Writing outside the block stores the cells
between the block and the head as blanks, so the stored cells stay contiguous.
-/

namespace TapeMachine

/-- The blank symbol of a machine that names none. -/
def defaultBlank : Char := '_'

/-- The head's place counts from the first stored cell. It is negative on the left of the block. -/
structure Tape where
  cells : Array Char
  head : Int
  blank : Char
deriving DecidableEq

namespace Tape

/-- One cell for each character of the input, the head on the first. -/
def ofInput (input : String) (blank : Char) : Tape :=
  ⟨input.toList.toArray, 0, blank⟩

def empty (blank : Char) : Tape :=
  ⟨#[], 0, blank⟩

instance : Inhabited Tape := ⟨empty defaultBlank⟩

def readAt (tape : Tape) : Int → Char
  | .ofNat place => tape.cells.getD place tape.blank
  | .negSucc _ => tape.blank

def read (tape : Tape) : Char :=
  tape.readAt tape.head

/-- Whether the head stands on a stored cell. -/
def headStored (tape : Tape) : Bool :=
  0 ≤ tape.head && tape.head < tape.cells.size

def write (tape : Tape) (symbol : Char) : Tape :=
  match tape.head with
  | .ofNat place =>
      if place < tape.cells.size then
        { tape with cells := tape.cells.setIfInBounds place symbol }
      else
        let gap := Array.replicate (place - tape.cells.size) tape.blank
        { tape with cells := (tape.cells ++ gap).push symbol }
  | .negSucc gap =>
      { tape with cells := #[symbol] ++ Array.replicate gap tape.blank ++ tape.cells, head := 0 }

def shift (tape : Tape) (direction : Direction) : Tape :=
  { tape with head := tape.head + direction.offset }

@[simp] theorem readAt_shift (tape : Tape) (direction : Direction) (place : Int) :
    (tape.shift direction).readAt place = tape.readAt place :=
  rfl

/-- The stored cells as text. -/
def text (tape : Tape) : String :=
  String.ofList tape.cells.toList

end Tape

end TapeMachine
