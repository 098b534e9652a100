import TapeMachine.Rule
import TapeMachine.Text.Lines

/-!
The journal: what a machine did, in order. It is written for readers and never read back.
-/

namespace TapeMachine

inductive Event where
  | started (input initial : String) (finals : List String)
  | applied (situation : Situation) (action : Action)
  | noRule (situation : Situation)
  | accepted (state : String)
  | alreadyHalted
  | reset
deriving DecidableEq

namespace Event

def text : Event → String
  | started input initial finals =>
      "Machine initialized with input \"" ++ input ++ "\" | initial state: " ++ initial ++
        " | final states: " ++ Text.joinItems finals
  | applied situation action => situation.text ++ " → " ++ action.text
  | noRule situation => "No transition for " ++ situation.text
  | accepted state => "Machine accepted the input in final state " ++ state
  | alreadyHalted => "Machine has already halted"
  | reset => "Machine reset"

/-- The event as a line of the journal. Dashes stand where a clock time would. -/
def line (event : Event) : String :=
  "[--:--:--] " ++ event.text

end Event

structure Journal where
  events : Array Event
deriving DecidableEq

namespace Journal

def empty : Journal := ⟨#[]⟩

instance : Inhabited Journal := ⟨empty⟩

def record (journal : Journal) (event : Event) : Journal :=
  ⟨journal.events.push event⟩

def size (journal : Journal) : Nat :=
  journal.events.size

def last? (journal : Journal) : Option Event :=
  journal.events.back?

def lines (journal : Journal) : List String :=
  journal.events.toList.map Event.line

/-- The events after the first so many. -/
def since (journal : Journal) (count : Nat) : List Event :=
  (journal.events.extract count).toList

end Journal

end TapeMachine
