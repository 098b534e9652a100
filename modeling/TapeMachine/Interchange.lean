import TapeMachine.Configuration
import TapeMachine.Definition.Fields
import TapeMachine.Json.Decode

/-!
The JSON form of the library's data. Records are written as objects with their fields in the order
of declaration.
-/

namespace TapeMachine

namespace Direction

def jsonName : Direction → String
  | left => "Left"
  | right => "Right"

def toJson (direction : Direction) : Json :=
  .ofString direction.jsonName

def ofJson? (value : Json) : Option Direction :=
  value.asName? >>= fun name => [left, right].find? (·.jsonName == name)

end Direction

namespace Status

def toJson (status : Status) : Json :=
  .ofString status.text

def ofJson? (value : Json) : Option Status :=
  value.asName? >>= fun name => [idle, running, accepted, rejected].find? (·.text == name)

end Status

namespace Situation

def toJson (situation : Situation) : Json :=
  .ofMembers [("state", .ofString situation.state), ("symbol", .ofChar situation.symbol)]

def ofJson? (value : Json) : Option Situation := do
  match ← value.fields? ["state", "symbol"] with
  | [some state, some symbol] => return ⟨← state.asString?, ← symbol.asChar?⟩
  | _ => none

end Situation

namespace Action

def toJson (action : Action) : Json :=
  .ofMembers [("next_state", .ofString action.next), ("write", .ofChar action.write),
    ("direction", action.direction.toJson)]

def ofJson? (value : Json) : Option Action := do
  match ← value.fields? ["next_state", "write", "direction"] with
  | [some next, some write, some direction] =>
      return ⟨← next.asString?, ← write.asChar?, ← Direction.ofJson? direction⟩
  | _ => none

end Action

namespace Definition

def toJson (definition : Definition) : Json :=
  .ofMembers [("name", .ofOption .ofString definition.name), ("input", .ofString definition.input),
    ("initial_state", .ofString definition.initial),
    ("final_states", .array (definition.finals.map .ofString)),
    ("blank", .ofOption .ofChar definition.blank),
    ("rules", .array (definition.rules.map .ofString))]

/-- The name and the blank symbol may be left out. -/
def ofJson? (value : Json) : Option Definition := do
  match ← value.fields? ["name", "input", "initial_state", "final_states", "blank", "rules"] with
  | [name, some input, some initial, some finals, blank, some rules] =>
      return ⟨← (name.getD .null).asOption? Json.asString?, ← input.asString?, ← initial.asString?,
        ← finals.asStrings?, ← (blank.getD .null).asOption? Json.asChar?, ← rules.asStrings?⟩
  | _ => none

end Definition

def Configuration.toJson (config : Configuration) : Json :=
  .ofMembers [("tape", .array (config.tape.cells.toList.map .ofChar)),
    ("head", .ofInt config.tape.head), ("state", .ofString config.state),
    ("step_count", .ofInt config.steps), ("status", config.status.toJson),
    ("blank", .ofChar config.tape.blank)]

def Cell.toJson (cell : Cell) : Json :=
  .ofMembers [("index", .ofInt cell.place), ("symbol", .ofChar cell.symbol),
    ("is_head", .bool cell.isHead)]

end TapeMachine
