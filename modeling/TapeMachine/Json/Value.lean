/-!
JSON values. A number keeps its written form. A text is missing where it names an unpaired
surrogate: such a text can be read and skipped, but not used.
-/

namespace TapeMachine

inductive Json where
  | null
  | bool (value : Bool)
  | number (literal : String)
  | text (value : Option String)
  | array (items : List Json)
  | object (members : List (Option String × Json))

namespace Json

def ofString (value : String) : Json :=
  .text (some value)

def ofChar (value : Char) : Json :=
  ofString value.toString

def ofInt (value : Int) : Json :=
  .number (toString value)

def ofOption {α : Type} (ofValue : α → Json) : Option α → Json
  | none => null
  | some value => ofValue value

def ofMembers (members : List (String × Json)) : Json :=
  .object (members.map fun member => (some member.1, member.2))

end Json

end TapeMachine
