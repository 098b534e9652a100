import TapeMachine.Fault
import TapeMachine.Source.RuleLine

/-!
Machine definitions and the raw text of their fields. A definition that comes from fields has an
initial state and at least one rule line. The rule lines are kept as text: whether each is a rule
shows when a machine is set up.
-/

namespace TapeMachine

structure Definition where
  name : Option String
  input : String
  initial : String
  finals : List String
  /-- The default blank symbol when there is none. -/
  blank : Option Char
  rules : List String
deriving DecidableEq

namespace Definition

def displayName (definition : Definition) : String :=
  definition.name.getD "Custom"

def withName (definition : Definition) (name : String) : Definition :=
  { definition with name := some name }

end Definition

/-- A line that begins with the comment sign is a comment unless it reads as a rule, so that the
sign can be the name of a state. -/
def isComment (line : List Char) : Bool :=
  line.head? = some '#' && !(Source.readRule line).toBool

/-- The rule lines of a text: trimmed, without empty lines and comments. -/
def ruleLines (text : String) : List String :=
  (((Text.lines text.toList).map Text.trim).filter fun line =>
    !line.isEmpty && !isComment line).map String.ofList

/-- The states of a comma-separated list. -/
def stateNames (text : String) : List String :=
  (Text.items text.toList).map String.ofList

/-- A blank symbol is one character, or nothing for the default. -/
def readBlank (text : String) : Except Invalid (Option Char) :=
  match Text.trim text.toList with
  | [] => .ok none
  | [symbol] => .ok (some symbol)
  | symbols => .error (.longBlank (String.ofList symbols))

/-- The fields of a definition as a user writes them. -/
structure Fields where
  input : String
  initial : String
  finals : String
  blank : String
  rules : String
deriving DecidableEq

def Definition.ofFields (fields : Fields) : Except Invalid Definition := do
  let initial := Text.trimmed fields.initial
  if initial.isEmpty then
    throw .initialStateMissing
  let rules := ruleLines fields.rules
  if rules.isEmpty then
    throw .rulesMissing
  let blank ← readBlank fields.blank
  return ⟨none, fields.input, initial, stateNames fields.finals, blank, rules⟩

end TapeMachine
