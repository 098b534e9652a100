import TapeMachine.Source.SyntaxError
import TapeMachine.Text.Lines

/-!
What can go wrong before a machine runs. A running machine never fails: a situation without a rule
is an outcome and not a fault.
-/

namespace TapeMachine

/-- The greatest size of a definition text in bytes. -/
def maxDefinitionSize : Nat := 65536

/-- Why well-written text defines no machine. -/
inductive Invalid where
  | initialStateMissing
  | rulesMissing
  | longBlank (text : String)
  | presetIndex (index : Nat)
  | presetName (name : String) (available : List String)
deriving DecidableEq

namespace Invalid

def reason : Invalid → String
  | initialStateMissing => "An initial state is required"
  | rulesMissing => "At least one transition rule is required"
  | longBlank text => "Blank symbol must be a single character, got \"" ++ text ++ "\""
  | presetIndex index => "Preset index " ++ toString index ++ " out of range"
  | presetName name available =>
      "Preset '" ++ name ++ "' not found (available: " ++ Text.joinItems available ++ ")"

end Invalid

/-- Why the text of a file cannot be read. -/
inductive ReadProblem where
  | missing
  | isDirectory
  | notDirectory
  | longName
  | nulInName
  | invalidText
  | other (reason : String)
deriving DecidableEq

namespace ReadProblem

def reason : ReadProblem → String
  | missing => "No such file or directory (os error 2)"
  | isDirectory => "Is a directory (os error 21)"
  | notDirectory => "Not a directory (os error 20)"
  | longName => "File name too long (os error 36)"
  | nulInName => "file name contained an unexpected NUL byte"
  | invalidText => "stream did not contain valid UTF-8"
  | other reason => reason

end ReadProblem

inductive FileFault where
  | unreadable (path : String) (problem : ReadProblem)
  | oversized (path : String)
  | unreadableInput (problem : ReadProblem)
  | oversizedInput
deriving DecidableEq

namespace FileFault

def sizeRule : String :=
  "exceeds the maximum definition size of " ++ toString maxDefinitionSize ++ " bytes"

def reason : FileFault → String
  | unreadable path problem => "Failed to read file " ++ path ++ ": " ++ problem.reason
  | oversized path => "File " ++ path ++ " " ++ sizeRule
  | unreadableInput problem => "Failed to read input: " ++ problem.reason
  | oversizedInput => "Input " ++ sizeRule

end FileFault

inductive Fault where
  | malformed (error : Source.SyntaxError)
  | invalid (fault : Invalid)
  | file (fault : FileFault)
deriving DecidableEq

namespace Fault

def message : Fault → String
  | malformed error => error.message
  | invalid fault => "Definition validation error: " ++ fault.reason
  | file fault => "File error: " ++ fault.reason

end Fault

end TapeMachine
