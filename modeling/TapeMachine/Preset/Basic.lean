import TapeMachine.Definition.Document
import TapeMachine.Preset.Texts

/-!
The built-in machines: their definitions, and their look-up by index and by name.
-/

namespace TapeMachine

/-- A built-in definition with the document it is read from. -/
structure Preset where
  definition : Definition
  source : String
deriving DecidableEq

namespace Preset

def ofSource (source : String) : Option Preset :=
  match Definition.ofText source with
  | .ok definition => some ⟨definition, source⟩
  | .error _ => none

def all : List Preset :=
  [exactlyOneZeroText, binaryIncrementText, evenOnesText, palindromeText, busyBeaverText].filterMap
    ofSource

def names : List String :=
  all.map (·.definition.displayName)

def atIndex (index : Nat) : Except Invalid Preset :=
  match all[index]? with
  | some preset => .ok preset
  | none => .error (.presetIndex index)

/-- Names are compared without regard to the case of ASCII letters. -/
def sameName (a b : String) : Bool :=
  a.toList.map Char.toLower == b.toList.map Char.toLower

def withName (name : String) : Except Invalid Preset :=
  match all.find? fun preset => sameName preset.definition.displayName name with
  | some preset => .ok preset
  | none => .error (.presetName name names)

/-- A preset as a listing shows it. -/
structure Info where
  index : Nat
  name : String
  input : String
  initial : String
  finals : List String
  states : NameSet
  ruleCount : Nat
deriving DecidableEq

def info (index : Nat) : Except Fault Info := do
  let definition := (← (atIndex index).mapError .invalid).definition
  let table ← (Source.readTable definition.rules).table.mapError .malformed
  return ⟨index, definition.displayName, definition.input, definition.initial, definition.finals,
    table.states, table.size⟩

end Preset

end TapeMachine
