import TapeMachine.CommandLine.Options
import TapeMachine.Definition.File
import TapeMachine.Machine.Basic
import TapeMachine.Preset.Basic

/-!
The definition that the options select: one from a file, a preset or the input, changed by the
options that name a field, or one made of those fields alone.
-/

namespace TapeMachine.CommandLine

/-- What the program can read: the files by their paths, and its input unless that is a
terminal. -/
structure Surroundings where
  file : String → Except ReadProblem ByteArray
  input : Option ByteArray

/-- The field texts given in the options. -/
structure Overrides where
  input : Option String
  initial : Option String
  finals : Option String
  blank : Option String
  rules : Option String
deriving DecidableEq

namespace Overrides

/-- Changes the given fields of a definition. -/
def apply (overrides : Overrides) (base : Definition) : Except Invalid Definition := do
  let blank ← overrides.blank.elim (.ok base.blank) readBlank
  return { base with
    input := overrides.input.getD base.input
    initial := overrides.initial.elim base.initial Text.trimmed
    finals := overrides.finals.elim base.finals stateNames
    blank := blank
    rules := overrides.rules.elim base.rules ruleLines }

/-- The fields as given, and empty where they are not. -/
def fields (overrides : Overrides) : Fields :=
  ⟨overrides.input.getD "", overrides.initial.getD "", overrides.finals.getD "",
    overrides.blank.getD "", overrides.rules.getD ""⟩

/-- Changes a definition, or makes one of the given fields when there is none. -/
def complete (overrides : Overrides) : Option Definition → Except Invalid Definition
  | some base => overrides.apply base
  | none => Definition.ofFields overrides.fields

end Overrides

namespace Options

/-- The definition to start from. The input is read when neither a definition nor rules are named. -/
def base (options : Options) (around : Surroundings) : Except Fault (Option Definition) :=
  match options.program, options.preset, options.rules, around.input with
  | some path, _, _, _ => (Definition.ofFile path (around.file path)).map some
  | none, some name, _, _ => ((Preset.withName name).mapError .invalid).map (some ·.definition)
  | none, none, none, some bytes => (inputText (.ok bytes) >>= Definition.ofText).map some
  | none, none, _, _ => .ok none

/-- Whether the definition comes from the input. A listing needs none. -/
def readsInput (options : Options) : Bool :=
  !options.list && options.program.isNone && options.preset.isNone && options.rules.isNone

/-- The files that are read. -/
def paths (options : Options) : List String :=
  if options.list then [] else options.program.toList ++ options.rules.toList

/-- The rules option names a file. -/
def overrides (options : Options) (around : Surroundings) : Except Fault Overrides := do
  let rules ← options.rules.mapM fun path => fileText path (around.file path)
  return ⟨options.input, options.initial, options.finals, options.blank, rules⟩

def definition (options : Options) (around : Surroundings) : Except Fault Definition := do
  let base ← options.base around
  let overrides ← options.overrides around
  (overrides.complete base).mapError .invalid

/-- The loaded machine. -/
def machine (options : Options) (around : Surroundings) : Except Fault Machine := do
  let definition ← options.definition around
  (Machine.new.load definition).mapError .malformed

end Options

end TapeMachine.CommandLine
