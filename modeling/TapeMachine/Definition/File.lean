import TapeMachine.Definition.Document
import TapeMachine.Files.Path

/-!
Definition documents as bytes, from a named file or from an input without a name. Both are refused
when they are longer than a definition may be or are not valid text. A file also lends its name to
a definition that has none.
-/

namespace TapeMachine

def decodeText (bytes : ByteArray) : Except ReadProblem String :=
  match String.fromUTF8? bytes with
  | some text => .ok text
  | none => .error .invalidText

/-- The text of a file, whatever its size. -/
def fileText (path : String) (content : Except ReadProblem ByteArray) : Except Fault String :=
  (content >>= decodeText).mapError fun problem => .file (.unreadable path problem)

namespace Definition

/-- The definition takes the stem of the path as its name when it has none. -/
def orNamed (definition : Definition) (path : String) : Definition :=
  match definition.name, Files.stem? path with
  | none, some stem => definition.withName stem
  | _, _ => definition

/-- Reads a definition from what is found at a path. The size is checked before the text. -/
def ofFile (path : String) (content : Except ReadProblem ByteArray) : Except Fault Definition := do
  let bytes ← content.mapError fun problem => .file (.unreadable path problem)
  if maxDefinitionSize < bytes.size then
    throw (.file (.oversized path))
  let definition ← ofText (← fileText path (.ok bytes))
  return definition.orNamed path

end Definition

/-- The text of an input. One byte more than a definition may have is read, so the text is checked
before the size. -/
def inputText (content : Except ReadProblem ByteArray) : Except Fault String := do
  let bytes ← content.mapError fun problem => .file (.unreadableInput problem)
  let text ← (decodeText (bytes.extract 0 (maxDefinitionSize + 1))).mapError
    fun problem => .file (.unreadableInput problem)
  if maxDefinitionSize < text.utf8ByteSize then
    throw (.file .oversizedInput)
  return text

end TapeMachine
