import TapeMachine.Definition.Fields

/-!
Definition documents: headers that name the fields, then the rules. Header values reach their field
as they stand after the colon and the spaces and tabs that follow it.
-/

namespace TapeMachine

open Source Grammar

/-- The field that a header sets. -/
inductive Slot where
  | name
  | input
  | initial
  | finals
  | blank
deriving DecidableEq

def Slot.ofKey : String → Option Slot
  | "name" => some name
  | "input" | "tape" => some input
  | "initial" => some initial
  | "final" | "finals" => some finals
  | "blank" => some blank
  | _ => none

/-- The values that the headers of a document give, in their order. -/
abbrev Headers := List (Slot × String)

namespace Headers

def value? (headers : Headers) (slot : Slot) : Option String :=
  headers.lookup slot

def value (headers : Headers) (slot : Slot) : String :=
  (headers.value? slot).getD ""

/-- Takes in a header. Its key must be known, and its field not set before. -/
def add (text : List Char) (headers : Headers) (header : Node Term) : Except SyntaxError Headers :=
  match header.parts.map fun part => String.ofList part.text with
  | [key, value] =>
      let faulty (cause : Cause) : SyntaxError := ⟨text, .span header.start header.stop, cause, none⟩
      match Slot.ofKey key with
      | none => .error (faulty (.unknownHeader key))
      | some slot =>
          if (headers.value? slot).isSome then .error (faulty (.repeatedHeader key))
          else .ok (headers ++ [(slot, value)])
  | _ => .ok headers

def ofNodes (text : List Char) (headers : List (Node Term)) : Except SyntaxError Headers :=
  headers.foldlM (add text) []

end Headers

/-- A document as its grammar divides it. -/
structure Document where
  headers : List (Node Term)
  rules : List String

namespace Document

/-- The headers and the rules in what a document consists of. -/
def ofNodes (nodes : List (Node Term)) : Document :=
  let parts := nodes.flatMap Node.parts
  ⟨parts.filter (·.name = .header),
    (parts.filter (·.name = .rule)).map fun node => String.ofList (Text.trim node.text)⟩

def ofCharacters (text : List Char) : Except SyntaxError Document :=
  (matchText Source.definition text).map ofNodes

end Document

namespace Definition

/-- A name that is not blank is given to the definition. -/
def named (definition : Definition) (name : Option String) : Definition :=
  match name.map Text.trimmed with
  | none => definition
  | some name => if name.isEmpty then definition else definition.withName name

def ofHeaders (headers : Headers) (rules : List String) : Except Invalid Definition := do
  let definition ← ofFields
    ⟨headers.value .input, headers.value .initial, headers.value .finals, headers.value .blank,
      Text.joinLines rules⟩
  return definition.named (headers.value? .name)

def ofCharacters (text : List Char) : Except Fault Definition := do
  let document ← (Document.ofCharacters text).mapError .malformed
  let headers ← (Headers.ofNodes text document.headers).mapError .malformed
  (ofHeaders headers document.rules).mapError .invalid

/-- Reads a definition document. -/
def ofText (text : String) : Except Fault Definition :=
  ofCharacters text.toList

end Definition

end TapeMachine
