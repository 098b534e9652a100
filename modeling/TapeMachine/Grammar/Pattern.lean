import TapeMachine.Text.Blank

/-!
Patterns that describe texts. Between the parts of a sequence and between repetitions there may be
spaces and tabs, except inside a joined pattern. A named pattern appears in what a match reports,
both as a part of the matched text and as a name that could have stood at a place.
-/

namespace TapeMachine.Grammar

variable {Name : Type}

inductive Pattern (Name : Type) where
  | start
  | finish
  | any
  | oneOf (allowed : Char → Bool)
  | exactly (text : List Char)
  | seq (first second : Pattern Name)
  | either (first second : Pattern Name)
  | optional (body : Pattern Name)
  | many (body : Pattern Name)
  | ahead (body : Pattern Name)
  | notAhead (body : Pattern Name)
  | named (name : Name) (joined : Bool) (body : Pattern Name)

/-- The body once and then as often as it matches. -/
def Pattern.oneOrMore (body : Pattern Name) : Pattern Name :=
  .seq body (.many body)

/-- A place in a text: the characters that follow it, and the number of those before it. -/
structure Cursor where
  rest : List Char
  offset : Nat
deriving DecidableEq

namespace Cursor

def ofText (text : List Char) : Cursor :=
  ⟨text, 0⟩

def advance (cursor : Cursor) (count : Nat) (rest : List Char) : Cursor :=
  ⟨rest, cursor.offset + count⟩

/-- The first place from here on where no space or tab follows. -/
def skipGap (cursor : Cursor) : Cursor :=
  let gap := cursor.rest.takeWhile Text.isGap
  cursor.advance gap.length (cursor.rest.dropWhile Text.isGap)

end Cursor

/-- A named part of a matched text, with the named parts inside it. -/
inductive Node (Name : Type) where
  | mk (name : Name) (start : Nat) (text : List Char) (parts : List (Node Name))

namespace Node

def name : Node Name → Name
  | mk name _ _ _ => name

def start : Node Name → Nat
  | mk _ start _ _ => start

def text : Node Name → List Char
  | mk _ _ text _ => text

def parts : Node Name → List (Node Name)
  | mk _ _ _ parts => parts

def stop (node : Node Name) : Nat :=
  node.start + node.text.length

end Node

end TapeMachine.Grammar
