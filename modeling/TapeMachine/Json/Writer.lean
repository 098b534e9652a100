import TapeMachine.Json.Text
import TapeMachine.Json.Value

/-!
Writing JSON, either without any space or with a line for each item and member, indented by two
spaces for each level.
-/

namespace TapeMachine.Json

/-- A text that names an unpaired surrogate is written as one. -/
def quoteText (value : Option String) : String :=
  value.elim "\"\\ud800\"" quote

mutual

def writeOnto (out : String) : Json → String
  | null => out ++ "null"
  | bool value => out ++ toString value
  | number literal => out ++ literal
  | text value => out ++ quoteText value
  | array items => writeItems (out ++ "[") items ++ "]"
  | object members => writeMembers (out ++ "\x7b") members ++ "\x7d"

def writeItems (out : String) : List Json → String
  | [] => out
  | [item] => writeOnto out item
  | item :: next :: rest => writeItems (writeOnto out item ++ ",") (next :: rest)

def writeMembers (out : String) : List (Option String × Json) → String
  | [] => out
  | [(key, value)] => writeOnto (out ++ quoteText key ++ ":") value
  | (key, value) :: next :: rest =>
      writeMembers (writeOnto (out ++ quoteText key ++ ":") value ++ ",") (next :: rest)

end

/-- The value on one line, without spaces. -/
def compact (value : Json) : String :=
  writeOnto "" value

def newLine (depth : Nat) : String :=
  "\n" ++ String.ofList (List.replicate (2 * depth) ' ')

mutual

def layOutOnto (depth : Nat) (out : String) : Json → String
  | null => out ++ "null"
  | bool value => out ++ toString value
  | number literal => out ++ literal
  | text value => out ++ quoteText value
  | array [] => out ++ "[]"
  | array (item :: rest) => layOutItems depth (out ++ "[") (item :: rest) ++ newLine depth ++ "]"
  | object [] => out ++ "\x7b\x7d"
  | object (member :: rest) =>
      layOutMembers depth (out ++ "\x7b") (member :: rest) ++ newLine depth ++ "\x7d"

def layOutItems (depth : Nat) (out : String) : List Json → String
  | [] => out
  | [item] => layOutOnto (depth + 1) (out ++ newLine (depth + 1)) item
  | item :: next :: rest =>
      layOutItems depth (layOutOnto (depth + 1) (out ++ newLine (depth + 1)) item ++ ",")
        (next :: rest)

def layOutMembers (depth : Nat) (out : String) : List (Option String × Json) → String
  | [] => out
  | [(key, value)] =>
      layOutOnto (depth + 1) (out ++ newLine (depth + 1) ++ quoteText key ++ ": ") value
  | (key, value) :: next :: rest =>
      layOutMembers depth
        (layOutOnto (depth + 1) (out ++ newLine (depth + 1) ++ quoteText key ++ ": ") value ++ ",")
        (next :: rest)

end

/-- The value on several lines. -/
def laidOut (value : Json) : String :=
  layOutOnto 0 "" value

end TapeMachine.Json
