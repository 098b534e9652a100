import TapeMachine.Json.Value

/-!
Taking JSON values apart. A record may be an object, whose members can come in any order and among
others, or an array of all its fields in their order. A name of an enumeration may be a text or the
key of an object that holds nothing but a null under it.
-/

namespace TapeMachine.Json

def asString? : Json → Option String
  | text value => value
  | _ => none

/-- A character is a text of one character. -/
def asChar? (value : Json) : Option Char :=
  match value.asString?.map String.toList with
  | some [c] => some c
  | _ => none

def asStrings? : Json → Option (List String)
  | array items => items.mapM asString?
  | _ => none

/-- A value that may be null. -/
def asOption? {α : Type} (read : Json → Option α) : Json → Option (Option α)
  | null => some none
  | value => (read value).map some

def asName? : Json → Option String
  | text name => name
  | object [(name, null)] => name
  | _ => none

/-- The value of a member that is given at most once. -/
def member? (members : List (Option String × Json)) (name : String) : Option (Option Json) :=
  match members.filter (·.1 == some name) with
  | [] => some none
  | [member] => some (some member.2)
  | _ => none

/-- The values of a record's fields, with those left out as none. -/
def fields? (names : List String) : Json → Option (List (Option Json))
  | object members =>
      if members.all (·.1.isSome) then names.mapM (member? members) else none
  | array items => if items.length = names.length then some (items.map some) else none
  | _ => none

end TapeMachine.Json
