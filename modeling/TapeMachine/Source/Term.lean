/-!
The terms of rules and definition documents, by the names that errors call them.
-/

namespace TapeMachine.Source

/-- What can be named as expected or found, in the order of listing. -/
inductive Term where
  | endOfText
  | state
  | symbol
  | direction
  | left
  | right
  | ruleLine
  | definition
  | header
  | key
  | value
  | rulesKeyword
  | rule
deriving DecidableEq

namespace Term

def all : List Term :=
  [endOfText, state, symbol, direction, left, right, ruleLine, definition, header, key, value,
    rulesKeyword, rule]

def text : Term → String
  | endOfText => "EOI"
  | state => "state"
  | symbol => "symbol"
  | direction => "direction"
  | left => "lhs"
  | right => "rhs"
  | ruleLine => "transition"
  | definition => "definition"
  | header => "a \"key: value\" header"
  | key => "key"
  | value => "value"
  | rulesKeyword => "\"rules:\""
  | rule => "a transition rule"

end Term

end TapeMachine.Source
