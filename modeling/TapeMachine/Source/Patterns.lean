import TapeMachine.Grammar.Pattern
import TapeMachine.Source.Term

/-!
The patterns of rules and definition documents. A rule is `STATE, SYMBOL → NEXT, WRITE, DIRECTION`.
A document is a handful of `key: value` headers and then `rules:` with one rule on each line.
-/

namespace TapeMachine.Source

open Grammar Pattern

def literal (text : String) : Pattern Term :=
  exactly text.toList

def sequence : Pattern Term → List (Pattern Term) → Pattern Term
  | first, [] => first
  | first, next :: rest => sequence (seq first next) rest

def endOfText : Pattern Term :=
  named .endOfText false finish

/-- A line ends at a line feed, a carriage return with a line feed after it, or a lone one. -/
def lineEnd : Pattern Term :=
  either (literal "\n") (either (literal "\r\n") (literal "\r"))

def arrow : Pattern Term :=
  either (literal "→") (literal "->")

def separator : Pattern Term :=
  either (literal ",") (either arrow (either (oneOf Text.isGap) lineEnd))

/-- A token: a run of characters up to the next separator. -/
def token (term : Term) : Pattern Term :=
  named term true (oneOrMore (seq (notAhead separator) any))

def leftSide : Pattern Term :=
  named .left false (sequence (token .state) [literal ",", token .symbol])

def rightSide : Pattern Term :=
  named .right false
    (sequence (token .state) [literal ",", token .symbol, literal ",", token .direction])

/-- A line that holds one rule and nothing else. -/
def ruleLine : Pattern Term :=
  named .ruleLine false (sequence start [leftSide, arrow, rightSide, endOfText])

def restOfLine : Pattern Term :=
  many (seq (notAhead lineEnd) any)

def comment : Pattern Term :=
  seq (literal "#") restOfLine

def rule : Pattern Term :=
  named .rule false (sequence leftSide [arrow, rightSide])

def rulesKeyword : Pattern Term :=
  named .rulesKeyword false (seq (literal "rules") (literal ":"))

def isKeyCharacter (c : Char) : Bool :=
  c.isAlphanum || c == '_' || c == '-'

def header : Pattern Term :=
  named .header false
    (sequence (notAhead rulesKeyword)
      [named .key true (oneOrMore (oneOf isKeyCharacter)), literal ":", named .value true restOfLine])

def headerLine : Pattern Term :=
  seq (optional (either header comment)) lineEnd

/-- A line of the rules section. A line that reads as a rule is one even when it begins with the
comment sign. -/
def rulesLine : Pattern Term :=
  optional (either (seq rule (ahead (either lineEnd endOfText))) comment)

def definition : Pattern Term :=
  named .definition false
    (sequence start
      [many headerLine, rulesKeyword, rulesLine, many (seq lineEnd rulesLine), endOfText])

end TapeMachine.Source
