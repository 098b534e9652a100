import TapeMachine.Grammar.Matching
import TapeMachine.Source.Term
import TapeMachine.Source.Place

/-!
Errors in the notation, and the report that shows one below the line it stands in.
-/

namespace TapeMachine.Source

inductive Cause where
  | unmatched (expected unexpected : List Term)
  | longSymbol (word : String)
  | unknownDirection (word : String)
  | unknownHeader (key : String)
  | repeatedHeader (key : String)
deriving DecidableEq

/-- Alternatives as a phrase: `a`, `a or b`, or `a, b, or c`. -/
def alternatives : List String → String
  | [] => ""
  | [one] => one
  | [one, two] => one ++ " or " ++ two
  | many => String.intercalate ", " many.dropLast ++ ", or " ++ many.getLast?.getD ""

/-- The terms of a list, each once and in the order of listing, as a phrase. -/
def termPhrase (terms : List Term) : String :=
  alternatives ((Term.all.filter (terms.contains ·)).map Term.text)

namespace Cause

def message : Cause → String
  | unmatched expected [] =>
      if expected.isEmpty then "unknown parsing error" else "expected " ++ termPhrase expected
  | unmatched [] unexpected => "unexpected " ++ termPhrase unexpected
  | unmatched expected unexpected =>
      "unexpected " ++ termPhrase unexpected ++ "; expected " ++ termPhrase expected
  | longSymbol word => "Symbol must be a single character: " ++ word
  | unknownDirection word => "Unsupported direction: " ++ word ++ " (expected L or R)"
  | unknownHeader key => "Unknown header \"" ++ key ++ "\""
  | repeatedHeader key => "Duplicate \"" ++ key ++ ":\" declaration"

end Cause

/-- An error in a text, and the number of the rule that the text is, where it is one of a list. -/
structure SyntaxError where
  text : List Char
  place : Place
  cause : Cause
  ruleNumber : Option Nat
deriving DecidableEq

namespace SyntaxError

def ofAttempts (text : List Char) (attempts : Grammar.Attempts Term) : SyntaxError :=
  ⟨text, .point attempts.furthest, .unmatched attempts.expected attempts.unexpected, none⟩

def inRule (error : SyntaxError) (number : Nat) : SyntaxError :=
  { error with ruleNumber := some number }

/-- The line and the column of a place, and for a span those of its end too. -/
def position (error : SyntaxError) : List Nat :=
  match error.place with
  | .point offset => [lineNumber error.text offset, column error.text offset]
  | .span start stop =>
      [lineNumber error.text start, column error.text start, lineNumber error.text stop,
        column error.text stop]

def report (error : SyntaxError) : String :=
  let offset := error.place.start
  let line := toString (lineNumber error.text offset)
  let shown := excerpt error.text error.place
  let margin := String.ofList (line.toList.map fun _ => ' ')
  let mark := String.ofList (indent shown (column error.text offset - 1) ++ error.place.mark)
  let path := error.ruleNumber.elim "" fun number => "rule #" ++ toString number ++ ":"
  margin ++ "--> " ++ path ++ line ++ ":" ++ toString (column error.text offset) ++ "\n" ++
    margin ++ " |\n" ++
    line ++ " | " ++ String.ofList shown ++ "\n" ++
    margin ++ " | " ++ mark ++ "\n" ++
    margin ++ " |\n" ++
    margin ++ " = " ++ error.cause.message

def message (error : SyntaxError) : String :=
  "Rule parsing error: " ++ error.report

end SyntaxError

/-- What a text consists of, when it matches a pattern from its start. -/
def matchText (pattern : Grammar.Pattern Term) (text : List Char) :
    Except SyntaxError (List (Grammar.Node Term)) :=
  (pattern.parse text).mapError (.ofAttempts text)

end TapeMachine.Source
