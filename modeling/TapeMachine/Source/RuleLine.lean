import TapeMachine.Source.Patterns
import TapeMachine.Source.SyntaxError
import TapeMachine.Table

/-!
Reading rules. A line is first matched as a whole, with tokens of any length, and then its tokens
are checked from left to right, so that an error points at the token that is wrong.
-/

namespace TapeMachine.Source

open Grammar

/-- The tokens of a rule. -/
structure RuleTokens where
  state : Node Term
  symbol : Node Term
  next : Node Term
  write : Node Term
  direction : Node Term

/-- The tokens of the two sides of a rule. -/
def RuleTokens.ofSides : List (Node Term) → Option RuleTokens
  | left :: right :: _ =>
      match left.parts, right.parts with
      | [state, symbol], [next, write, direction] =>
          some ⟨state, symbol, next, write, direction⟩
      | _, _ => none
  | _ => none

def errorAt (text : List Char) (token : Node Term) (cause : String → Cause) : SyntaxError :=
  ⟨text, .span token.start token.stop, cause (String.ofList token.text), none⟩

/-- A tape symbol is a token of one character. -/
def readSymbol (text : List Char) (token : Node Term) : Except SyntaxError Char :=
  match token.text with
  | [symbol] => .ok symbol
  | _ => .error (errorAt text token .longSymbol)

def readDirection (text : List Char) (token : Node Term) : Except SyntaxError Direction :=
  match token.text with
  | ['L'] | ['l'] => .ok .left
  | ['R'] | ['r'] => .ok .right
  | _ => .error (errorAt text token .unknownDirection)

def RuleTokens.toRule (text : List Char) (tokens : RuleTokens) : Except SyntaxError Rule := do
  let symbol ← readSymbol text tokens.symbol
  let write ← readSymbol text tokens.write
  let direction ← readDirection text tokens.direction
  return ⟨⟨String.ofList tokens.state.text, symbol⟩,
    ⟨String.ofList tokens.next.text, write, direction⟩⟩

/-- The tokens in what a line that is one rule consists of. -/
def RuleTokens.ofNodes (text : List Char) (nodes : List (Node Term)) :
    Except SyntaxError RuleTokens :=
  match ofSides (nodes.flatMap Node.parts) with
  | some tokens => .ok tokens
  | none => .error (.ofAttempts text .empty)

/-- The tokens of a line that is one rule. -/
def matchRule (text : List Char) : Except SyntaxError RuleTokens :=
  matchText ruleLine text >>= RuleTokens.ofNodes text

/-- Reads a line, trimmed, as one rule. -/
def readRule (line : List Char) : Except SyntaxError Rule :=
  let text := Text.trim line
  matchRule text >>= RuleTokens.toRule text

/-- A rule that took the place of an earlier one, by its number in the list. -/
structure Redefinition where
  number : Nat
  situation : Situation
  previous : Action
deriving DecidableEq

/-- The table that a list of lines gives, and the redefinitions met on the way. -/
structure TableReading where
  table : Except SyntaxError Table
  redefinitions : List Redefinition

/-- Goes on after a line with this number, once its rule is put in. -/
def TableReading.cons (number : Nat) (table : Table) (first : Except SyntaxError Rule)
    (goOn : Rule → TableReading) : TableReading :=
  match first with
  | .error error => ⟨.error (error.inRule number), []⟩
  | .ok rule =>
      let later := goOn rule
      match table.find? rule.situation with
      | none => later
      | some previous => ⟨later.table, ⟨number, rule.situation, previous⟩ :: later.redefinitions⟩

/-- Adds the rules of the lines, the first of which has the given number. -/
def TableReading.ofLines (number : Nat) (table : Table) : List String → TableReading
  | [] => ⟨.ok table, []⟩
  | line :: rest =>
      .cons number table (readRule line.toList) fun rule =>
        ofLines (number + 1) (table.insert rule) rest

/-- Reads every line as a rule. The later of two rules for one situation counts. -/
def readTable (lines : List String) : TableReading :=
  .ofLines 1 .empty lines

end TapeMachine.Source
