/-!
Places in a text, as a reader counts them: lines and columns from one, columns in characters. Only
a line feed ends a line here.
-/

namespace TapeMachine.Source

/-- What an error points at: a place, or the characters from one place up to another. -/
inductive Place where
  | point (offset : Nat)
  | span (start stop : Nat)
deriving DecidableEq

namespace Place

def start : Place → Nat
  | point offset => offset
  | span start _ => start

end Place

/-- The part of the line that stands before a place. -/
def lineBefore (text : List Char) (offset : Nat) : List Char :=
  ((text.take offset).reverse.takeWhile (· ≠ '\n')).reverse

/-- The part of the line from a place on, its line feed included. -/
def lineFrom (text : List Char) (offset : Nat) : List Char :=
  let rest := text.drop offset
  rest.takeWhile (· ≠ '\n') ++ (rest.dropWhile (· ≠ '\n')).take 1

def lineNumber (text : List Char) (offset : Nat) : Nat :=
  (text.take offset).count '\n' + 1

def column (text : List Char) (offset : Nat) : Nat :=
  (lineBefore text offset).length + 1

/-- The whole line around a place, its line feed included. -/
def lineAround (text : List Char) (offset : Nat) : List Char :=
  lineBefore text offset ++ lineFrom text offset

def isLineEnd (c : Char) : Bool :=
  c == '\r' || c == '\n'

/-- The line's ends as visible characters. -/
def showLineEnds (line : List Char) : List Char :=
  line.map fun c => if c = '\r' then '␍' else if c = '\n' then '␊' else c

/-- The line to show for a place. Its line ends are left out, unless an error points at one. -/
def excerpt (text : List Char) (place : Place) : List Char :=
  let line := lineAround text place.start
  match place with
  | .point offset =>
      if (text.drop offset).head?.any isLineEnd then showLineEnds line
      else line.filter (!isLineEnd ·)
  | .span _ _ => line.filter (!isLineEnd ·)

/-- Blanks below the characters before the mark. A tab stays a tab, so that the mark stands below
the place it marks. -/
def indent (line : List Char) (width : Nat) : List Char :=
  (line.take width).map fun c => if c = '\t' then '\t' else ' '

def Place.mark : Place → List Char
  | point _ => ['^', '-', '-', '-']
  | span start stop =>
      if stop ≤ start + 1 then ['^']
      else '^' :: (List.replicate (stop - start - 2) '-' ++ ['^'])

end TapeMachine.Source
