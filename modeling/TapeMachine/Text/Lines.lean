import TapeMachine.Text.Blank

/-!
Lines and comma-separated items. A line ends at a line feed, and one carriage return right before
that line feed belongs to the line's end. A carriage return elsewhere is an ordinary character.
-/

namespace TapeMachine.Text

/-- Drops one carriage return at the end of a line. -/
def dropReturn (line : List Char) : List Char :=
  if line.getLast? = some '\r' then line.dropLast else line

/-- The lines of a text. What stands after the last line feed counts when it is not empty, and
keeps its carriage return. -/
def lines (text : List Char) : List (List Char) :=
  let pieces := text.splitOn '\n'
  pieces.dropLast.map dropReturn ++ pieces.getLast?.toList.filter (!·.isEmpty)

/-- The items between commas, trimmed, without the empty ones. -/
def items (text : List Char) : List (List Char) :=
  ((text.splitOn ',').map trim).filter (!·.isEmpty)

/-- Puts line feeds between the given lines. -/
def joinLines (parts : List String) : String :=
  String.intercalate "\n" parts

/-- Puts a comma and a space between the given items. -/
def joinItems (parts : List String) : String :=
  String.intercalate ", " parts

end TapeMachine.Text
