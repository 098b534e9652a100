import TapeMachine.Text.Blank

/-!
Screens as rows of styled characters, and the bordered panels they are put together from. Every
character is one column wide, control characters included.
-/

namespace TapeMachine.Screen

inductive Color where
  | unset
  | black
  | red
  | green
  | yellow
  | blue
  | cyan
  | darkGray
deriving DecidableEq

def Color.text : Color → String
  | unset => "Reset"
  | black => "Black"
  | red => "Red"
  | green => "Green"
  | yellow => "Yellow"
  | blue => "Blue"
  | cyan => "Cyan"
  | darkGray => "DarkGray"

structure Style where
  foreground : Color
  background : Color
  bold : Bool
deriving DecidableEq

namespace Style

def plain : Style := ⟨.unset, .unset, false⟩

def colored (color : Color) : Style := ⟨color, .unset, false⟩

end Style

structure Glyph where
  char : Char
  style : Style
deriving DecidableEq

abbrev Row := List Glyph

/-- A piece of a line in one style. -/
def span (style : Style) (text : String) : Row :=
  text.toList.map (⟨·, style⟩)

def plain (text : String) : Row :=
  span .plain text

def colored (color : Color) (text : String) : Row :=
  span (.colored color) text

def Row.text (row : Row) : String :=
  String.ofList (row.map Glyph.char)

def filler (c : Char) (count : Nat) : Row :=
  List.replicate count ⟨c, .plain⟩

/-- The row cut or filled up to a width. -/
def fit (width : Nat) (row : Row) : Row :=
  row.take width ++ filler ' ' (width - row.length)

inductive Alignment where
  | left
  | center

/-- The top border, with the title set into it. -/
def topBorder (title : String) (alignment : Alignment) (width : Nat) : Row :=
  let label := plain (" " ++ title ++ " ")
  let room := width - 2 - label.length
  let before := match alignment with
    | .left => 0
    | .center => room / 2
  plain "╭" ++ filler '─' before ++ label ++ filler '─' (room - before) ++ plain "╮"

def bottomBorder (width : Nat) : Row :=
  plain "╰" ++ filler '─' (width - 2) ++ plain "╯"

/-- A line of a panel: between its borders and one column of padding on either side. -/
def panelLine (width : Nat) (line : Row) : Row :=
  plain "│ " ++ fit (width - 4) line ++ plain " │"

/-- A panel of a given size. Lines that find no room in it are cut. -/
def panel (title : String) (alignment : Alignment) (width height : Nat) (lines : List Row) :
    List Row :=
  let shown := lines.take (height - 2)
  let empty := List.replicate (height - 2 - shown.length) []
  topBorder title alignment width :: (shown ++ empty).map (panelLine width) ++ [bottomBorder width]

/-- A line may be broken at any blank but the no-break space. -/
def isSpace (glyph : Glyph) : Bool :=
  Text.isBlank glyph.char && glyph.char.toNat != 0xA0

/-- The state of wrapping: the rows that are done, the row that is being filled, and the spaces and
the word after it that may not fit. -/
structure Filling where
  done : List Row
  row : Row
  gap : Row
  word : Row
  /-- Whether the last character taken in was part of a word. -/
  afterWord : Bool

namespace Filling

def empty : Filling :=
  ⟨[], [], [], [], false⟩

def used (filling : Filling) : Nat :=
  filling.row.length + filling.gap.length + filling.word.length

/-- The spaces and the word join the row. -/
def settle (filling : Filling) : Filling :=
  { filling with row := filling.row ++ filling.gap ++ filling.word, gap := [], word := [] }

/-- The row is done. The spaces that would have stood at its end are dropped. -/
def breakRow (width : Nat) (filling : Filling) : Filling :=
  { filling with
    done := filling.done ++ [filling.row]
    row := []
    gap := filling.gap.drop (width - filling.row.length) }

def keep (filling : Filling) (glyph : Glyph) : Filling :=
  if isSpace glyph then { filling with gap := filling.gap ++ [glyph], afterWord := false }
  else { filling with word := filling.word ++ [glyph], afterWord := true }

/-- Takes in a character. A word settles when a space follows it, and one that has a row to itself
when it fills the row. A space right after a full row is dropped. -/
def put (width : Nat) (filling : Filling) (glyph : Glyph) : Filling :=
  let complete := filling.afterWord && isSpace glyph
  let overlong := filling.row.isEmpty && width ≤ filling.used
  let filling := if complete || overlong then filling.settle else filling
  if filling.used < width then filling.keep glyph
  else
    let broken := filling.breakRow width
    if isSpace glyph && broken.gap.isEmpty then broken else broken.keep glyph

/-- All rows. A row of spaces alone has an empty row before it. -/
def rows (filling : Filling) : List Row :=
  let last := filling.row ++ filling.gap ++ filling.word
  if filling.row.isEmpty && filling.word.isEmpty && !filling.gap.isEmpty then
    filling.done ++ [[], last]
  else if last.isEmpty && !filling.done.isEmpty then filling.done
  else filling.done ++ [last]

end Filling

/-- Breaks a line into rows of at most a given width, between words where that is possible. A word
that does not fit goes to the next row without the spaces before it. -/
def wrap (width : Nat) (line : Row) : List Row :=
  (line.foldl (Filling.put width) .empty).rows

/-- Two blocks of rows next to each other, with one empty column between them. -/
def beside (left right : List Row) : List Row :=
  List.zipWith (fun a b => a ++ plain " " ++ b) left right

/-- A piece of a row in one style other than the plain one. -/
structure StyledRun where
  row : Nat
  column : Nat
  text : String
  style : Style
deriving DecidableEq

/-- The maximal pieces of a row in one style, with the columns they begin at. -/
def styledPieces (column : Nat) : Row → List (Nat × Row)
  | [] => []
  | glyph :: rest =>
      match styledPieces (column + 1) rest with
      | (next, first :: piece) :: pieces =>
          if first.style = glyph.style then (column, glyph :: first :: piece) :: pieces
          else (column, [glyph]) :: (next, first :: piece) :: pieces
      | pieces => (column, [glyph]) :: pieces

def styledRuns (rows : List Row) : List StyledRun :=
  rows.zipIdx.flatMap fun (row, number) =>
    (styledPieces 0 row).filterMap fun (column, piece) =>
      match piece.head? with
      | some glyph =>
          if glyph.style = .plain then none
          else some ⟨number, column, Row.text piece, glyph.style⟩
      | none => none

end TapeMachine.Screen
