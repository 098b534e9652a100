import TapeMachine.Screen.Panel
import TapeMachine.Session.Basic

/-!
The picture of a session: its definition on top and as a source on the left, the machine's state,
tape and journal or the help on the right, and a status line below.
-/

namespace TapeMachine.Session

open Screen

/-- How the columns and rows of a screen are shared out. One column on either side of the screen
stays empty, and so does one between the left and the right panels. -/
structure Layout where
  width : Nat
  height : Nat
deriving DecidableEq

namespace Layout

def inner (layout : Layout) : Nat :=
  layout.width - 2

/-- Three fifths of the columns, rounded. -/
def right (layout : Layout) : Nat :=
  (layout.inner * 60 + 50) / 100

def left (layout : Layout) : Nat :=
  layout.inner - 1 - layout.right

/-- The rows between the panel on top and the one below. -/
def middle (layout : Layout) : Nat :=
  layout.height - 8

end Layout

def titleName (session : Session) : String :=
  session.definition.displayName ++ " (" ++
    (if session.isCustom then "Custom"
      else toString (session.preset + 1) ++ "/" ++ toString Preset.all.length) ++ ")"

def infoLines (session : Session) : List Row :=
  let machine := session.machine
  [colored .yellow "Machine: " ++ plain session.titleName,
    colored .yellow "Input: " ++ plain ("\"" ++ session.definition.input ++ "\"") ++
      colored .yellow " | Blank: " ++ plain machine.config.tape.blank.toString,
    colored .yellow "Initial: " ++ plain machine.program.initial ++
      colored .yellow " | Final: " ++ plain (Text.joinItems machine.program.finals.toList) ++
      colored .yellow " | Rules: " ++ plain (toString machine.program.table.size)]

def keywords : List String :=
  ["name:", "input:", "initial:", "final:", "blank:", "rules:"]

/-- A comment is shown as it stands, and a line with a keyword from its keyword on. -/
def sourceLine (line : List Char) : Row :=
  let body := Text.trimStart line
  if body.head? = some '#' then colored .darkGray (String.ofList line)
  else match keywords.find? (·.toList.isPrefixOf body) with
    | some keyword =>
        colored .yellow keyword ++ plain (String.ofList (body.drop keyword.length))
    | none => plain (String.ofList line)

def sourceLines (session : Session) (width : Nat) : List Row :=
  (Text.lines session.source.toList).flatMap fun line => wrap width (sourceLine line)

def statusColor : Status → Color
  | .idle => .blue
  | .running => .green
  | .accepted => .cyan
  | .rejected => .red

def stateLines (session : Session) : List Row :=
  let config := session.machine.config
  let color := statusColor config.status
  let state := if config.state.isEmpty then "-" else config.state
  [colored .yellow "State: " ++ span ⟨color, .unset, true⟩ state ++
      colored .yellow " | Steps: " ++ plain (toString config.steps) ++
      colored .yellow " | Status: " ++ colored color config.status.text,
    colored .cyan "Head: " ++ plain (toString config.tape.head) ++
      colored .cyan " | Symbol: " ++ plain ("'" ++ config.tape.read.toString ++ "'")]

/-- The cells that find room on each side of the head, three columns each. -/
def visibleRadius (width : Nat) : Nat :=
  (max ((width - 4) / 3) 1 - 1) / 2

def cellSpan (cell : Cell) : Row :=
  let text := " " ++ cell.symbol.toString ++ " "
  if cell.isHead then span ⟨.black, .yellow, true⟩ text else plain text

def boundsText (cells : List Cell) : String :=
  match cells.head?, cells.getLast? with
  | some first, some last => "cells " ++ toString first.place ++ "..=" ++ toString last.place
  | _, _ => ""

def tapeLines (session : Session) (width : Nat) : List Row :=
  let cells := session.machine.config.window (visibleRadius width)
  [cells.flatMap cellSpan, colored .darkGray (boundsText cells)]

/-- As much of the journal as finds room, up to where it is scrolled. -/
def logLines (session : Session) (height : Nat) : List Row :=
  let events := session.machine.journal.events
  let last := events.size - session.scroll
  ((events.extract (last - height) last).toList.map Event.line).map plain

def helpLines (session : Session) : List Row :=
  ["Controls:",
    "  Space - Step forward",
    "  p - Start/stop automatic run",
    "  r - Reset (clears tape and state, keeps the rules)",
    "  i - Initialize again from the definition",
    if session.isCustom then "  ← → - Machine switching disabled (loaded from file/stdin)"
    else "  ← → - Switch built-in machines",
    "  ↑ ↓ - Scroll the log",
    "  h - Toggle this help",
    "  q - Quit"].map plain

def statusLine (session : Session) : Row :=
  plain "Auto-run: " ++ colored .yellow (if session.isRunning then "ON" else "OFF") ++
    plain (" | " ++ session.message)

def rightPanels (session : Session) (layout : Layout) : List Row :=
  let width := layout.right
  let height := layout.middle - 9
  panel "Machine State" .left width 4 session.stateLines ++
    panel "Tape" .left width 5 (session.tapeLines width) ++
    if session.showsHelp then panel "Help" .left width height session.helpLines
    else panel "Log" .left width height (session.logLines (height - 2))

def leftPanel (session : Session) (layout : Layout) : List Row :=
  panel "Definition" .left layout.left layout.middle (session.sourceLines (layout.left - 4))

/-- The rows of the screen. -/
def render (session : Session) (layout : Layout) : List Row :=
  let panels :=
    panel "Turing Machine (TUI)" .center layout.inner 5 session.infoLines ++
      beside (session.leftPanel layout) (session.rightPanels layout) ++
      panel "Status" .left layout.inner 3 [session.statusLine]
  panels.map fun row => plain " " ++ row ++ plain " "

end TapeMachine.Session
