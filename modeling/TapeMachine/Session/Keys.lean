import TapeMachine.Session.Basic

/-!
Keys and the commands bound to them. A key pressed together with a modifier is another key, and no
command is bound to any of those.
-/

namespace TapeMachine

inductive KeyCode where
  | char (c : Char)
  | left
  | right
  | up
  | down
  | enter
  | escape
  | tab
deriving DecidableEq

structure Key where
  code : KeyCode
  ctrl : Bool
  alt : Bool
  shift : Bool
deriving DecidableEq

namespace KeyCode

def ofName : String → Option KeyCode
  | "space" => some (char ' ')
  | "left" => some left
  | "right" => some right
  | "up" => some up
  | "down" => some down
  | "enter" => some enter
  | "esc" => some escape
  | "tab" => some tab
  | name =>
      match name.toList with
      | [c] => some (char c)
      | _ => none

end KeyCode

/-- Takes a modifier off the front of a key's name. -/
def dropModifier (modifier : String) (name : List Char) : Bool × List Char :=
  let front := modifier.toList
  if front.isPrefixOf name && front.length < name.length then (true, name.drop front.length)
  else (false, name)

/-- A key by its name, with its modifiers in front in a fixed order. -/
def Key.ofName (name : String) : Option Key :=
  let (ctrl, name) := dropModifier "ctrl-" name.toList
  let (alt, name) := dropModifier "alt-" name
  let (shift, name) := dropModifier "shift-" name
  (KeyCode.ofName (String.ofList name)).map (⟨·, ctrl, alt, shift⟩)

namespace Command

def all : List Command :=
  [quit, reset, restart, step, toggleRun, toggleHelp, previousPreset, nextPreset, scrollUp,
    scrollDown]

def keyCode : Command → KeyCode
  | quit => .char 'q'
  | reset => .char 'r'
  | restart => .char 'i'
  | step => .char ' '
  | toggleRun => .char 'p'
  | toggleHelp => .char 'h'
  | previousPreset => .left
  | nextPreset => .right
  | scrollUp => .up
  | scrollDown => .down

/-- The command that a key is bound to. -/
def ofKey (key : Key) : Option Command :=
  all.find? fun command => key = ⟨command.keyCode, false, false, false⟩

end Command

/-- Presses a key. The second part says whether it ends the session. -/
def Session.press (session : Session) (key : Key) : Session × Bool :=
  match Command.ofKey key with
  | none => (session, false)
  | some command => (session.perform command, command = .quit)

end TapeMachine
