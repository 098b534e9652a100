import TapeMachine.AutoRun.Basic
import TapeMachine.Definition.File
import TapeMachine.Preset.Basic

/-!
Interactive sessions: one machine with the definition it was loaded from, perhaps an automatic run,
and what its user sees besides. A session works on the built-in machines, or on one definition that
was given to it and then never changes.
-/

namespace TapeMachine

/-- Why a session cannot begin. -/
inductive SessionFault where
  | unopened (path : String) (problem : ReadProblem)
  | unread (path : String) (fault : Fault)
  | badDefinition (fault : Fault)
  | badRules (error : Source.SyntaxError)
deriving DecidableEq

namespace SessionFault

def message : SessionFault → String
  | unopened path problem => "Failed to read file '" ++ path ++ "': " ++ problem.reason
  | unread path fault => "Failed to read file '" ++ path ++ "': " ++ fault.message
  | badDefinition fault => "Failed to load definition: " ++ fault.message
  | badRules error => "Failed to initialize machine: " ++ error.message

end SessionFault

structure Session where
  machine : Machine
  definition : Definition
  source : String
  preset : Nat
  run : Option AutoRun
  /-- How far the journal is scrolled back from its end. -/
  scroll : Nat
  message : String
  showsHelp : Bool
  /-- Whether the definition was given to the session. -/
  isCustom : Bool
deriving DecidableEq

namespace Session

/-- How long to wait for a key when no step is due. -/
def idleWait : Nat := 100 * millisecond

/-- No token of a session is ever cancelled while a run holds it. -/
def tokens : Tokens := .empty

def newRun : AutoRun :=
  .new AutoRun.defaultInterval (tokens.issue none).1

def begin (definition : Definition) (source message : String) (isCustom : Bool) :
    Except SessionFault Session := do
  let machine ← (Machine.new.load definition).mapError .badRules
  return ⟨machine, definition, source, 0, none, 0, message, false, isCustom⟩

/-- A session on the built-in machines. It begins with the first. -/
def ofPresets : Except SessionFault Session := do
  let preset ← (Preset.atIndex 0).mapError fun fault => .badDefinition (.invalid fault)
  begin preset.definition preset.source "Press 'h' for help." false

def ofSource (source : String) : Except SessionFault Session := do
  let definition ← (Definition.ofText source).mapError .badDefinition
  begin definition source "Definition loaded from source. Press 'h' for help." true

/-- A session on the definition found at a path. A directory can be opened, but not read. -/
def ofFile (path : String) (content : Except ReadProblem ByteArray) : Except SessionFault Session :=
  match content with
  | .ok _ | .error .isDirectory => (inputText content).mapError (.unread path) >>= ofSource
  | .error problem => .error (.unopened path problem)

def haltedMessage (session : Session) : String :=
  match session.machine.config.status with
  | .accepted => "Machine accepted the input. Press 'i' to run it again."
  | .rejected => "Machine rejected the input. Press 'i' to run it again."
  | .idle | .running => "Stopped after " ++ toString session.machine.config.steps ++ " steps"

def stepMessage (session : Session) : String :=
  "Step " ++ toString session.machine.config.steps ++ " completed"

def isRunning (session : Session) : Bool :=
  session.run.any (·.isActive tokens)

/-- How long to wait for a key before time is to be reported. -/
def wait (session : Session) : Nat :=
  session.run.elim idleWait fun run => min run.nextDue idleWait

def step (session : Session) : Session :=
  let next := { session with machine := session.machine.step.2, scroll := 0 }
  if next.machine.isHalted then { next with run := none, message := next.haltedMessage }
  else { next with message := next.stepMessage }

/-- Lets time go by for the automatic run. -/
def elapse (session : Session) (time : Nat) : Session :=
  match session.run with
  | none => session
  | some run =>
      let progress := run.advance tokens session.machine time
      let next := { session with machine := progress.machine, run := some progress.run }
      let next :=
        if progress.applied = 0 then next else { next with scroll := 0, message := next.stepMessage }
      if progress.run.isActive tokens then next
      else { next with run := none, message := next.haltedMessage }

def toggleRun (session : Session) : Session :=
  if session.run.isSome then { session with run := none, message := "Auto-run stopped" }
  else if session.machine.isHalted then { session with message := session.haltedMessage }
  else { session with run := some newRun, message := "Auto-run started" }

def reset (session : Session) : Session :=
  { session with
    machine := session.machine.reset
    run := none
    scroll := 0
    message := "Machine reset. Press 'i' to initialize again." }

/-- Loads the definition again. -/
def restart (session : Session) : Session :=
  let stopped := { session with run := none, scroll := 0 }
  match session.machine.load session.definition with
  | .ok machine =>
      { stopped with
        machine := machine, message := "Initialized " ++ session.definition.displayName }
  | .error error => { stopped with message := "Failed to initialize: " ++ error.message }

/-- Turns to a preset, on a new machine so that the journal tells of it alone. -/
def choose (session : Session) (index : Nat) : Session :=
  let chosen := { session with preset := index }
  match Preset.atIndex index with
  | .ok preset =>
      restart { chosen with
        definition := preset.definition, source := preset.source, machine := .new }
  | .error fault => { chosen with message := (Fault.invalid fault).message }

/-- Turns to the preset so many places further on, around the end, unless the definition was given
to the session. -/
def turn (session : Session) (places : Nat) : Session :=
  if session.isCustom then
    { session with message := "Cannot switch machines when loaded from file/stdin." }
  else session.choose ((session.preset + places) % Preset.all.length)

def scrollUp (session : Session) : Session :=
  { session with scroll := min (session.scroll + 1) (session.machine.journal.size - 1) }

def scrollDown (session : Session) : Session :=
  { session with scroll := session.scroll - 1 }

def toggleHelp (session : Session) : Session :=
  { session with showsHelp := !session.showsHelp }

end Session

/-- What a user can ask of a session. -/
inductive Command where
  | quit
  | reset
  | restart
  | step
  | toggleRun
  | toggleHelp
  | previousPreset
  | nextPreset
  | scrollUp
  | scrollDown
deriving DecidableEq

namespace Session

/-- Quitting leaves the session as it is. -/
def perform (session : Session) : Command → Session
  | .quit => session
  | .reset => session.reset
  | .restart => session.restart
  | .step => session.step
  | .toggleRun => session.toggleRun
  | .toggleHelp => session.toggleHelp
  | .previousPreset => session.turn (Preset.all.length - 1)
  | .nextPreset => session.turn 1
  | .scrollUp => session.scrollUp
  | .scrollDown => session.scrollDown

end Session

end TapeMachine
