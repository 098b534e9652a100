import TapeMachine.Machine.Basic

/-!
Notices: the messages for whoever watches a machine at work, told apart by their level. Unlike the
journal they also tell of rules that were redefined while loading.
-/

namespace TapeMachine

inductive Level where
  | info
  | warn
  | debug
deriving DecidableEq

def Level.text : Level → String
  | info => "INFO"
  | warn => "WARN"
  | debug => "DEBUG"

inductive Notice where
  | happened (event : Event)
  | redefined (redefinition : Source.Redefinition)
  | runCancelled
  | runFinished
deriving DecidableEq

namespace Notice

def level : Notice → Level
  | happened (.applied _ _) | runCancelled | runFinished => .debug
  | happened _ => .info
  | redefined _ => .warn

def text : Notice → String
  | happened (.started _ _ _) => "Machine initialized"
  | happened (.noRule situation) => "No transition for " ++ situation.text ++ "; rejected"
  | happened (.accepted state) => "Machine accepted in final state " ++ state
  | happened event => event.text
  | redefined ⟨number, situation, previous⟩ =>
      "Rule #" ++ toString number ++ " redefines " ++ situation.text ++ " (was " ++ previous.text ++
        "); keeping the last definition"
  | runCancelled => "Auto-run cancelled"
  | runFinished => "Auto-run finished"

end Notice

namespace Machine

/-- The notices of an operation that only adds to the journal. -/
def noticesSince (before after : Machine) : List Notice :=
  (after.journal.since before.journal.size).map .happened

/-- The notices of loading a definition: the redefinitions up to the first line that is no rule,
and the start when there is no such line. -/
def loadNotices (machine : Machine) (definition : Definition) : List Notice :=
  (Source.readTable definition.rules).redefinitions.map .redefined ++
    match machine.load definition with
    | .ok loaded => machine.noticesSince loaded
    | .error _ => []

def resetNotices : List Notice :=
  [.happened .reset]

end Machine

end TapeMachine
