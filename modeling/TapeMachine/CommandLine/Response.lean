import TapeMachine.CommandLine.Selection
import TapeMachine.CommandLine.Trace
import TapeMachine.Interchange
import TapeMachine.Json.Writer

/-!
What the program answers: its output, its error text and its exit code.
-/

namespace TapeMachine.CommandLine

structure Response where
  exit : Nat
  output : String
  errors : String
deriving DecidableEq

/-- The lines, each with its line feed. -/
def unlines (lines : List String) : String :=
  String.join (lines.map (· ++ "\n"))

def usage : String :=
  "error: invalid arguments\n\nUsage: turing-cli [OPTIONS]\n"

namespace Response

def ofFault (fault : Fault) : Response :=
  ⟨2, "", "Error: " ++ fault.message ++ "\n"⟩

def ofRefusal : Refusal → Response
  | .misuse => ⟨2, "", usage⟩
  | .version => ⟨0, "turing-cli 0.1.0\n", ""⟩

end Response

/-- A preset's line of the listing, which counts from one. -/
def presetLine (info : Preset.Info) : String :=
  toString (info.index + 1) ++ ". " ++ info.name ++ " (input: \"" ++ info.input ++ "\", states: " ++
    Text.joinItems info.states.toList ++ ", final: " ++ Text.joinItems info.finals ++ ", rules: " ++
    toString info.ruleCount ++ ")"

def listing : Response :=
  match (List.range Preset.all.length).mapM Preset.info with
  | .ok infos => ⟨0, unlines (infos.map presetLine), ""⟩
  | .error fault => .ofFault fault

/-- The machine's cells, and how and where it ended. -/
def resultLines (config : Configuration) : List String :=
  [config.tape.text, config.status.text ++ " after " ++ toString config.steps ++
    " steps in state " ++ config.state]

/-- How a run that was traced ended. -/
def endLines (limit : Nat) : Option Halt → List String
  | some halt => ["", "Machine halted: " ++ halt.text]
  | none => ["", "Step limit of " ++ toString limit ++ " reached."]

namespace Options

def limit (options : Options) : Nat :=
  options.maxSteps.getD Machine.defaultLimit

/-- What is printed before the run. -/
def opening (options : Options) (machine : Machine) : List String :=
  if options.debug then [stateLine machine.config] else []

/-- What is printed after the run. -/
def closing (options : Options) (machine : Machine) : List String :=
  (if options.debug then "" :: "Log:" :: machine.journal.lines ++ [""] else []) ++
    if options.json then [machine.config.toJson.laidOut] else resultLines machine.config

def exitCode (machine : Machine) : Nat :=
  if machine.config.status = .accepted then 0 else 1

/-- Runs without delay. Gives what is printed meanwhile, and the machine after the run. -/
def runAtOnce (options : Options) (machine : Machine) : List String × Machine :=
  if options.debug then
    let trace := trace stateLine options.limit machine
    (trace.shown.reverse ++ endLines options.limit trace.halt, trace.machine)
  else ([], (machine.run options.limit).2)

/-- Runs with a delay of so many milliseconds, on a clock that wakes it as soon as a step is due. -/
def runPaced (options : Options) (delay : Nat) (machine : Machine) : List String × Machine :=
  let start : Paced String := .start .empty (delay * millisecond) machine
  let paced := start.loop stateLine options.limit .empty (fun _ => start.run.interval)
    (options.limit + 1) 0
  (if options.debug then paced.shown.reverse else [], paced.machine)

def run (options : Options) (machine : Machine) : List String × Machine :=
  match options.delay with
  | some delay => options.runPaced delay machine
  | none => options.runAtOnce machine

def respond (options : Options) (around : Surroundings) : Response :=
  if options.list then listing
  else
    match options.machine around with
    | .error fault => .ofFault fault
    | .ok machine =>
        let (lines, final) := options.run machine
        ⟨exitCode final, unlines (options.opening machine ++ lines ++ options.closing final), ""⟩

end Options

/-- Answers the arguments. -/
def respond (arguments : List String) (around : Surroundings) : Response :=
  match Options.read arguments with
  | .error refusal => .ofRefusal refusal
  | .ok options => options.respond around

end TapeMachine.CommandLine
