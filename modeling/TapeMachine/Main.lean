import TapeMachine.CommandLine.Response

/-!
The command line program. It reads what the options name and prints the answer. A run with a delay
is printed as it goes on.
-/

open TapeMachine CommandLine

namespace TapeMachine.CommandLine

/-- A path through something that is not a directory cannot be opened. A directory can, but then
not be read. -/
def problemOf : IO.Error → ReadProblem
  | .noFileOrDirectory _ _ _ => .missing
  | .inappropriateType (some _) _ _ => .notDirectory
  | .inappropriateType none _ _ => .isDirectory
  | .invalidArgument _ _ "name too long" => .longName
  | error => .other (toString error)

def readPath (path : String) : IO (String × Except ReadProblem ByteArray) := do
  try
    return (path, .ok (← IO.FS.readBinFile path))
  catch error =>
    return (path, .error (problemOf error))

/-- Reads the named files, and the input if the definition comes from there. -/
def Options.readSurroundings (options : Options) : IO Surroundings := do
  let found ← options.paths.mapM readPath
  let stdin ← IO.getStdin
  let input ←
    if options.readsInput && !(← stdin.isTty) then some <$> stdin.readBinToEnd else pure none
  return ⟨fun path => (found.lookup path).getD (.error .missing), input⟩

def printLines (lines : List String) : IO Unit := do
  IO.print (unlines lines)
  (← IO.getStdout).flush

/-- Wakes a paced run up whenever a step is due, and prints what it shows. -/
partial def pace (options : Options) (paced : Paced String) (last : Nat) : IO Machine := do
  let now ← IO.monoNanosNow
  let woken := { paced with shown := [] }.wake stateLine options.limit .empty (now - last)
  if options.debug then
    printLines woken.shown
  if woken.goesOn then
    IO.sleep (woken.run.nextDue / millisecond + 1).toUInt32
    pace options woken now
  else
    return woken.machine

def print (response : Response) : IO UInt32 := do
  IO.print response.output
  IO.eprint response.errors
  return response.exit.toUInt32

end TapeMachine.CommandLine

def main (arguments : List String) : IO UInt32 := do
  match Options.read arguments with
  | .error refusal => print (.ofRefusal refusal)
  | .ok options =>
      let around ← options.readSurroundings
      match options.list, options.delay, options.machine around with
      | false, some delay, .ok machine =>
          printLines (options.opening machine)
          let start : Paced String := .start .empty (delay * millisecond) machine
          let final ← pace options start (← IO.monoNanosNow)
          printLines (options.closing final)
          return (Options.exitCode final).toUInt32
      | _, _, _ => print (options.respond around)
