/-!
The options of the command line. An option is given at most once, by its long name or its letter. A
value follows its name after an equals sign or as the next argument, and then must not look like an
option itself. Letters may be written together behind one dash, the last of them with its value.
-/

namespace TapeMachine.CommandLine

inductive Flag where
  | program
  | preset
  | list
  | input
  | initial
  | finals
  | blank
  | rules
  | debug
  | delay
  | maxSteps
  | json
  | logLevel
  | version
deriving DecidableEq

namespace Flag

def all : List Flag :=
  [program, preset, list, input, initial, finals, blank, rules, debug, delay, maxSteps, json,
    logLevel, version]

def long : Flag → String
  | program => "program"
  | preset => "preset"
  | list => "list"
  | input => "input"
  | initial => "initial"
  | finals => "final"
  | blank => "blank"
  | rules => "rules"
  | debug => "debug"
  | delay => "delay-ms"
  | maxSteps => "max-steps"
  | json => "json"
  | logLevel => "log-level"
  | version => "version"

def letter? : Flag → Option Char
  | program => some 'p'
  | input => some 'i'
  | debug => some 'd'
  | version => some 'V'
  | _ => none

def takesValue : Flag → Bool
  | list | debug | json | version => false
  | _ => true

end Flag

/-- A number of at most 64 bits, written in digits with a plus sign allowed in front. -/
def readNumber? (text : String) : Option Nat :=
  let digits := match text.toList with
    | '+' :: digits => digits
    | digits => digits
  if digits.isEmpty || digits.any fun c => c < '0' || '9' < c then none
  else
    let value := digits.foldl (fun value c => value * 10 + (c.toNat - 48)) 0
    if value < 0x10000000000000000 then some value else none

/-- Paths must not be empty, and numbers must be numbers. -/
def Flag.accepts (flag : Flag) (value : String) : Bool :=
  match flag with
  | .program | .rules => !value.isEmpty
  | .delay | .maxSteps => (readNumber? value).isSome
  | _ => true

/-- Why the arguments ask for no run. -/
inductive Refusal where
  | misuse
  | version
deriving DecidableEq

/-- The options given so far. Those without a value have an empty one. -/
abbrev Given := List (Flag × String)

namespace Given

def set (given : Given) (flag : Flag) (value : String) : Except Refusal Given :=
  if flag = .version then .error .version
  else if (given.lookup flag).isSome || !flag.accepts value then .error .misuse
  else .ok (given ++ [(flag, value)])

/-- Reads the letters behind a dash. The second part is an option that still needs its value. -/
def addLetters (given : Given) : List Char → Except Refusal (Given × Option Flag)
  | [] => .ok (given, none)
  | letter :: rest =>
      match Flag.all.find? (·.letter? = some letter) with
      | none => .error .misuse
      | some flag =>
          if flag.takesValue then
            match rest with
            | [] => .ok (given, some flag)
            | '=' :: value | value =>
                (given.set flag (String.ofList value)).map (·, none)
          else given.set flag "" >>= (addLetters · rest)

/-- Reads a long option, without its dashes. -/
def addLong (given : Given) (text : List Char) : Except Refusal (Given × Option Flag) :=
  let name := String.ofList (text.takeWhile (· ≠ '='))
  match Flag.all.find? (·.long == name), text.dropWhile (· ≠ '=') with
  | none, _ => .error .misuse
  | some flag, [] =>
      if flag.takesValue then .ok (given, some flag) else (given.set flag "").map (·, none)
  | some flag, _ :: value =>
      if flag.takesValue then (given.set flag (String.ofList value)).map (·, none)
      else .error .misuse

def add (given : Given) (argument : String) : Except Refusal (Given × Option Flag) :=
  match argument.toList with
  | '-' :: '-' :: text => given.addLong text
  | '-' :: letter :: letters => given.addLetters (letter :: letters)
  | _ => .error .misuse

/-- Whether an argument looks like an option. A lone dash does not. -/
def looksLikeOption (argument : String) : Bool :=
  argument.toList.head? = some '-' && argument != "-"

/-- Reads the arguments. Two dashes end the options, and nothing may follow them. -/
def ofArguments (given : Given) : Option Flag → List String → Except Refusal Given
  | none, [] => .ok given
  | some _, [] => .error .misuse
  | some flag, value :: rest =>
      if looksLikeOption value then .error .misuse
      else given.set flag value >>= (ofArguments · none rest)
  | none, argument :: rest =>
      if argument = "--" then
        if rest.isEmpty then .ok given else .error .misuse
      else given.add argument >>= fun (given, awaiting) => ofArguments given awaiting rest

end Given

/-- What the arguments ask for. -/
structure Options where
  program : Option String
  preset : Option String
  list : Bool
  input : Option String
  initial : Option String
  finals : Option String
  blank : Option String
  rules : Option String
  debug : Bool
  /-- The delay between steps in milliseconds. -/
  delay : Option Nat
  maxSteps : Option Nat
  json : Bool
deriving DecidableEq

namespace Options

def ofGiven (given : Given) : Options :=
  { program := given.lookup .program
    preset := given.lookup .preset
    list := (given.lookup .list).isSome
    input := given.lookup .input
    initial := given.lookup .initial
    finals := given.lookup .finals
    blank := given.lookup .blank
    rules := given.lookup .rules
    debug := (given.lookup .debug).isSome
    delay := given.lookup .delay >>= readNumber?
    maxSteps := given.lookup .maxSteps >>= readNumber?
    json := (given.lookup .json).isSome }

/-- Reads the arguments. A definition comes from a file or is a preset, not both. -/
def read (arguments : List String) : Except Refusal Options := do
  let options := ofGiven (← Given.ofArguments [] none arguments)
  if options.program.isSome && options.preset.isSome then
    throw .misuse
  return options

end Options

end TapeMachine.CommandLine
