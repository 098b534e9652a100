import TapeMachine.Text.Lines
import TapeMachine.Tape
import TapeMachine.Table
import TapeMachine.Grammar.Matching
import TapeMachine.Source.RuleLine
import TapeMachine.Definition.Document
import TapeMachine.Definition.File
import TapeMachine.Machine.Notice
import TapeMachine.AutoRun.Basic
import TapeMachine.Preset.Basic
import TapeMachine.Json.Reader
import TapeMachine.Json.Writer
import TapeMachine.Interchange
import TapeMachine.Files.Tree
import TapeMachine.CommandLine.Response
import TapeMachine.Session.Keys
import TapeMachine.Session.View
import TapeMachine.Main
import TapeMachine.Proofs.Machine.Step
import TapeMachine.Proofs.Machine.Textbook
import TapeMachine.Proofs.Grammar.Search
import TapeMachine.Proofs.Source.Word
import TapeMachine.Proofs.Source.RuleText
import TapeMachine.Proofs.Text.Trim
import TapeMachine.Proofs.Source.RuleReading
import TapeMachine.Proofs.Machine.Operation
import TapeMachine.Proofs.Source.TableReading
import TapeMachine.Proofs.Machine.Consistent
import TapeMachine.Proofs.Grammar.Repetition
import TapeMachine.Proofs.Source.Lines
import TapeMachine.Proofs.Source.HeaderText
import TapeMachine.Proofs.Source.RulesLine
import TapeMachine.Proofs.Source.Layout
import TapeMachine.Proofs.Definition.Document
import TapeMachine.Proofs.Definition.Loading
import TapeMachine.Proofs.Machine.Run
import TapeMachine.Proofs.Machine.Replay
import TapeMachine.Proofs.AutoRun.Schedule
import TapeMachine.Proofs.CommandLine.Pace
import TapeMachine.Proofs.Text.Lines
import TapeMachine.Proofs.Definition.RuleLines
import TapeMachine.Proofs.Definition.RulesPart
import TapeMachine.Proofs.Machine.Forgetting
import TapeMachine.Proofs.Definition.NormalForm
import TapeMachine.Proofs.Definition.KeptRules
import TapeMachine.Proofs.AutoRun.Sharing
import TapeMachine.Proofs.CommandLine.Overriding
import TapeMachine.Proofs.Definition.Sheet
import TapeMachine.Proofs.Preset.Sheets
import TapeMachine.Proofs.AutoRun.Keeping
import TapeMachine.Proofs.Session.Happening
import TapeMachine.Proofs.Machine.Course
import TapeMachine.Proofs.Session.Belonging
import TapeMachine.Proofs.Session.Coupling
import TapeMachine.Proofs.Preset.Palindrome
import TapeMachine.Proofs.Preset.Increment
import TapeMachine.Proofs.Preset.Scanning
import TapeMachine.Proofs.Machine.Visiting
import TapeMachine.Proofs.Definition.StateNames
import TapeMachine.Proofs.AutoRun.Idle
import TapeMachine.Proofs.Machine.Window
import TapeMachine.Proofs.AutoRun.Due
import TapeMachine.Proofs.CommandLine.Tracing
import TapeMachine.Proofs.Files.Reading
import TapeMachine.Proofs.Definition.Sources
import TapeMachine.Proofs.Grammar.Reach
import TapeMachine.Proofs.Source.LineReach
import TapeMachine.Proofs.Source.FaultyLine
import TapeMachine.Proofs.Definition.FaultPlace
import TapeMachine.Proofs.Tape.Strip
import TapeMachine.Proofs.Json.Lexing
import TapeMachine.Proofs.Json.Spelling
import TapeMachine.Proofs.Json.Tokens
import TapeMachine.Proofs.Json.Writing
import TapeMachine.Proofs.Json.Members
import TapeMachine.Proofs.Interchange
