import Pebble.Text.Boundaries
import Pebble.Text.Blank
import Pebble.Text.Letter
import Pebble.Text.Visible
import Pebble.Text.Padding
import Pebble.Text.Quoted
import Pebble.Decimal.Binary64
import Pebble.Decimal.Shortest
import Pebble.Decimal.Numeral
import Pebble.Decimal.Read
import Pebble.Pos
import Pebble.Literal
import Pebble.Token
import Pebble.Token.Scanner
import Pebble.Token.Listing
import Pebble.Syntax
import Pebble.Syntax.Printer
import Pebble.Syntax.Parser
import Pebble.Syntax.Folding
import Pebble.Value
import Pebble.Typing
import Pebble.Typing.Check
import Pebble.Code
import Pebble.Code.Verify
import Pebble.Code.Listing
import Pebble.Code.Json
import Pebble.Code.Slots
import Pebble.Code.Generate
import Pebble.Store
import Pebble.Machine.Fault
import Pebble.Machine
import Pebble.Machine.Operate
import Pebble.Machine.Exec
import Pebble.Machine.Run
import Pebble.Failure
import Pebble.Source
import Pebble.CommandLine.Arguments
import Pebble.CommandLine.Task
import Pebble.Main
import Pebble.Proofs.Stepping
import Pebble.Proofs.Scoping
import Pebble.Proofs.Succeeding
import Pebble.Proofs.ValueTypes
import Pebble.Proofs.Spots
import Pebble.Proofs.CheckedPrograms
import Pebble.Proofs.Layout
import Pebble.Proofs.ExprTypes
import Pebble.Proofs.StmtTypes
import Pebble.Proofs.Acting
import Pebble.Proofs.MachineTypes
import Pebble.Proofs.Starting
import Pebble.Proofs.FoldedTypes
import Pebble.Proofs.TypeSoundness
import Pebble.Proofs.Evaluation
import Pebble.Proofs.Realizing
import Pebble.Proofs.ExprRuns
import Pebble.Proofs.StmtRuns
import Pebble.Proofs.Assignments
import Pebble.Proofs.CompilerCorrectness
import Pebble.Proofs.Placement
import Pebble.Proofs.CountingLoops
import Pebble.Proofs.Lockstep
import Pebble.Proofs.FoldedValues
import Pebble.Proofs.FoldedCode
import Pebble.Proofs.FoldingCorrectness
import Pebble.Proofs.ExactFolding
import Pebble.Proofs.Expressions
import Pebble.Proofs.NormalForms
import Pebble.Proofs.Generating
import Pebble.Proofs.Patching
import Pebble.Proofs.Heights
import Pebble.Proofs.StackDiscipline
import Pebble.Proofs.Effects
import Pebble.Proofs.StoreHistories
import Pebble.Proofs.Renaming
import Pebble.Proofs.Grafting
import Pebble.Proofs.MachineSafety
import Pebble.Proofs.Hosting
import Pebble.Proofs.LimitedRuns
import Pebble.Proofs.UsedMachines
import Pebble.Proofs.DefinitionOrder
import Pebble.Proofs.Derivations
import Pebble.Proofs.ParsedDerivations
import Pebble.Proofs.Climbing
import Pebble.Proofs.ReadDerivations
import Pebble.Proofs.Unambiguity
import Pebble.Proofs.Spans
import Pebble.Proofs.ParserCorrectness
import Pebble.Proofs.TreeHeights
import Pebble.Proofs.Doubles
import Pebble.Proofs.Rounding
import Pebble.Proofs.Scanning
import Pebble.Proofs.Numerals
import Pebble.Proofs.ScannedTokens
import Pebble.Proofs.Coverage
import Pebble.Proofs.Spelling
import Pebble.Proofs.PrintedTokens
import Pebble.Proofs.PrintedDerivations
import Pebble.Proofs.Legibility
import Pebble.Proofs.RoundTrip
import Pebble.Proofs.FoldedRoundTrip
import Pebble.Proofs.PrintedNesting
import Pebble.Proofs.Relocation
import Pebble.Proofs.RelocatedParsing
import Pebble.Proofs.Spacing
import Pebble.Proofs.Tracing
import Pebble.Proofs.Writers
import Pebble.Proofs.Noninterference
import Pebble.Proofs.Indexing
import Pebble.Proofs.HeapHistories
import Pebble.Proofs.ScopeHistories
import Pebble.Proofs.Conversions
import Pebble.Proofs.Lines
import Pebble.Proofs.CountedReaders
import Pebble.Proofs.ParserProgress
