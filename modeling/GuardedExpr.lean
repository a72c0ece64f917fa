import GuardedExpr.Code.Basic
import GuardedExpr.Code.Compile
import GuardedExpr.Code.Emission
import GuardedExpr.Code.Listing
import GuardedExpr.Code.Run
import GuardedExpr.Command.Argument
import GuardedExpr.Command.Basic
import GuardedExpr.Command.Line
import GuardedExpr.Command.Path
import GuardedExpr.Double.Basic
import GuardedExpr.Double.Numeral
import GuardedExpr.Double.Rounding
import GuardedExpr.Double.Shortest
import GuardedExpr.Error
import GuardedExpr.Evaluator
import GuardedExpr.Guard
import GuardedExpr.Heap.Attribute
import GuardedExpr.Heap.Basic
import GuardedExpr.Heap.Classification
import GuardedExpr.Heap.Display
import GuardedExpr.Heap.Equality
import GuardedExpr.Heap.Key
import GuardedExpr.Heap.Member
import GuardedExpr.Heap.Picture
import GuardedExpr.Host.Conversion
import GuardedExpr.Host.Method
import GuardedExpr.Host.Standard
import GuardedExpr.Json.Basic
import GuardedExpr.Json.Heap
import GuardedExpr.Json.Reader
import GuardedExpr.Machine
import GuardedExpr.Main
import GuardedExpr.Node.Basic
import GuardedExpr.Node.Grammar
import GuardedExpr.Node.Tree
import GuardedExpr.Prompt.Command
import GuardedExpr.Prompt.Highlight
import GuardedExpr.Prompt.Session
import GuardedExpr.Prompt.Terminal
import GuardedExpr.Proofs.Code.AssignmentTargets
import GuardedExpr.Proofs.Code.CheckedCode
import GuardedExpr.Proofs.Code.CompilationRules
import GuardedExpr.Proofs.Code.CompileOffences
import GuardedExpr.Proofs.Code.CompileVerdict
import GuardedExpr.Proofs.Code.CompiledParts
import GuardedExpr.Proofs.Code.DeedCounts
import GuardedExpr.Proofs.Code.DeedScripts
import GuardedExpr.Proofs.Code.EmittedCode
import GuardedExpr.Proofs.Code.LegibleListings
import GuardedExpr.Proofs.Code.NodeOccurrences
import GuardedExpr.Proofs.Code.QuietCode
import GuardedExpr.Proofs.Code.ScopeUses
import GuardedExpr.Proofs.Code.ScriptShares
import GuardedExpr.Proofs.Code.SlotOrder
import GuardedExpr.Proofs.Code.SlotStandings
import GuardedExpr.Proofs.Code.TameCode
import GuardedExpr.Proofs.Double.NearestDouble
import GuardedExpr.Proofs.Double.NumbersReadBack
import GuardedExpr.Proofs.Heap.AlikeAnswers
import GuardedExpr.Proofs.Heap.AlikeValues
import GuardedExpr.Proofs.Heap.ClassifiedValues
import GuardedExpr.Proofs.Heap.ClosedHeaps
import GuardedExpr.Proofs.Heap.ClosedWrites
import GuardedExpr.Proofs.Heap.CommonRegions
import GuardedExpr.Proofs.Heap.ConstantBuilder
import GuardedExpr.Proofs.Heap.ConstantExpressions
import GuardedExpr.Proofs.Heap.DirectKinds
import GuardedExpr.Proofs.Heap.EndlessInquiries
import GuardedExpr.Proofs.Heap.HeapContainment
import GuardedExpr.Proofs.Heap.HeapCopies
import GuardedExpr.Proofs.Heap.HeapGrowth
import GuardedExpr.Proofs.Heap.HeapRegions
import GuardedExpr.Proofs.Heap.KeptMarks
import GuardedExpr.Proofs.Heap.MemberWrites
import GuardedExpr.Proofs.Heap.PrintableValues
import GuardedExpr.Proofs.Heap.WrittenSpots
import GuardedExpr.Proofs.Host.StandardLocality
import GuardedExpr.Proofs.Host.StandardMarks
import GuardedExpr.Proofs.Node.ReaderCompleteness
import GuardedExpr.Proofs.Node.ReaderDeadEnds
import GuardedExpr.Proofs.Node.ReaderLookahead
import GuardedExpr.Proofs.Node.ReaderSoundness
import GuardedExpr.Proofs.Node.RegularTrees
import GuardedExpr.Proofs.Node.TokenGrammar
import GuardedExpr.Proofs.Node.TreeDrawings
import GuardedExpr.Proofs.Node.TreeReading
import GuardedExpr.Proofs.Node.TreeTraits
import GuardedExpr.Proofs.Node.WrittenTrees
import GuardedExpr.Proofs.Prompt.HighlightedLines
import GuardedExpr.Proofs.Prompt.SessionFolds
import GuardedExpr.Proofs.Prompt.SessionOutcomes
import GuardedExpr.Proofs.Route.InlineObjects
import GuardedExpr.Proofs.Route.PairedAssignments
import GuardedExpr.Proofs.Route.ReturnedValues
import GuardedExpr.Proofs.Route.RouteRuns
import GuardedExpr.Proofs.Route.StatementEffects
import GuardedExpr.Proofs.Route.VivifiedPaths
import GuardedExpr.Proofs.Run.AccountedFailures
import GuardedExpr.Proofs.Run.AimedWrites
import GuardedExpr.Proofs.Run.AssignmentRuns
import GuardedExpr.Proofs.Run.CheckedRuns
import GuardedExpr.Proofs.Run.CodeYields
import GuardedExpr.Proofs.Run.CompiledMeaning
import GuardedExpr.Proofs.Run.EffectOrder
import GuardedExpr.Proofs.Run.HeapLookups
import GuardedExpr.Proofs.Run.LocalRuns
import GuardedExpr.Proofs.Run.MirroredReadings
import GuardedExpr.Proofs.Run.MissingPlaces
import GuardedExpr.Proofs.Run.OrderlyRuns
import GuardedExpr.Proofs.Run.PairedRuns
import GuardedExpr.Proofs.Run.QuietRuns
import GuardedExpr.Proofs.Run.RebuiltContainers
import GuardedExpr.Proofs.Run.RunConfinement
import GuardedExpr.Proofs.Run.RunFaults
import GuardedExpr.Proofs.Run.RunJournal
import GuardedExpr.Proofs.Run.RunPostconditions
import GuardedExpr.Proofs.Run.RunsWithin
import GuardedExpr.Proofs.Run.ScriptedRuns
import GuardedExpr.Proofs.Run.TemporarySlots
import GuardedExpr.Proofs.Run.UnmentionedNames
import GuardedExpr.Proofs.Run.WritingSteps
import GuardedExpr.Proofs.Text.EscapedText
import GuardedExpr.Proofs.Text.GraphicText
import GuardedExpr.Proofs.Text.ScalarDisplays
import GuardedExpr.Proofs.Token.NumberScanning
import GuardedExpr.Proofs.Token.RespacedSource
import GuardedExpr.Proofs.Token.ScanSteps
import GuardedExpr.Proofs.Token.ScannerPositions
import GuardedExpr.Proofs.Token.SourceDivision
import GuardedExpr.Proofs.Token.SourceFronts
import GuardedExpr.Proofs.Token.StringDecoding
import GuardedExpr.Proofs.Token.StringPieces
import GuardedExpr.Proofs.Token.TokenPlaces
import GuardedExpr.Proofs.Token.TokenShapes
import GuardedExpr.Table
import GuardedExpr.Text.Basic
import GuardedExpr.Text.Blank
import GuardedExpr.Text.Digit
import GuardedExpr.Text.Numeral
import GuardedExpr.Text.Printable
import GuardedExpr.Text.Quoted
import GuardedExpr.Text.Radix
import GuardedExpr.Text.Search
import GuardedExpr.Token.Basic
import GuardedExpr.Token.Lexeme
import GuardedExpr.Token.Scanner
import GuardedExpr.Value
