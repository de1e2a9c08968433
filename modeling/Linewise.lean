import Linewise.Base64
import Linewise.Bytes
import Linewise.CommandLine.Check
import Linewise.CommandLine.Command
import Linewise.CommandLine.Flag
import Linewise.CommandLine.Help
import Linewise.CommandLine.Layer
import Linewise.CommandLine.Process
import Linewise.CommandLine.Run
import Linewise.Config.Basic
import Linewise.Config.Format
import Linewise.Config.Layers
import Linewise.Console
import Linewise.Cursor.Basic
import Linewise.Cursor.Operation
import Linewise.Directive
import Linewise.Engine
import Linewise.FileTree.Basic
import Linewise.FileTree.Change
import Linewise.FileTree.Listing
import Linewise.FileTree.RealPath
import Linewise.Glob.Expansion
import Linewise.Glob.Name
import Linewise.Glob.Text
import Linewise.Journal
import Linewise.Lines
import Linewise.Lock
import Linewise.Log
import Linewise.Main
import Linewise.Number.Double
import Linewise.Number.Reading
import Linewise.Path
import Linewise.PathArguments
import Linewise.PathFilter
import Linewise.Pattern.Basic
import Linewise.Pattern.CharSet
import Linewise.Pattern.Syntax
import Linewise.Quoted
import Linewise.Registry
import Linewise.Registry.Operation
import Linewise.Replacement
import Linewise.Rule.Basic
import Linewise.Rule.Header
import Linewise.Rule.LinePattern
import Linewise.Rule.Scan
import Linewise.Rule.Script
import Linewise.Rule.Standard
import Linewise.Rule.Whitespace
import Linewise.Spelling
import Linewise.Target
import Linewise.Timestamp
import Linewise.Unicode.Category
import Linewise.Unicode.Folding
import Linewise.Unicode.Script
import Linewise.Utf8
import Linewise.Value
import Linewise.Yaml.Document
import Linewise.Yaml.Document.Printer
import Linewise.Yaml.Node
import Linewise.Yaml.Problem
import Linewise.Yaml.Shape
import Linewise.Yaml.Source
import Linewise.Yaml.Tag
import Linewise.Yaml.Token
import Linewise.Yaml.Token.Lexer
import Linewise.Yaml.Token.Scalar
import Linewise.Proofs.CursorSuppression
import Linewise.Proofs.WalkAccounts
import Linewise.Proofs.ScanTurns
import Linewise.Proofs.LineSplitting
import Linewise.Proofs.MendedLines
import Linewise.Proofs.WhitespaceFix
import Linewise.Proofs.FileRequests
import Linewise.Proofs.ReplacementSafety
import Linewise.Proofs.ScanVisits
import Linewise.Proofs.WalkFrames
import Linewise.Proofs.WrittenFiles
import Linewise.Proofs.ReadingCommands
import Linewise.Proofs.EntryPaths
import Linewise.Proofs.ReplacementEndings
import Linewise.Proofs.MendingPass
import Linewise.Proofs.FixingWalk
import Linewise.Proofs.OrderlyTrees
import Linewise.Proofs.TreeShapes
import Linewise.Proofs.ListedPaths
import Linewise.Proofs.HandledTargets
import Linewise.Proofs.HonestRules
import Linewise.Proofs.WalkOrder
import Linewise.Proofs.SiblingIsolation
import Linewise.Proofs.WalkEnds
import Linewise.Proofs.SavedFlags
import Linewise.Proofs.LockExclusion
import Linewise.Proofs.ReplacementMoments
import Linewise.Proofs.SuppressedText
import Linewise.Proofs.BlockScalars
import Linewise.Proofs.LexedDocuments
import Linewise.Proofs.ResolvedScalars
import Linewise.Proofs.ShownDocuments
import Linewise.Proofs.CursorMoves
import Linewise.Proofs.ScanCoverage
import Linewise.Proofs.DirectiveGrammar
import Linewise.Proofs.RuleRuns
import Linewise.Proofs.OrdinaryValues
import Linewise.Proofs.DecodedValues
import Linewise.Proofs.RestoredConfigs
import Linewise.Proofs.MalformedFiles
import Linewise.Proofs.WhitespaceReports
import Linewise.Proofs.MendedFiles
import Linewise.Proofs.LinePasses
import Linewise.Proofs.HeaderReading
import Linewise.Proofs.ProperHeaders
import Linewise.Proofs.TextBelowHeaders
import Linewise.Proofs.PatternReports
import Linewise.Proofs.AsciiCharacters
import Linewise.Proofs.StandardPatterns
import Linewise.Proofs.LayerLaws
import Linewise.Proofs.ExcludesFiles
import Linewise.Proofs.FilterDecisions
import Linewise.Proofs.FilterSources
import Linewise.Proofs.ChoiceHeights
import Linewise.Proofs.ChoicePatterns
import Linewise.Proofs.IncludePatterns
import Linewise.Proofs.CursorBounds
import Linewise.Proofs.RegistryHistories
import Linewise.Proofs.HiddenPaths
import Linewise.Proofs.AtomicWrites
import Linewise.Proofs.LineMending
import Linewise.Proofs.LoadedLines
