import CssWorkbench.Analysis.Completion
import CssWorkbench.Analysis.Diagnostic
import CssWorkbench.Analysis.Fix
import CssWorkbench.Analysis.Hover
import CssWorkbench.Analysis.Specificity
import CssWorkbench.Analysis.Suggestion
import CssWorkbench.Color.Basic
import CssWorkbench.Color.Calc
import CssWorkbench.Color.Conversion
import CssWorkbench.Color.Palette
import CssWorkbench.Color.Search
import CssWorkbench.Color.Space
import CssWorkbench.Color.Spelling
import CssWorkbench.CommandLine.Arguments
import CssWorkbench.CommandLine.Run
import CssWorkbench.Custom.Occurrence
import CssWorkbench.Custom.Values
import CssWorkbench.Decimal.Binary
import CssWorkbench.Decimal.Fixed
import CssWorkbench.Decimal.Numeral
import CssWorkbench.Decimal.Shortest
import CssWorkbench.Dictionary
import CssWorkbench.Knowledge.AtRule
import CssWorkbench.Knowledge.Entry
import CssWorkbench.Knowledge.NamedColor
import CssWorkbench.Knowledge.Property
import CssWorkbench.Knowledge.Pseudo
import CssWorkbench.Knowledge.Value
import CssWorkbench.Layout.Format
import CssWorkbench.Layout.Text
import CssWorkbench.Main
import CssWorkbench.Outline.Folding
import CssWorkbench.Outline.Link
import CssWorkbench.Outline.Selection
import CssWorkbench.Outline.Symbol
import CssWorkbench.Proofs.Analysis.AppliedFixes
import CssWorkbench.Proofs.Analysis.BraceOffsets
import CssWorkbench.Proofs.Analysis.CompletionItems
import CssWorkbench.Proofs.Analysis.CompletionRequests
import CssWorkbench.Proofs.Analysis.DeclarationSearch
import CssWorkbench.Proofs.Analysis.EditDistance
import CssWorkbench.Proofs.Analysis.LintedDeclarations
import CssWorkbench.Proofs.Analysis.OfferedFixes
import CssWorkbench.Proofs.Analysis.ParsedSpecificity
import CssWorkbench.Proofs.Analysis.RequestSlices
import CssWorkbench.Proofs.Analysis.SelectorSyntax
import CssWorkbench.Proofs.Color.CalcGrammar
import CssWorkbench.Proofs.Color.CalcReading
import CssWorkbench.Proofs.Color.ColorSpans
import CssWorkbench.Proofs.Color.References
import CssWorkbench.Proofs.Custom.Exchange
import CssWorkbench.Proofs.Custom.ExchangeEdits
import CssWorkbench.Proofs.Custom.Handles
import CssWorkbench.Proofs.Custom.NameTokens
import CssWorkbench.Proofs.Custom.NamesRead
import CssWorkbench.Proofs.Custom.RenamedOccurrences
import CssWorkbench.Proofs.Custom.Renaming
import CssWorkbench.Proofs.Custom.StoredValues
import CssWorkbench.Proofs.Layout.Bare
import CssWorkbench.Proofs.Layout.BareReading
import CssWorkbench.Proofs.Layout.CompleteHeads
import CssWorkbench.Proofs.Layout.DeclarationText
import CssWorkbench.Proofs.Layout.Formatting
import CssWorkbench.Proofs.Layout.InPlace
import CssWorkbench.Proofs.Layout.OneLine
import CssWorkbench.Proofs.Layout.PrintedCompound
import CssWorkbench.Proofs.Layout.PrintedNodes
import CssWorkbench.Proofs.Layout.PrintedRun
import CssWorkbench.Proofs.Layout.PrintedSelector
import CssWorkbench.Proofs.Layout.PrintedStatements
import CssWorkbench.Proofs.Layout.PrintedValue
import CssWorkbench.Proofs.Layout.Reformatting
import CssWorkbench.Proofs.Layout.ReprintedHeads
import CssWorkbench.Proofs.Layout.ReprintedNodes
import CssWorkbench.Proofs.Layout.ReprintedSelectors
import CssWorkbench.Proofs.Layout.ReprintedStatements
import CssWorkbench.Proofs.Layout.RulesetStarts
import CssWorkbench.Proofs.Layout.Writing
import CssWorkbench.Proofs.Outline.FoldedLines
import CssWorkbench.Proofs.Outline.GrowingSelections
import CssWorkbench.Proofs.Outline.LinkTargets
import CssWorkbench.Proofs.Outline.LinkedChains
import CssWorkbench.Proofs.Session.ClosedDocuments
import CssWorkbench.Proofs.Session.IndexedDocuments
import CssWorkbench.Proofs.Session.OverlappingReadings
import CssWorkbench.Proofs.Session.PublishedDiagnostics
import CssWorkbench.Proofs.Session.UndisturbedCourses
import CssWorkbench.Proofs.Session.UsedAlone
import CssWorkbench.Proofs.Text.Bytes
import CssWorkbench.Proofs.Text.EditOrder
import CssWorkbench.Proofs.Text.InOrder
import CssWorkbench.Proofs.Text.Positions
import CssWorkbench.Proofs.Token.ByteClasses
import CssWorkbench.Proofs.Token.ByteReaders
import CssWorkbench.Proofs.Token.ByteScanning
import CssWorkbench.Proofs.Token.Coverage
import CssWorkbench.Proofs.Token.Cutting
import CssWorkbench.Proofs.Token.DimensionParts
import CssWorkbench.Proofs.Token.FirmCut
import CssWorkbench.Proofs.Token.FirmSequel
import CssWorkbench.Proofs.Token.KindCases
import CssWorkbench.Proofs.Token.LexemeCases
import CssWorkbench.Proofs.Token.LexemeSequel
import CssWorkbench.Proofs.Token.Lookahead
import CssWorkbench.Proofs.Token.NameEnds
import CssWorkbench.Proofs.Token.NameSequel
import CssWorkbench.Proofs.Token.NumberSequel
import CssWorkbench.Proofs.Token.StretchSequel
import CssWorkbench.Proofs.Token.Tail
import CssWorkbench.Proofs.Token.TargetText
import CssWorkbench.Proofs.Token.UrlSequel
import CssWorkbench.Proofs.Tree.Accounting
import CssWorkbench.Proofs.Tree.BlockDepth
import CssWorkbench.Proofs.Tree.BlockEnds
import CssWorkbench.Proofs.Tree.CleanSpans
import CssWorkbench.Proofs.Tree.CommaGroups
import CssWorkbench.Proofs.Tree.Concatenation
import CssWorkbench.Proofs.Tree.DeclarationPlaces
import CssWorkbench.Proofs.Tree.Declarations
import CssWorkbench.Proofs.Tree.MatchingBrackets
import CssWorkbench.Proofs.Tree.Moved
import CssWorkbench.Proofs.Tree.MovedReading
import CssWorkbench.Proofs.Tree.Nesting
import CssWorkbench.Proofs.Tree.NodeOrder
import CssWorkbench.Proofs.Tree.Origins
import CssWorkbench.Proofs.Tree.Paths
import CssWorkbench.Proofs.Tree.Reading
import CssWorkbench.Proofs.Tree.ReadingOfParser
import CssWorkbench.Proofs.Tree.ReadingProgress
import CssWorkbench.Proofs.Tree.Replacement
import CssWorkbench.Proofs.Tree.Roles
import CssWorkbench.Proofs.Tree.Runs
import CssWorkbench.Proofs.Tree.SameReading
import CssWorkbench.Proofs.Tree.SelectorBuilding
import CssWorkbench.Proofs.Tree.SelectorGrammar
import CssWorkbench.Proofs.Tree.SelectorShape
import CssWorkbench.Proofs.Tree.SelectorSpans
import CssWorkbench.Proofs.Tree.Shift
import CssWorkbench.Proofs.Tree.SourceCut
import CssWorkbench.Proofs.Tree.StandingRuns
import CssWorkbench.Proofs.Tree.StoredTokens
import CssWorkbench.Proofs.Tree.Stretches
import CssWorkbench.Proofs.Tree.TreeGap
import CssWorkbench.Proofs.Tree.Turns
import CssWorkbench.Proofs.Tree.ValueTokens
import CssWorkbench.Proofs.Url.FileAddresses
import CssWorkbench.Proofs.Workspace.ChangePlaces
import CssWorkbench.Proofs.Workspace.IndexConsistency
import CssWorkbench.Proofs.Workspace.MostRecent
import CssWorkbench.Proofs.Workspace.ScannedFolders
import CssWorkbench.Session.Connection
import CssWorkbench.Session.Decoding
import CssWorkbench.Session.Encoding
import CssWorkbench.Session.Job
import CssWorkbench.Session.Request
import CssWorkbench.Session.Settings
import CssWorkbench.Session.State
import CssWorkbench.Text.Blank
import CssWorkbench.Text.Edit
import CssWorkbench.Text.Parts
import CssWorkbench.Text.Position
import CssWorkbench.Text.Span
import CssWorkbench.Token.Basic
import CssWorkbench.Token.Bracket
import CssWorkbench.Token.ByteScanner
import CssWorkbench.Token.Dimension
import CssWorkbench.Token.Scanner
import CssWorkbench.Token.Stretch
import CssWorkbench.Tree.Basic
import CssWorkbench.Tree.Fragment
import CssWorkbench.Tree.Parser
import CssWorkbench.Tree.Run
import CssWorkbench.Tree.Selector
import CssWorkbench.Tree.SyntaxError
import CssWorkbench.Tree.Walk
import CssWorkbench.Url.Basic
import CssWorkbench.Url.Domain
import CssWorkbench.Url.File
import CssWorkbench.Url.Host
import CssWorkbench.Url.Path
import CssWorkbench.Url.Percent
import CssWorkbench.Url.Punycode
import CssWorkbench.Url.Reference
import CssWorkbench.Wire.JsonValue
import CssWorkbench.Workspace.Addressing
import CssWorkbench.Workspace.Change
import CssWorkbench.Workspace.Document
import CssWorkbench.Workspace.FilePath
import CssWorkbench.Workspace.FileTree
import CssWorkbench.Workspace.PropertyIndex
import CssWorkbench.Workspace.Search
import CssWorkbench.Workspace.VariableIndex
