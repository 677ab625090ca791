import JobMarkup.Cursor
import JobMarkup.Highlight.Relative
import JobMarkup.Main
import JobMarkup.Proofs.Completeness
import JobMarkup.Proofs.Reading
import JobMarkup.Proofs.RoundTrip
import JobMarkup.SourceText.Edit
import JobMarkup.Proofs.CoveredSpans
import JobMarkup.Proofs.Edits
import JobMarkup.Proofs.HighlightOrder
import JobMarkup.Proofs.FilledNodes
import JobMarkup.Proofs.ReportedTokens
import JobMarkup.Proofs.CollectedReferences
import JobMarkup.Proofs.AddressedSpans
import JobMarkup.Proofs.UnreadMarkup
import JobMarkup.Proofs.LineModel
import JobMarkup.Proofs.PositionMaps
import JobMarkup.Proofs.Tiling
import JobMarkup.Grammar.Scanner
import JobMarkup.Proofs.Scanning
import JobMarkup.Proofs.Progress
import JobMarkup.Proofs.Instances
import JobMarkup.Proofs.NodeForms
import JobMarkup.Proofs.SymbolTexts
import JobMarkup.Proofs.Assignments
import JobMarkup.Proofs.CommentEnds
import JobMarkup.Proofs.RecordedSymbols
import JobMarkup.Proofs.DeepNesting
import JobMarkup.Proofs.Relocation
import JobMarkup.Proofs.InsertedComments
import JobMarkup.Proofs.SpanRemoval
import JobMarkup.Proofs.LongestLexemes
import JobMarkup.Proofs.SymbolGrammar
import JobMarkup.Proofs.ContentValues
import JobMarkup.Template.Binder
import JobMarkup.Proofs.Extents
import JobMarkup.Proofs.BinderLogs
import JobMarkup.Proofs.Omissions
import JobMarkup.Proofs.StepwiseBinding
import JobMarkup.Proofs.BindingHistory
import JobMarkup.Proofs.NestingBound
import JobMarkup.Proofs.TokenMaps
import JobMarkup.Proofs.DocumentNames
import JobMarkup.SourceText.Loader
import JobMarkup.Proofs.LineEndStyles
import JobMarkup.Proofs.RelativeForm
import JobMarkup.Proofs.WrittenIdentifiers
import JobMarkup.Proofs.LeastCover
import JobMarkup.Proofs.LineHighlights
import JobMarkup.Proofs.ReferenceGroups
import JobMarkup.Proofs.CursorSessions
