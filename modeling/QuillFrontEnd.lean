import QuillFrontEnd.Analysis
import QuillFrontEnd.Command
import QuillFrontEnd.Grammar.Production
import QuillFrontEnd.Main
import QuillFrontEnd.Proofs.Accounting
import QuillFrontEnd.Tree.Visit
import QuillFrontEnd.Proofs.Derivation
import QuillFrontEnd.Proofs.Following
import QuillFrontEnd.Proofs.CompleteTree
import QuillFrontEnd.Proofs.RoundTrip
import QuillFrontEnd.Proofs.Language
import QuillFrontEnd.Proofs.Locality
import QuillFrontEnd.Proofs.ValidPrefix
import QuillFrontEnd.Proofs.Tiling
import QuillFrontEnd.Proofs.Verdict
import QuillFrontEnd.Proofs.MapTerminals
import QuillFrontEnd.Proofs.Repair
import QuillFrontEnd.Proofs.Confinement
import QuillFrontEnd.Proofs.Handling
import QuillFrontEnd.Proofs.DamagedPhrases
import QuillFrontEnd.Proofs.Region
import QuillFrontEnd.Proofs.Containment
import QuillFrontEnd.Proofs.Foresight
import QuillFrontEnd.Proofs.Termination
import QuillFrontEnd.Proofs.Steering
import QuillFrontEnd.Proofs.Formatting
import QuillFrontEnd.Proofs.LineByLine
import QuillFrontEnd.Proofs.Outlook
import QuillFrontEnd.Proofs.Cascades
import QuillFrontEnd.Proofs.QueueInvariant
import QuillFrontEnd.Proofs.MergedDiagnostics
import QuillFrontEnd.Proofs.Repetitions
import QuillFrontEnd.Proofs.Truncation
import QuillFrontEnd.Proofs.FirstAndFollow
import QuillFrontEnd.Proofs.CheckCommand
import QuillFrontEnd.Proofs.ReportCounts
import QuillFrontEnd.Proofs.Skipping
import QuillFrontEnd.Proofs.Insertions
import QuillFrontEnd.Proofs.Keywords
import QuillFrontEnd.Proofs.FatalReports
import QuillFrontEnd.Proofs.DamagedParams
import QuillFrontEnd.Proofs.TokenPositions
import QuillFrontEnd.Proofs.ReportOrder
import QuillFrontEnd.Proofs.WellFormedTree
import QuillFrontEnd.Proofs.PhraseSpans
import QuillFrontEnd.Proofs.SpanNesting
import QuillFrontEnd.Proofs.Printing
import QuillFrontEnd.Proofs.QueueRuns
import QuillFrontEnd.Proofs.Snippets
import QuillFrontEnd.Proofs.Visiting
import QuillFrontEnd.Proofs.OutlineLines
import QuillFrontEnd.Proofs.Colors
import QuillFrontEnd.Proofs.TokenDump
import QuillFrontEnd.Proofs.Arguments
import QuillFrontEnd.Proofs.Cursors
import QuillFrontEnd.Proofs.SpacedKinds
import QuillFrontEnd.Proofs.Track
