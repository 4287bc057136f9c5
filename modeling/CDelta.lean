import CDelta.Bytes
import CDelta.Span
import CDelta.Token
import CDelta.Fault
import CDelta.Bracket
import CDelta.Literal
import CDelta.Mark
import CDelta.Mark.Lexical
import CDelta.Draft
import CDelta.Directive
import CDelta.Conditional
import CDelta.Conditional.Choice
import CDelta.Conditional.Listing
import CDelta.Layout
import CDelta.Text.Blank
import CDelta.Text.Integer
import CDelta.Text.Printable
import CDelta.Text.Quoted
import CDelta.Text.Utf8
import CDelta.Outline
import CDelta.Footprint
import CDelta.Settings
import CDelta.Survey
import CDelta.View
import CDelta.Outcome
import CDelta.Variant
import CDelta.Report
import CDelta.SourceNames
import CDelta.Environment
import CDelta.Environment.Reference
import CDelta.Environment.Assignments
import CDelta.Path
import CDelta.Report.Run
import CDelta.FileFault
import CDelta.FileTree
import CDelta.Trace
import CDelta.CommandLine
import CDelta.Run
import CDelta.Text.Timestamp
import CDelta.Main
import CDelta.Proofs.Conditional.Reading
import CDelta.Proofs.Conditional.Choice
import CDelta.Proofs.Mask
import CDelta.Proofs.Piece
import CDelta.Proofs.Token
import CDelta.Proofs.Spelling
import CDelta.Proofs.Respelling
import CDelta.Proofs.Comment
import CDelta.Proofs.Lexing
import CDelta.Proofs.Recording
import CDelta.Proofs.Passage
import CDelta.Proofs.CommentEnd
import CDelta.Proofs.Verdict
import CDelta.Proofs.Directive
import CDelta.Proofs.Layout
import CDelta.Proofs.Fingerprint
import CDelta.Proofs.Comparison
import CDelta.Proofs.Variant
import CDelta.Proofs.Realization
import CDelta.Proofs.NormalForm
import CDelta.Proofs.Automaton
import CDelta.Proofs.Collapse.Blocks
import CDelta.Proofs.Discovery
import CDelta.Proofs.Survey
import CDelta.Proofs.Collapse.Survey
import CDelta.Proofs.Outline
import CDelta.Proofs.Footprint
import CDelta.Proofs.Collapse.Report
import CDelta.Proofs.Formatting.Pieces
import CDelta.Proofs.Insertion.Blocks
import CDelta.Proofs.Conditional.Relocation
import CDelta.Proofs.Conditional.Tiling
import CDelta.Proofs.Conditional.Selection
import CDelta.Proofs.Formatting.Survey
import CDelta.Proofs.Formatting.Report
import CDelta.Proofs.Conditional.Grammar
import CDelta.Proofs.Residue
import CDelta.Proofs.Edit.Survey
import CDelta.Proofs.Edit.Report
import CDelta.Proofs.Edit.Word
import CDelta.Proofs.Edit.Body
import CDelta.Proofs.BracketGroup
import CDelta.Proofs.BracketLine
import CDelta.Proofs.Settings
import CDelta.Proofs.DirectoryRun
import CDelta.Proofs.Solitary
import CDelta.Proofs.Extraction
import CDelta.Proofs.Segment
import CDelta.Proofs.Seam
import CDelta.Proofs.Union
import CDelta.Proofs.Tokenization
import CDelta.Proofs.Pairing
import CDelta.Proofs.Diagnostics
import CDelta.Proofs.Naming
import CDelta.Proofs.Printing
import CDelta.Proofs.Conditional.Digits
import CDelta.Proofs.Draft
import CDelta.Proofs.Quotation
