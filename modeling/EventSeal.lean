import EventSeal.Event.Session
import EventSeal.Gate
import EventSeal.Main
import EventSeal.Proofs.Json.Quoting
import EventSeal.Proofs.Json.Numbering
import EventSeal.Proofs.Json.Trees
import EventSeal.Proofs.Json.Writing
import EventSeal.Proofs.Json.Nesting
import EventSeal.Proofs.Record.Rewriting
import EventSeal.Proofs.Json.Lines
import EventSeal.Proofs.Record.WireForms
import EventSeal.Proofs.CommandLine.SignedLines
import EventSeal.Proofs.Record.Entities
import EventSeal.Proofs.Access.Admission
import EventSeal.Proofs.Json.Occurrences
import EventSeal.Proofs.Record.Fields
import EventSeal.Proofs.Record.Leniency
import EventSeal.Proofs.Event.Canonical
import EventSeal.Proofs.Access.Tampering
import EventSeal.Proofs.Event.Sessions
import EventSeal.Proofs.Access.Deployment
import EventSeal.Proofs.CommandLine.Verdicts
import EventSeal.Proofs.Json.Breaks
import EventSeal.Proofs.Json.Stumps
import EventSeal.Proofs.Json.Truncation
import EventSeal.Proofs.Json.Wholeness
import EventSeal.Proofs.Record.Framing
import EventSeal.Proofs.Json.Figures
import EventSeal.Proofs.Json.Spelled
import EventSeal.Proofs.Record.Shapes
import EventSeal.Proofs.Text.Lines
import EventSeal.Proofs.Json.Indenting
import EventSeal.Proofs.Record.Sorting
import EventSeal.Proofs.Record.Trimming
import EventSeal.Proofs.CommandLine.Reports
import EventSeal.Proofs.CommandLine.Tables
import EventSeal.Proofs.CommandLine.Redaction
import EventSeal.Proofs.CommandLine.Resigning
import EventSeal.Proofs.Access.Lifecycle
import EventSeal.Proofs.Text.Digits
import EventSeal.Proofs.Version.Labels
import EventSeal.Proofs.Version.Bumps
import EventSeal.Proofs.Digest.Forms
import EventSeal.Proofs.Digest.Origins
import EventSeal.Proofs.Json.Ends
import EventSeal.Proofs.Record.Arrays
import EventSeal.Proofs.Text.Integers
import EventSeal.Proofs.Record.QuotedIntegers
import EventSeal.Proofs.Json.Reals
import EventSeal.Proofs.Json.Depths
import EventSeal.Proofs.Record.RuleTexts
import EventSeal.Proofs.Text.Separators
import EventSeal.Proofs.Event.Labels
import EventSeal.Proofs.Text.LetterCase
import EventSeal.Proofs.Access.Modes
import EventSeal.Proofs.Text.Trimming
import EventSeal.Proofs.Text.Faults
import EventSeal.Proofs.Access.Ranks
import EventSeal.Proofs.CommandLine.Columns
import EventSeal.Proofs.Event.Building
