import Folio.Atom
import Folio.Attributes
import Folio.Attributes.Assignment
import Folio.Base64
import Folio.Build
import Folio.Calendar
import Folio.Command
import Folio.Command.Arguments
import Folio.Decimal.Binary64
import Folio.Decimal.Integer
import Folio.Decimal.Numeral
import Folio.Decimal.Shortest
import Folio.Disk
import Folio.Document
import Folio.Encoding
import Folio.Encoding.SingleByte
import Folio.Encoding.Utf8
import Folio.Encoding.Wide
import Folio.Event
import Folio.FileTree
import Folio.FileTree.Change
import Folio.FileTree.Resolve
import Folio.Grammar
import Folio.Inclusion
import Folio.Main
import Folio.OrderedMap
import Folio.Page
import Folio.Path
import Folio.Relink
import Folio.Settings
import Folio.Text
import Folio.Text.Blank
import Folio.Text.Digit
import Folio.Text.Half
import Folio.Text.Printable
import Folio.Text.Quoted
import Folio.Value
import Folio.Value.Places
import Folio.Yaml.Content
import Folio.Yaml.Error
import Folio.Yaml.Input
import Folio.Yaml.Layout
import Folio.Yaml.Meaning
import Folio.Yaml.Merge
import Folio.Yaml.Node
import Folio.Yaml.Scalar
import Folio.Yaml.Source
import Folio.Yaml.Timestamp
import Folio.Yaml.Token
import Folio.Yaml.Version
import Folio.Proofs.Ways
import Folio.Proofs.Nested
import Folio.Proofs.Outline
import Folio.Proofs.Reach
import Folio.Proofs.PageTree
import Folio.Proofs.Footprint
import Folio.Proofs.Readback
import Folio.Proofs.WorkingTree
import Folio.Proofs.Growth
import Folio.Proofs.Copies
import Folio.Proofs.Visits
import Folio.Proofs.Placement
import Folio.Proofs.WrittenOnce
import Folio.Proofs.InclusionPass
import Folio.Proofs.Lookup
import Folio.Proofs.Removal
import Folio.Proofs.Answers
import Folio.Proofs.Retained
import Folio.Proofs.Writing
import Folio.Proofs.Agreement
import Folio.Proofs.Replay
import Folio.Proofs.Listing
import Folio.Proofs.Quiet
import Folio.Proofs.Rerun
import Folio.Proofs.Passages
import Folio.Proofs.Clearing
import Folio.Proofs.Sharing
import Folio.Proofs.Ending
import Folio.Proofs.NullFree
import Folio.Proofs.Failures
import Folio.Proofs.Retry
import Folio.Proofs.PageCopies
import Folio.Proofs.Resemblance
import Folio.Proofs.Parallel
import Folio.Proofs.Substitution
import Folio.Proofs.Twin
import Folio.Proofs.Moving
import Folio.Proofs.Relocation
import Folio.Proofs.Indifference
import Folio.Proofs.Account
import Folio.Proofs.Clean
import Folio.Proofs.Unhindered
import Folio.Proofs.Feasible
import Folio.Proofs.Turns
import Folio.Proofs.Spelling
import Folio.Proofs.Relative
import Folio.Proofs.Pattern
import Folio.Proofs.Tokenizing
import Folio.Proofs.Decoding
import Folio.Proofs.Rereading
import Folio.Proofs.Rendering
import Folio.Proofs.Placeholders
import Folio.Proofs.Dangling
import Folio.Proofs.Report
import Folio.Proofs.Interruption
import Folio.Proofs.Denoting
import Folio.Proofs.PartialCopies
import Folio.Proofs.Validated
import Folio.Proofs.Marks
import Folio.Proofs.Precedence
import Folio.Proofs.Loading
