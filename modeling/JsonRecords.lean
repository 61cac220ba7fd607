import JsonRecords.Command.Log
import JsonRecords.Command.Options
import JsonRecords.Command.Run
import JsonRecords.Decimal.Digits
import JsonRecords.Decimal.Rounding
import JsonRecords.Decimal.Shortest
import JsonRecords.Document
import JsonRecords.Error
import JsonRecords.Json.Decode
import JsonRecords.Json.Encode
import JsonRecords.Json.Fault
import JsonRecords.Json.Lexeme
import JsonRecords.Json.Nesting
import JsonRecords.Json.Shape
import JsonRecords.Json.Skip
import JsonRecords.Json.Value
import JsonRecords.Keyed
import JsonRecords.Output.FileTree
import JsonRecords.Output.Path
import JsonRecords.Output.Sink
import JsonRecords.Output.Write
import JsonRecords.Proofs.Keyed
import JsonRecords.Proofs.Observed
import JsonRecords.Proofs.Schema.Grouping
import JsonRecords.Record.Basic
import JsonRecords.Record.Codec
import JsonRecords.Record.Generate
import JsonRecords.Schema.Basic
import JsonRecords.Schema.Codec
import JsonRecords.Schema.Conflict
import JsonRecords.Schema.Inference
import JsonRecords.Schema.Merge
import JsonRecords.Target
import JsonRecords.Target.Identifier
import JsonRecords.Target.Neutral
import JsonRecords.Target.Python
import JsonRecords.Target.Rust
import JsonRecords.Target.Scope
import JsonRecords.Target.TypeScript
import JsonRecords.Text.Ascii
import JsonRecords.Text.Lines
import JsonRecords.Text.Quoted
import JsonRecords.Text.Utf8
import JsonRecords.Text.Visible
import JsonRecords.Main
import JsonRecords.Proofs.Schema.Extension
import JsonRecords.Proofs.Schema.Audit
import JsonRecords.Proofs.Schema.Shape
import JsonRecords.Proofs.Schema.Alike
import JsonRecords.Proofs.Json.Distinct
import JsonRecords.Proofs.Json.Shuffled
import JsonRecords.Proofs.Schema.MemberOrder
import JsonRecords.Proofs.Schema.SampleOrder
import JsonRecords.Proofs.Schema.Absorption
import JsonRecords.Proofs.Schema.Nested
import JsonRecords.Proofs.Record.Walk
import JsonRecords.Proofs.Record.Drafts
import JsonRecords.Proofs.Record.Ancestry
import JsonRecords.Proofs.Record.Visits
import JsonRecords.Proofs.Schema.Reachable
import JsonRecords.Proofs.Record.Separator
import JsonRecords.Proofs.Record.Positions
import JsonRecords.Proofs.Text.Utf8
import JsonRecords.Proofs.Json.Strings
import JsonRecords.Proofs.Json.Row
import JsonRecords.Proofs.Json.Written
import JsonRecords.Proofs.Json.Shape
import JsonRecords.Proofs.RoundTrip
import JsonRecords.Proofs.Json.Decoding
import JsonRecords.Proofs.Json.Levels
import JsonRecords.Proofs.Json.Nesting
import JsonRecords.Proofs.Document
import JsonRecords.Proofs.Target.Identifier
import JsonRecords.Proofs.Target.Lines
import JsonRecords.Proofs.Target.Python
import JsonRecords.Proofs.Target.Rust
import JsonRecords.Proofs.Target.Source
import JsonRecords.Proofs.Schema.Growth
import JsonRecords.Proofs.Schema.PathText
import JsonRecords.Proofs.Target.Apart
import JsonRecords.Proofs.Output.Places
import JsonRecords.Proofs.Output.Write
import JsonRecords.Proofs.Command.Delivery
import JsonRecords.Proofs.Target.Scope
import JsonRecords.Proofs.Target.Legal
import JsonRecords.Proofs.Target.Rename
import JsonRecords.Proofs.Target.Literal
import JsonRecords.Proofs.Target.Suffix
import JsonRecords.Proofs.Target.PropertyKey
import JsonRecords.Proofs.Document.Lines
import JsonRecords.Proofs.Output.Sink
import JsonRecords.Proofs.Target.Sanitize
import JsonRecords.Proofs.Output.Parents
import JsonRecords.Proofs.Output.Directories
