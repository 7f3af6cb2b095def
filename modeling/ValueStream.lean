import ValueStream.Main
import ValueStream.Proofs.Buffer
import ValueStream.Proofs.Sparse.Code
import ValueStream.Proofs.Stream.Call
import ValueStream.Proofs.Sparse.Writer
import ValueStream.Proofs.Sparse.Reader
import ValueStream.Proofs.Dense.Writer
import ValueStream.Proofs.Dense.Reader
import ValueStream.Proofs.Word
import ValueStream.Proofs.Stream.Recall
import ValueStream.Proofs.Value.Wire
import ValueStream.Proofs.Codec
import ValueStream.Proofs.Scopes
import ValueStream.Proofs.Speculation
import ValueStream.Proofs.Dense.Base128
import ValueStream.Proofs.Value.Record
import ValueStream.Proofs.Tool.Generate
import ValueStream.Proofs.Tool.Line
import ValueStream.Proofs.Tool.Dump
import ValueStream.Proofs.Tool.Scoped
import ValueStream.Proofs.Binary.Format
import ValueStream.Proofs.Text.Numeral
import ValueStream.Proofs.Text.Plain
import ValueStream.Proofs.Decimal.Numeral
import ValueStream.Proofs.Decimal.Shortest
import ValueStream.Proofs.Decimal.Layout
import ValueStream.Proofs.Value.Text
import ValueStream.Proofs.Csv
import ValueStream.Proofs.Binary.Nearest
import ValueStream.Proofs.Decimal.Size
import ValueStream.Proofs.Decimal.Fewest
import ValueStream.Proofs.Buffer.History
import ValueStream.Proofs.Tool.Files
import ValueStream.Proofs.Digits
import ValueStream.Proofs.Sparse.Canonical
import ValueStream.Proofs.Dense.Canonical
import ValueStream.Proofs.Canonical
import ValueStream.Proofs.Value.Reencode
import ValueStream.Proofs.Buffer.Growth
import ValueStream.Proofs.Stream.Block
import ValueStream.Proofs.Stream.Growth
import ValueStream.Proofs.Stream.Padding
import ValueStream.Proofs.Tool.Recordwise
import ValueStream.Proofs.Stream.Ahead
import ValueStream.Proofs.Tool.Progress
import ValueStream.Proofs.Value.Equality
import ValueStream.Proofs.Text.Parts
import ValueStream.Proofs.Text.Denotes
import ValueStream.Proofs.Value.Language
import ValueStream.Proofs.Csv.Grammar
import ValueStream.Proofs.Schema.Grammar
import ValueStream.Proofs.Stream.Snapshot
import ValueStream.Proofs.Json.Reader
import ValueStream.Proofs.Json.Document
import ValueStream.Proofs.Json.Library
import ValueStream.Proofs.Schema.Origin
import ValueStream.Proofs.Binary.Error
import ValueStream.Proofs.Decimal.Apart
import ValueStream.Proofs.Decimal.Step
import ValueStream.Proofs.Json.Conversion
import ValueStream.Proofs.Json.Single
import ValueStream.Proofs.Json.Number
import ValueStream.Proofs.Json.Numeral
import ValueStream.Proofs.Value.Json
import ValueStream.Proofs.Checked.Run
import ValueStream.Proofs.Stream.Magnitude
