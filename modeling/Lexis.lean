import Lexis.Bytes
import Lexis.Command.Flags
import Lexis.Command.Run
import Lexis.Diagnostic
import Lexis.Files
import Lexis.Kind
import Lexis.Literal
import Lexis.Literal.Decode
import Lexis.Main
import Lexis.Number.Binary64
import Lexis.Number.FloatLayout
import Lexis.Number.FloatText
import Lexis.Number.Radix
import Lexis.Number.Shortest
import Lexis.Report
import Lexis.Report.Json
import Lexis.Report.Print
import Lexis.Report.Yaml
import Lexis.Scan.Cursor
import Lexis.Scan.Lexeme
import Lexis.Scan.Scanner
import Lexis.Settings
import Lexis.Settings.Fields
import Lexis.Text.Printable
import Lexis.Text.Quoted
import Lexis.Text.Utf8
import Lexis.Token
import Lexis.Value
import Lexis.Yaml.Document
import Lexis.Yaml.DoubleQuoted
import Lexis.Yaml.Mark
import Lexis.Yaml.Node
import Lexis.Proofs.Command.Filters
import Lexis.Proofs.Literal.Decoding
import Lexis.Proofs.Literal.Floats
import Lexis.Proofs.Literal.Integers
import Lexis.Proofs.Literal.Strings
import Lexis.Proofs.Number.Positional
import Lexis.Proofs.Number.Rejection
import Lexis.Proofs.Number.Rounding
import Lexis.Proofs.Report.Building
import Lexis.Proofs.Report.Faithful
import Lexis.Proofs.Report.Faults
import Lexis.Proofs.Report.JsonParts
import Lexis.Proofs.Report.TextLines
import Lexis.Proofs.Report.Unambiguous
import Lexis.Proofs.Report.Writing
import Lexis.Proofs.Scan.Alone
import Lexis.Proofs.Scan.Appending
import Lexis.Proofs.Scan.Blanks
import Lexis.Proofs.Scan.Boundaries
import Lexis.Proofs.Scan.Calls
import Lexis.Proofs.Scan.Checked
import Lexis.Proofs.Scan.Choices
import Lexis.Proofs.Scan.Decoding
import Lexis.Proofs.Scan.Grammar
import Lexis.Proofs.Scan.Lines
import Lexis.Proofs.Scan.Lossless
import Lexis.Proofs.Scan.Movement
import Lexis.Proofs.Scan.Munch
import Lexis.Proofs.Scan.Prefixes
import Lexis.Proofs.Scan.Recognition
import Lexis.Proofs.Scan.Reports
import Lexis.Proofs.Scan.Restart
import Lexis.Proofs.Scan.Runs
import Lexis.Proofs.Scan.Steps
import Lexis.Proofs.Stream.Stack
import Lexis.Proofs.Text.Agreement
import Lexis.Proofs.Text.Encoding
import Lexis.Proofs.Text.Quoting
import Lexis.Proofs.Text.Validity
import Lexis.Proofs.Yaml.Loading
import Lexis.Proofs.Yaml.Scalars
