import LambdaScript.Codec.Config
import LambdaScript.Codec.Expr
import LambdaScript.Config.Load
import LambdaScript.Config.Schema
import LambdaScript.Json.Read
import LambdaScript.Json.Write
import LambdaScript.Proofs.Emit.Labels
import LambdaScript.Proofs.Emit.Justification
import LambdaScript.Proofs.Emit.Modes
import LambdaScript.Proofs.Emit.Unsupported
import LambdaScript.Proofs.Reading.Brackets
import LambdaScript.Proofs.Emit.Session
import LambdaScript.Proofs.Emit.Capture
import LambdaScript.Proofs.Time.Calendar
import LambdaScript.Proofs.Time.InstantText
import LambdaScript.Proofs.Time.BinaryForm
import LambdaScript.Proofs.Json.Document
import LambdaScript.Proofs.Number.Range
import LambdaScript.Proofs.Codec.Encodes
import LambdaScript.Proofs.Codec.Yields
import LambdaScript.Proofs.Codec.Value
import LambdaScript.Proofs.Codec.Expr
import LambdaScript.Proofs.Codec.Inverse
import LambdaScript.Proofs.Emit.Annotations
import LambdaScript.Proofs.Expr.Types
import LambdaScript.Proofs.Expr.Rebuild
import LambdaScript.Proofs.Expr.Erasure
import LambdaScript.Proofs.Emit.Erasure
import LambdaScript.Proofs.Emit.Folding
import LambdaScript.Proofs.Reading.Reader
import LambdaScript.Proofs.Reading.Spelling
import LambdaScript.Proofs.Reading.Bracketed
import LambdaScript.Proofs.Emit.Lifting
import LambdaScript.Proofs.Value.Datum
import LambdaScript.Proofs.Codec.Restyled
import LambdaScript.Proofs.Annotations.History
import LambdaScript.Proofs.Expr.Core
import LambdaScript.Proofs.Emit.Path
import LambdaScript.Proofs.Emit.Chain
import LambdaScript.Proofs.Value.Conversion
import LambdaScript.Proofs.Value.Recoding
import LambdaScript.Proofs.Value.Unwritten
import LambdaScript.Proofs.Number.Integral
import LambdaScript.Proofs.Value.Rounding
import LambdaScript.Proofs.Emit.Initializer
import LambdaScript.Proofs.Value.Listing
import LambdaScript.Proofs.Reading.Boundaries
import LambdaScript.Proofs.Json.Lexeme
import LambdaScript.Proofs.Json.RoundTrip
import LambdaScript.Proofs.Config.Load
import LambdaScript.Proofs.Config.Schema
import LambdaScript.Proofs.Dump.Declaration
import LambdaScript.Proofs.Dump.Expr
