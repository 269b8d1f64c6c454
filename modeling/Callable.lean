import Callable.Assembly.Assemble
import Callable.Config.Context
import Callable.Config.Load
import Callable.Descriptor.Fingerprint
import Callable.Exposure
import Callable.Json.Pointer
import Callable.Proofs.Descriptor.Rules
import Callable.Proofs.Docs.Scan
import Callable.Proofs.Reference.Canonical
import Callable.Proofs.Reference.Extension
import Callable.Schema
import Callable.Shape
import Callable.Text.Align
import Callable.TypeExpr.Order
import Callable.Proofs.Assembly.Precedence
import Callable.Proofs.Assembly.Withdrawal
import Callable.Proofs.Assembly.Signature
import Callable.Proofs.Assembly.Context
import Callable.Proofs.Assembly.Optional
import Callable.Proofs.Assembly.Redeclaration
import Callable.Proofs.Wire.Value
import Callable.Proofs.Wire.Record
import Callable.Proofs.Wire.Written
import Callable.Proofs.Wire.RoundTrip
import Callable.Proofs.Schema.Meaning
import Callable.Proofs.Schema.Conformance
import Callable.Proofs.Schema.Readable
import Callable.Proofs.Reference.Nameless
import Callable.Proofs.Reference.Limits
import Callable.Proofs.Config.Closure
import Callable.Proofs.Config.Meaning
import Callable.Proofs.Docs.Dialects
import Callable.Proofs.Docs.Default
import Callable.Proofs.Docs.Relayout
import Callable.Proofs.Reference.Lettering
import Callable.Proofs.Docs.TypeText
import Callable.Proofs.Reference.Nesting
import Callable.Proofs.Reference.Refusal
import Callable.Proofs.Assembly.Naming
import Callable.Proofs.Config.Headers
import Callable.Proofs.TypeExpr.Grouping
import Callable.Proofs.Reference.Depth
import Callable.Proofs.Reference.UnionSpelling
import Callable.Proofs.Docs.Gathering
import Callable.Proofs.Docs.Coercion
import Callable.Proofs.Docs.Squeeze
import Callable.Proofs.Docs.Numeral
import Callable.Proofs.Docs.Results
import Callable.Proofs.Docs.FieldOrder
import Callable.Proofs.Docs.Sentence
import Callable.Proofs.Shape.Nullability
import Callable.Proofs.Reference.Recursion
