import CheckedExpr.Descriptor.Compact
import CheckedExpr.Descriptor.Dialect
import CheckedExpr.Descriptor.Verbose
import CheckedExpr.Evaluation
import CheckedExpr.Expr.Parse
import CheckedExpr.Inference
import CheckedExpr.Machine
import CheckedExpr.Model.Bytes
import CheckedExpr.Model.Form
import CheckedExpr.Model.Merge
import CheckedExpr.Proofs.ModelOrder
import CheckedExpr.Report
import CheckedExpr.Proofs.InferenceRules
import CheckedExpr.Proofs.TreeInduction
import CheckedExpr.Proofs.Inhabitance
import CheckedExpr.Proofs.DescriptorDenotation
import CheckedExpr.Proofs.Layout
import CheckedExpr.Proofs.MachineSoundness
import CheckedExpr.Proofs.Lexemes
import CheckedExpr.Proofs.Precedence
import CheckedExpr.Proofs.VerboseRoundTrip
import CheckedExpr.Proofs.InferenceMonotone
import CheckedExpr.Proofs.Descent
import CheckedExpr.Proofs.MakingRules
import CheckedExpr.Proofs.ParseHeight
import CheckedExpr.Proofs.BracketDepth
import CheckedExpr.Proofs.Cutoff
import CheckedExpr.Proofs.Accepting
import CheckedExpr.Proofs.ChainSyntax
import CheckedExpr.Proofs.DepthCutoff
import CheckedExpr.Proofs.ChainLexemes
import CheckedExpr.Proofs.ChainReading
import CheckedExpr.Proofs.Passing
import CheckedExpr.Proofs.ReadingOn
import CheckedExpr.Proofs.SpacedText
import CheckedExpr.Proofs.QuotedLiteral
import CheckedExpr.Proofs.Composition
import CheckedExpr.Proofs.SelfDelimiting
import CheckedExpr.Proofs.Serialization
import CheckedExpr.Proofs.HostCalls
import CheckedExpr.Proofs.EntryPoints
import CheckedExpr.Session
import CheckedExpr.Proofs.TableOrder
import CheckedExpr.Proofs.SessionStore
import CheckedExpr.Proofs.TokenRows
import CheckedExpr.Proofs.CompactSpelling
import CheckedExpr.Proofs.CompactReading
import CheckedExpr.Proofs.Conformance
import CheckedExpr.Proofs.KeyUniqueness
import CheckedExpr.Proofs.BoundedDescent
import CheckedExpr.Proofs.UnsignedNumbers
import CheckedExpr.Proofs.ParsedShape
import CheckedExpr.Proofs.Coverage
import CheckedExpr.Proofs.DepthLimits
import CheckedExpr.Proofs.MeetingOrder
import CheckedExpr.Proofs.Mentions
import CheckedExpr.Proofs.Lockstep
import CheckedExpr.Proofs.Rounding
import CheckedExpr.Proofs.DecimalNumerals
import CheckedExpr.Proofs.DecimalRounding
import CheckedExpr.Proofs.NumberText
import CheckedExpr.Proofs.WholeNumbers
import CheckedExpr.Proofs.IndexKeys
import CheckedExpr.Proofs.NumericStrings
import CheckedExpr.Proofs.CompositeNumbers
import CheckedExpr.Proofs.HexRounding
import CheckedExpr.Proofs.NumberStrings
import CheckedExpr.Proofs.NumeralLiterals
import CheckedExpr.Proofs.LooseEquality
import CheckedExpr.Proofs.TextOrder
import CheckedExpr.Proofs.RelationalOrder
import CheckedExpr.Proofs.EscapeSequences
import CheckedExpr.Proofs.TextPlaces
import CheckedExpr.Proofs.LineColumns
import CheckedExpr.Proofs.ScanPlaces
import CheckedExpr.Proofs.ErrorSpans
import CheckedExpr.Proofs.ExactArithmetic
import CheckedExpr.Proofs.BitwiseOperators
import CheckedExpr.Proofs.StructuralEquality
