import TwistedEdwards.Program.Field
import TwistedEdwards.Program.Scalar
import TwistedEdwards.Program.Point
import TwistedEdwards.Main
import TwistedEdwards.Proofs.Field.Product
import TwistedEdwards.Proofs.Prime
import TwistedEdwards.Proofs.Field.Canonical
import TwistedEdwards.Proofs.Field.Octets
import TwistedEdwards.Proofs.Field.Power
import TwistedEdwards.Proofs.Field.SquareRoot
import TwistedEdwards.Proofs.Field.Sums
import TwistedEdwards.Proofs.Exact.Product
import TwistedEdwards.Proofs.Exact.Montgomery
import TwistedEdwards.Proofs.Curve.Completeness
import TwistedEdwards.Proofs.Curve.Group
import TwistedEdwards.Proofs.Point.Addition
import TwistedEdwards.Proofs.Point.Validity
import TwistedEdwards.Proofs.Point.Equality
import TwistedEdwards.Proofs.Point.Decoding
import TwistedEdwards.Proofs.Point.Codec
import TwistedEdwards.Proofs.Point.Predicate
import TwistedEdwards.Proofs.Digits.Radix16
import TwistedEdwards.Proofs.Word.Window
import TwistedEdwards.Proofs.Digits.NonAdjacent
import TwistedEdwards.Proofs.Digits.Window
import TwistedEdwards.Proofs.Multiscalar.Combination
import TwistedEdwards.Proofs.Point.Encoding
import TwistedEdwards.Proofs.Point.Table
import TwistedEdwards.Proofs.Scalar.Octets
import TwistedEdwards.Proofs.Digits.Expansion
import TwistedEdwards.Proofs.Multiscalar.Buckets
import TwistedEdwards.Proofs.Multiscalar.Interleaved
import TwistedEdwards.Proofs.Multiscalar.Single
import TwistedEdwards.Proofs.Multiscalar.Uniform
import TwistedEdwards.Proofs.Multiscalar.Unreduced
import TwistedEdwards.Proofs.Multiscalar.Batch
import TwistedEdwards.Proofs.Program.Field
import TwistedEdwards.Proofs.Program.Point
import TwistedEdwards.Proofs.Program.Scalar
import TwistedEdwards.Proofs.Curve.Order
import TwistedEdwards.Proofs.Point.Multiple
import TwistedEdwards.Proofs.Multiscalar.Contract
import TwistedEdwards.Proofs.Random.Sample
import TwistedEdwards.Proofs.Check.Trials
import TwistedEdwards.Proofs.Check.Arithmetic
import TwistedEdwards.Proofs.Check.Points
import TwistedEdwards.Proofs.Check.Batches
import TwistedEdwards.Proofs.Check.Topic
import TwistedEdwards.Proofs.Random.Generator
import TwistedEdwards.Proofs.Range.Digits
import TwistedEdwards.Proofs.Range.Multiscalar
import TwistedEdwards.Proofs.Multiscalar.BucketWindow
import TwistedEdwards.Proofs.Point.Selection
