import MapStyle.Property.Expression
import MapStyle.Proofs.Evaluation.Folding
import MapStyle.Proofs.Evaluation.Sequence
import MapStyle.Proofs.RoundTrip.Expression
import MapStyle.Proofs.Kinds.Soundness
import MapStyle.Proofs.Double.Order
import MapStyle.Proofs.Evaluation.Curve
import MapStyle.Proofs.Property.Constants
import MapStyle.Proofs.Property.Fallback
import MapStyle.Proofs.Property.Operands
import MapStyle.Proofs.Property.Categories
import MapStyle.Proofs.Property.Curves
import MapStyle.Proofs.Json.Equality
import MapStyle.Proofs.Property.Groups
import MapStyle.Proofs.Property.Levels
import MapStyle.Proofs.Property.Enumerations
import MapStyle.Proofs.Property.Written
import MapStyle.Proofs.Reading.Turns
import MapStyle.Proofs.Evaluation.Dependence
import MapStyle.Proofs.Reading.Formed
import MapStyle.Proofs.Reading.Places
import MapStyle.Proofs.Reading.Batches
import MapStyle.Proofs.Reading.Located
import MapStyle.Proofs.Bounds.Color
import MapStyle.Proofs.Bounds.Evaluation
import MapStyle.Proofs.Reading.Nesting
import MapStyle.Proofs.Types.Inference
import MapStyle.Proofs.Evaluation.Alternatives
import MapStyle.Proofs.Property.Zooms
import MapStyle.Proofs.Property.Booleans
import MapStyle.Proofs.Reading.Limited
import MapStyle.Proofs.Reading.Failing
import MapStyle.Proofs.Reading.Relocation
import MapStyle.Proofs.Reading.Recovery
import MapStyle.Proofs.Scope.Nested
import MapStyle.Proofs.Evaluation.Scan
import MapStyle.Proofs.Evaluation.Arms
import MapStyle.Proofs.Color.Hex
import MapStyle.Proofs.Color.Functional
import MapStyle.Proofs.Property.Asked
import MapStyle.Proofs.Property.Convertible
import MapStyle.Proofs.Evaluation.Blending
