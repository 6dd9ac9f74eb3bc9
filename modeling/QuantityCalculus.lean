import QuantityCalculus.Binary64.Basic
import QuantityCalculus.CompoundUnit.Basic
import QuantityCalculus.CompoundUnit.Conversion
import QuantityCalculus.CompoundUnit.Parse
import QuantityCalculus.CompoundUnit.Powers
import QuantityCalculus.CompoundUnit.Render
import QuantityCalculus.CompoundUnit.Token
import QuantityCalculus.Decimal.Numeral
import QuantityCalculus.Decimal.Positional
import QuantityCalculus.Decimal.Shortest
import QuantityCalculus.Dimension.Asserted
import QuantityCalculus.Dimension.Basic
import QuantityCalculus.Error
import QuantityCalculus.Exponent.Approximation
import QuantityCalculus.Exponent.Basic
import QuantityCalculus.Exponent.Notation
import QuantityCalculus.Exponent.Text
import QuantityCalculus.Exponent.Wide
import QuantityCalculus.Exponent.WideText
import QuantityCalculus.Magnitude.Basic
import QuantityCalculus.Magnitude.Numeric
import QuantityCalculus.Measurement.Arithmetic
import QuantityCalculus.Measurement.Basic
import QuantityCalculus.Memo
import QuantityCalculus.Memo.History
import QuantityCalculus.Memo.Session
import QuantityCalculus.Proofs.Binary64.Accuracy
import QuantityCalculus.Proofs.Binary64.Floor
import QuantityCalculus.Proofs.Binary64.Integers
import QuantityCalculus.Proofs.Binary64.One
import QuantityCalculus.Proofs.Binary64.Operations
import QuantityCalculus.Proofs.Binary64.Packed
import QuantityCalculus.Proofs.Binary64.Parts
import QuantityCalculus.Proofs.Binary64.Root
import QuantityCalculus.Proofs.Binary64.Rounded
import QuantityCalculus.Proofs.Binary64.Rounding
import QuantityCalculus.Proofs.Binary64.Special
import QuantityCalculus.Proofs.Binary64.Unpacked
import QuantityCalculus.Proofs.Binary64.Value
import QuantityCalculus.Proofs.Binary64.Within
import QuantityCalculus.Proofs.CompoundUnit.Algebra
import QuantityCalculus.Proofs.CompoundUnit.BaseUnits
import QuantityCalculus.Proofs.CompoundUnit.CanonicalText
import QuantityCalculus.Proofs.CompoundUnit.Construction
import QuantityCalculus.Proofs.CompoundUnit.Conversion
import QuantityCalculus.Proofs.CompoundUnit.DecimalPower
import QuantityCalculus.Proofs.CompoundUnit.Equality
import QuantityCalculus.Proofs.CompoundUnit.FactorText
import QuantityCalculus.Proofs.CompoundUnit.Grammar
import QuantityCalculus.Proofs.CompoundUnit.Merge
import QuantityCalculus.Proofs.CompoundUnit.MergeAll
import QuantityCalculus.Proofs.CompoundUnit.Moderate
import QuantityCalculus.Proofs.CompoundUnit.OperandText
import QuantityCalculus.Proofs.CompoundUnit.Outcome
import QuantityCalculus.Proofs.CompoundUnit.Overflow
import QuantityCalculus.Proofs.CompoundUnit.PowerText
import QuantityCalculus.Proofs.CompoundUnit.ProductText
import QuantityCalculus.Proofs.CompoundUnit.QuotientText
import QuantityCalculus.Proofs.CompoundUnit.Reachable
import QuantityCalculus.Proofs.CompoundUnit.Reading
import QuantityCalculus.Proofs.CompoundUnit.RoundTrip
import QuantityCalculus.Proofs.CompoundUnit.Scale
import QuantityCalculus.Proofs.CompoundUnit.Signs
import QuantityCalculus.Proofs.CompoundUnit.Token
import QuantityCalculus.Proofs.CompoundUnit.TokenContent
import QuantityCalculus.Proofs.CompoundUnit.TokenKinds
import QuantityCalculus.Proofs.CompoundUnit.WellFormed
import QuantityCalculus.Proofs.Decimal.Digits
import QuantityCalculus.Proofs.Decimal.FloatText
import QuantityCalculus.Proofs.Decimal.Grid
import QuantityCalculus.Proofs.Decimal.Interval
import QuantityCalculus.Proofs.Decimal.Positional
import QuantityCalculus.Proofs.Decimal.Shortest
import QuantityCalculus.Proofs.Dimension.Arithmetic
import QuantityCalculus.Proofs.Exponent.Arithmetic
import QuantityCalculus.Proofs.Exponent.Convergents
import QuantityCalculus.Proofs.Exponent.DecimalText
import QuantityCalculus.Proofs.Exponent.Exact
import QuantityCalculus.Proofs.Exponent.Notation
import QuantityCalculus.Proofs.Exponent.ReadBack
import QuantityCalculus.Proofs.Exponent.Text
import QuantityCalculus.Proofs.Exponent.Wide
import QuantityCalculus.Proofs.Exponent.WideText
import QuantityCalculus.Proofs.Magnitude.Close
import QuantityCalculus.Proofs.Magnitude.Repeated
import QuantityCalculus.Proofs.Magnitude.Shape
import QuantityCalculus.Proofs.Measurement.ExactOperand
import QuantityCalculus.Proofs.Measurement.Propagated
import QuantityCalculus.Proofs.Measurement.Refinement
import QuantityCalculus.Proofs.Measurement.Shape
import QuantityCalculus.Proofs.Measurement.Uncertainty
import QuantityCalculus.Proofs.Memo.History
import QuantityCalculus.Proofs.Memo.Key
import QuantityCalculus.Proofs.Memo.Session
import QuantityCalculus.Proofs.Memo.Store
import QuantityCalculus.Proofs.Quantity.Assignment
import QuantityCalculus.Proofs.Quantity.Combination
import QuantityCalculus.Proofs.Quantity.Converted
import QuantityCalculus.Proofs.Quantity.Outcome
import QuantityCalculus.Proofs.Quantity.PlainNumber
import QuantityCalculus.Proofs.Quantity.Route
import QuantityCalculus.Proofs.Quantity.SelfEquality
import QuantityCalculus.Proofs.Suggestion.Corrections
import QuantityCalculus.Proofs.Suggestion.EditDistance
import QuantityCalculus.Proofs.Suggestion.EditScript
import QuantityCalculus.Proofs.Suggestion.LowerForm
import QuantityCalculus.Proofs.Table.Distinct
import QuantityCalculus.Proofs.Table.Names
import QuantityCalculus.Proofs.Table.Readings
import QuantityCalculus.Proofs.Table.Splits
import QuantityCalculus.Proofs.Table.Temperature
import QuantityCalculus.Proofs.Text.Blank
import QuantityCalculus.Proofs.Text.ByteOffset
import QuantityCalculus.Proofs.Text.Closed
import QuantityCalculus.Proofs.Text.Nesting
import QuantityCalculus.Proofs.Text.Separators
import QuantityCalculus.Proofs.Text.TopLevel
import QuantityCalculus.Quantity.Arithmetic
import QuantityCalculus.Quantity.Basic
import QuantityCalculus.Quantity.Comparison
import QuantityCalculus.Quantity.Element
import QuantityCalculus.Suggestion.Basic
import QuantityCalculus.Suggestion.EditDistance
import QuantityCalculus.Table.Entries
import QuantityCalculus.Table.Family
import QuantityCalculus.Table.Lookup
import QuantityCalculus.Text.Blank
import QuantityCalculus.Text.ByteOffset
import QuantityCalculus.Text.Lowercase
import QuantityCalculus.Text.TopLevel
import QuantityCalculus.Validation
