import DecimalPattern.Formatter
import DecimalPattern.Locale.Document
import DecimalPattern.Proofs.Binary64.Arithmetic
import DecimalPattern.Proofs.Binary64.Calls
import DecimalPattern.Proofs.Binary64.DecimalPlace
import DecimalPattern.Proofs.Binary64.DigitCount
import DecimalPattern.Proofs.Binary64.Floor
import DecimalPattern.Proofs.Binary64.HalfEven
import DecimalPattern.Proofs.Binary64.Logarithm
import DecimalPattern.Proofs.Binary64.NaturalLog
import DecimalPattern.Proofs.Binary64.NearestInteger
import DecimalPattern.Proofs.Binary64.Order
import DecimalPattern.Proofs.Binary64.Overflow
import DecimalPattern.Proofs.Binary64.RelativeError
import DecimalPattern.Proofs.Binary64.RoundAgain
import DecimalPattern.Proofs.Binary64.Rounding
import DecimalPattern.Proofs.Binary64.Shortest
import DecimalPattern.Proofs.Binary64.TieTest
import DecimalPattern.Proofs.Binary64.WholeNumbers
import DecimalPattern.Proofs.Format.Digits
import DecimalPattern.Proofs.Format.Exponent
import DecimalPattern.Proofs.Format.Exponential
import DecimalPattern.Proofs.Format.Finite
import DecimalPattern.Proofs.Format.Fixed
import DecimalPattern.Proofs.Format.FixedDigits
import DecimalPattern.Proofs.Format.Grouping
import DecimalPattern.Proofs.Format.Groups
import DecimalPattern.Proofs.Format.Instantiation
import DecimalPattern.Proofs.Format.Mantissa
import DecimalPattern.Proofs.Format.MantissaDigits
import DecimalPattern.Proofs.Format.Piece
import DecimalPattern.Proofs.Format.Pieces
import DecimalPattern.Proofs.Format.Range
import DecimalPattern.Proofs.Format.ShownDigits
import DecimalPattern.Proofs.Format.Sign
import DecimalPattern.Proofs.Format.Significant
import DecimalPattern.Proofs.Format.SignificantCount
import DecimalPattern.Proofs.Format.Template
import DecimalPattern.Proofs.Format.Unbounded
import DecimalPattern.Proofs.Format.WidePads
import DecimalPattern.Proofs.Format.Zero
import DecimalPattern.Proofs.Layout.Check
import DecimalPattern.Proofs.Layout.DigitBounds
import DecimalPattern.Proofs.Layout.Fragment
import DecimalPattern.Proofs.Layout.LongPatterns
import DecimalPattern.Proofs.Layout.Negative
import DecimalPattern.Proofs.Layout.Scale
import DecimalPattern.Proofs.Layout.Separators
import DecimalPattern.Proofs.Layout.WellFormed
import DecimalPattern.Proofs.Locale.Copying
import DecimalPattern.Proofs.Locale.History
import DecimalPattern.Proofs.Locale.LoadOrder
import DecimalPattern.Proofs.Locale.Merge
import DecimalPattern.Proofs.Locale.Registration
import DecimalPattern.Proofs.Locale.Table
import DecimalPattern.Proofs.Locale.Tag
import DecimalPattern.Proofs.Pattern.Alternatives
import DecimalPattern.Proofs.Pattern.CoreRule
import DecimalPattern.Proofs.Pattern.CoreText
import DecimalPattern.Proofs.Pattern.Decomposition
import DecimalPattern.Proofs.Pattern.Quoting
import DecimalPattern.Proofs.Pattern.RoundTrip
import DecimalPattern.Proofs.Pattern.Section
import DecimalPattern.Proofs.Pattern.Separators
import DecimalPattern.Proofs.Pattern.Spelling
import DecimalPattern.Proofs.Pattern.Splitting
import DecimalPattern.Proofs.Toml.Keys
