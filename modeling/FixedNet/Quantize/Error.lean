/-
**Why quantisation fails.** Every cause with what the message needs to name it.
-/
import FixedNet.Connector
import FixedNet.Quantize.Basic

set_option autoImplicit false

namespace FixedNet

/-- A reason why no quantisation parameters can be derived. -/
inductive DerivationError where
  /-- A tensor without elements has no range. -/
  | emptyRange
  /-- The ends are not finite, or the low end is above the high end. -/
  | invalidRange (bounds : Bounds)
  /-- Codes have one to sixteen bits, those of weights at most eight. -/
  | unsupportedBits (bits : Nat)
  /-- No range was recorded for the connector. -/
  | missingCalibration (connector : OutputId)
  /-- No multiplier within the limits approximates the ratio. -/
  | unrepresentableRatio (ratio : Single) (maxBits maxValue : Int)
  /-- The ratio is so large that the product would have to shift left. -/
  | nonPositiveShift (ratio : Single) (multiplier : Multiplier)
  /-- A bias does not fit the accumulator. -/
  | biasOverflow (value scale : Single)
deriving DecidableEq

namespace DerivationError

/-- The text of the error. -/
def message : DerivationError → String
  | .emptyRange => "cannot compute the range of an empty tensor"
  | .invalidRange b => s!"range {b} cannot be normalized: bounds must be finite"
  | .unsupportedBits n => s!"unsupported quantization bit width {n} (expected 1..=16)"
  | .missingCalibration c => s!"missing calibration data for connector {c}"
  | .unrepresentableRatio r bits top =>
    s!"ratio {r} is not representable with {bits} bits and mantissa <= {top}"
  | .nonPositiveShift r m =>
    s!"rescale ratio {r} needs shift {m.shift} (mantissa {m.mantissa}); " ++
      "a positive shift is required"
  | .biasOverflow v s => s!"bias {v} overflows i32 at accumulator scale {s}"

end DerivationError

end FixedNet
