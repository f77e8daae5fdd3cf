/-
**From observed values to quantisation parameters.**

* `Bounds.ofValues`: the range of a sequence of values.
* `Bounds.normalize`: the range widened so that it holds zero and is not too
  narrow to divide by.
* `AffineCode.ofBounds`: the code that spreads a range over `bits` bits.
* `Multiplier.ofRatio`: the finest multiplier that approximates a ratio within
  the limits on its mantissa.
* `WeightCodes.ofWeights`, `BiasCodes.ofBias`: the parameters of a convolution as
  integers.
-/
import FixedNet.Quantize.Error
import FixedNet.Tensor.Basic

set_option autoImplicit false

namespace FixedNet

/-! ## Ranges -/

namespace Bounds

/-- The least range that holds every value; a NaN counts only where there is
nothing else. -/
def ofValues : List Single → Except DerivationError Bounds
  | [] => .error .emptyRange
  | v :: vs => .ok (vs.foldl (fun b w => ⟨b.low.min w, b.high.max w⟩) ⟨v, v⟩)

/-- The width below which a range is widened. -/
def minWidth : Single := .ofFraction 1 100

/-- The width given to a range that is a single point. -/
def pointWidth : Single := .ofFraction 1 10

/-- Widens a range so that it holds zero and has a usable width. Only the high
end moves to gain width, so zero stays inside. -/
def normalize (b : Bounds) : Except DerivationError Bounds :=
  if !b.low.isFinite || !b.high.isFinite || decide (b.high < b.low) then .error (.invalidRange b)
  else
    let held : Bounds := ⟨b.low.min (.zero false), b.high.max (.zero false)⟩
    if held.width.position = some 0 then .ok { held with high := held.low + pointWidth }
    else if held.width < minWidth then .ok { held with high := held.low + minWidth }
    else .ok held

end Bounds

/-! ## Affine codes -/

/-- The largest code of `bits` bits. -/
def maxCode (bits : Nat) : Nat := 2 ^ bits - 1

/-- The affine code that maps a range onto all codes of `bits` bits. The zero
point is computed from the range itself, not from the rounded scale. -/
def AffineCode.ofBounds (b : Bounds) (bits : Nat) : Except DerivationError AffineCode :=
  if ¬(1 ≤ bits ∧ bits ≤ 16) then .error (.unsupportedBits bits)
  else do
    let b ← b.normalize
    let top : Single := .ofInt (maxCode bits)
    return { scale := b.width / top
             zeroPoint := (-b.low * top / b.width).clampTo (maxCode bits) }

/-! ## Multipliers -/

namespace Multiplier

/-- The ratio times `2 ^ shift` in double precision, rounded to an integer, a tie
going away from zero; none without a finite product. -/
def mantissaAt (ratio : Single) (shift : Int) : Option Int :=
  (ratio.convert .double * .twoPow shift).toInt?

/-- The largest mantissa allowed by a bound, by the width of the multiplier
register and by a 32-bit signed integer. -/
def mantissaLimit (maxBits : Nat) (maxValue : Int) (signed : Bool) : Int :=
  min (min maxValue (2 ^ (if signed then maxBits - 1 else maxBits) - 1)) (2 ^ 31 - 1)

/-- The shifts from `n` down to `-n`. -/
def shiftsDown (n : Nat) : List Int := (List.range (2 * n + 1)).map fun (i : Nat) => (n : Int) - i

/-- The multiplier with the first of the given shifts at which the mantissa keeps
to the limit; none if the mantissa vanishes there. -/
def firstWithin? (ratio : Single) (limit : Int) : List Int → Option Multiplier
  | [] => none
  | s :: rest =>
    match mantissaAt ratio s with
    | some m =>
      if limit < m then firstWithin? ratio limit rest
      else if m < 1 then none
      else some ⟨m, s⟩
    | none => firstWithin? ratio limit rest

/-- The multiplier for a positive finite ratio, with a register of one to
thirty-two bits. The finest shift comes first. -/
def ofRatio? (ratio : Single) (maxBits maxValue : Int) (signed : Bool) : Option Multiplier :=
  if !ratio.isFinite ∨ ratio ≤ .zero false ∨ ¬(1 ≤ maxBits ∧ maxBits ≤ 32) then none
  else
    let limit := mantissaLimit maxBits.toNat maxValue signed
    if limit < 1 then none else firstWithin? ratio limit (shiftsDown maxBits.toNat)

/-- The multiplier for a ratio, or the ratio and the limits it breaks. -/
def ofRatio (ratio : Single) (maxBits maxValue : Int) (signed : Bool) :
    Except DerivationError Multiplier :=
  match ofRatio? ratio maxBits maxValue signed with
  | some m => .ok m
  | none => .error (.unrepresentableRatio ratio maxBits maxValue)

end Multiplier

/-! ## Convolution parameters -/

/-- The limits of a quantisation: the width of codes, and the width and the
largest mantissa of multipliers. -/
structure CodeLimits where
  bits : Nat := 8
  multiplierBits : Int := 32
  multiplierMax : Int := 255
deriving DecidableEq

instance : ToString CodeLimits where
  toString c := "QuantConfig \x7b bits: " ++ toString c.bits ++ ", multiplier_bits: " ++
    toString c.multiplierBits ++ ", multiplier_max: " ++ toString c.multiplierMax ++ " \x7d"

/-- Weights as codes, with the map that gave the codes. -/
structure WeightCodes where
  code : AffineCode
  weights : Tensor4 UInt8

/-- The weights of a convolution as codes of at most eight bits. -/
def WeightCodes.ofWeights (weights : Tensor4 Single) (bits : Nat) :
    Except DerivationError WeightCodes := do
  if 8 < bits then throw (.unsupportedBits bits)
  let bounds ← (← Bounds.ofValues weights.data.toList).normalize
  let code ← AffineCode.ofBounds bounds bits
  return ⟨code, weights.map fun w => .ofNat (code.encodeTo (maxCode bits) w)⟩

/-- A bias in accumulator steps, with the multiplier from accumulator steps to
output steps. -/
structure BiasCodes where
  bias : Array Int
  multiplier : Multiplier

/-- One bias in steps of `scale`, if a 32-bit signed integer holds it. -/
def biasStep (scale b : Single) : Except DerivationError Int :=
  match (b / scale).toInt? with
  | some n => if -2 ^ 31 ≤ n ∧ n < 2 ^ 31 then .ok n else .error (.biasOverflow b scale)
  | none => .error (.biasOverflow b scale)

/-- Moves a bias to the accumulator's scale, the product of the scales of input
and weights, and derives the multiplier to the scale of the output. -/
def BiasCodes.ofBias (bias : Array Single) (input weights output : AffineCode)
    (config : CodeLimits) : Except DerivationError BiasCodes := do
  let scale := input.scale * weights.scale
  let steps ← bias.mapM (biasStep scale)
  let ratio := scale / output.scale
  let multiplier ← Multiplier.ofRatio ratio config.multiplierBits config.multiplierMax true
  if multiplier.shift ≤ 0 then throw (.nonPositiveShift ratio multiplier)
  return ⟨steps, multiplier⟩

end FixedNet
