/-
**Convolution kernels.** The floating-point convolution and its fixed-point
counterpart on 8-bit codes. Both refuse parameters that do not fit together and
otherwise are `Convolution.result` with their own accumulation step.
-/
import FixedNet.Convolution.Basic
import FixedNet.Quantize.Basic

set_option autoImplicit false

namespace FixedNet

/-! ## Parameters that fit -/

/-- Why a convolution cannot be applied to an operand. -/
inductive ConvolutionError where
  | channelMismatch (expected found : Nat)
  | badGroups (channels groups : Nat)
  | biasLength (expected found : Nat)
  | zeroStep
  | badShift (shift : Int)
deriving DecidableEq

/-- The text of the error. -/
def ConvolutionError.message : ConvolutionError → String
  | .channelMismatch expected found => s!"input has {found} channels, weights expect {expected}"
  | .badGroups channels groups => s!"{channels} channels cannot be split into {groups} groups"
  | .biasLength expected found => s!"bias has {found} entries, expected {expected}"
  | .zeroStep => "stride and dilation must be positive"
  | .badShift shift => s!"output shift {shift} is outside 1..=62"

/-- Checks a convolution against the extents of its operand: positive steps,
groups that divide the channels and the filters, as many channels as the weights
cover, and one bias for each filter, in this order. -/
def Convolution.check {ω β : Type} (c : Convolution ω β) (e : Extents) :
    Except ConvolutionError Unit := do
  let filters := c.weights.extents.outer
  if c.vertical.stride = 0 ∨ c.horizontal.stride = 0 ∨
      c.vertical.dilation = 0 ∨ c.horizontal.dilation = 0 then
    throw .zeroStep
  if c.groups = 0 ∨ e.inner % c.groups ≠ 0 ∨ filters % c.groups ≠ 0 then
    throw (.badGroups e.inner c.groups)
  if e.inner / c.groups ≠ c.weights.extents.inner then
    throw (.channelMismatch (c.weights.extents.inner * c.groups) e.inner)
  if c.bias.size ≠ filters then
    throw (.biasLength filters c.bias.size)

/-! ## Floating point -/

/-- A convolution of floating-point numbers. -/
abbrev FloatConv := Convolution Single Single

/-- The floating-point convolution. Each product and each sum is rounded. -/
def FloatConv.apply (c : FloatConv) (x : Tensor4 Single) :
    Except ConvolutionError (Tensor4 Single) := do
  c.check x.extents
  return c.result x id (.zero false) (fun acc a w => acc + a * w) id

/-! ## Fixed point -/

/-- How a fixed-point convolution reads codes and writes its accumulator: the
offsets added to codes of operand and weights, and the multiplier and the offset
that take the accumulator to codes of the result. -/
structure Rescale where
  inputOffset : Int
  weightOffset : Int
  multiplier : Multiplier
  outputOffset : Int
deriving DecidableEq

/-- Requantises an accumulator: scales it by `mantissa / 2 ^ shift`, rounding half up,
adds an offset and holds the result within a byte. Product and rounding term saturate at
the ends of the signed 64-bit range. -/
def Multiplier.toCode (m : Multiplier) (offset acc : Int) : UInt8 :=
  -- Half of the last place that survives the shift, so that the floor rounds.
  let half : Int := 2 ^ (m.shift - 1).toNat
  let scaled := saturate (saturate (acc * m.mantissa) + half) / 2 ^ m.shift.toNat
  .ofNat (max 0 (min (scaled + offset) 255)).toNat

/-- The accumulator, a signed 64-bit word, after one product of offset codes more. -/
def Rescale.step (r : Rescale) (acc : Int) (a w : UInt8) : Int :=
  wrap 64 (acc + ((a.toNat : Int) + r.inputOffset) * ((w.toNat : Int) + r.weightOffset))

/-- A convolution of 8-bit codes with integer biases. -/
structure FixedConv extends Convolution UInt8 Int where
  rescale : Rescale
deriving DecidableEq

/-- The fixed-point convolution: the accumulator starts with the bias, takes up the
products of offset codes in signed 64-bit words, and is requantised once. -/
def FixedConv.apply (c : FixedConv) (x : Tensor4 UInt8) :
    Except ConvolutionError (Tensor4 UInt8) := do
  let r := c.rescale
  if ¬(1 ≤ r.multiplier.shift ∧ r.multiplier.shift ≤ 62) then
    throw (.badShift r.multiplier.shift)
  c.check x.extents
  return c.result x (wrap 64) 0 r.step (r.multiplier.toCode r.outputOffset)

end FixedNet
