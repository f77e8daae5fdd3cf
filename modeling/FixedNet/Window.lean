/-
**Windows on one axis.** A convolution slides a window along each spatial axis.
`places` is the number of places the window takes, its windowed output size;
extents are 64-bit counts and enter the formula as signed words, since padding
may be negative. All that is computed with them is held to 64 bits and wraps.
-/
import FixedNet.Word

set_option autoImplicit false

namespace FixedNet

/-- What is added before and after an axis. A negative amount crops. -/
structure Padding where
  before : Int32
  after : Int32
deriving DecidableEq

namespace Padding

/-- The same amount on both sides. -/
def same (amount : Int32) : Padding := ⟨amount, amount⟩

/-- What is added in all. -/
def sum (p : Padding) : Int := p.before.toInt + p.after.toInt

instance : ToString Padding :=
  ⟨fun p => toString p.before.toInt ++ ":" ++ toString p.after.toInt⟩

end Padding

/-- How a window moves along one axis. -/
structure Walk where
  padding : Padding
  stride : Nat
  dilation : Nat
deriving DecidableEq

/-- The axis positions that a window of `kernel` taps covers. Zero taps and a
zero dilation count as one. -/
def Walk.span (w : Walk) (kernel : Nat) : Int :=
  wrap 64 ((signedWord (max kernel 1) - 1) * signedWord (max w.dilation 1) + 1)

/-- The number of places that a window of `kernel` taps takes on an axis of the
given extent: none if the padded axis is shorter than the window, otherwise one
and one more for each further stride. A zero stride counts as one. -/
def Walk.places (w : Walk) (extent kernel : Nat) : Nat :=
  let padded := wrap 64 (signedWord extent + w.padding.sum)
  if padded < w.span kernel then 0
  else unsignedWord ((wrap 64 (padded - w.span kernel)).tdiv (signedWord (max w.stride 1)) + 1)

/-- The axis position that a tap of the window reads when the window is at place
`place`; none where the tap falls into the padding. -/
def Walk.source (w : Walk) (extent place tap : Nat) : Option Nat :=
  let index := signedWord (place * w.stride + tap * w.dilation)
  let position := wrap 64 (index - w.padding.before.toInt)
  if 0 ≤ position ∧ position < signedWord extent then some position.toNat else none

end FixedNet
