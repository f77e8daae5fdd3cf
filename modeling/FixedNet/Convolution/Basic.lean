/-
**Convolutions.** A convolution of rank-four tensors with weights of extents
`[filters, channels per group, rows, cols]`. The channels are split into groups,
and each filter reads the channels of its own group.

An element of the result depends on the operand only through its *taps*, the
pairs of a place in the operand and a place in the weights; `taps` lists them in
the order in which they are accumulated. Taps that fall into the padding are left
out, so what a padded place is worth never has to be said.
-/
import FixedNet.Tensor.Basic
import FixedNet.Window

set_option autoImplicit false

namespace FixedNet

/-- A convolution with weights in `ω` and biases in `β`. -/
structure Convolution (ω β : Type) where
  weights : Tensor4 ω
  bias : Array β
  groups : Nat
  vertical : Walk
  horizontal : Walk
deriving DecidableEq

/-- A place in the operand and the place in the weights that it is multiplied
with, for a fixed item of the batch and a fixed filter. -/
structure Tap where
  channel : Nat
  row : Nat
  col : Nat
  weightChannel : Nat
  weightRow : Nat
  weightCol : Nat
deriving DecidableEq

namespace Convolution

variable {ω β : Type} (c : Convolution ω β)

/-- The extents of the result for an operand of extents `e`. -/
def resultExtents (e : Extents) : Extents where
  outer := e.outer
  inner := c.weights.extents.outer
  rows := c.vertical.places e.rows c.weights.extents.rows
  cols := c.horizontal.places e.cols c.weights.extents.cols

/-- The first channel of the group that a filter belongs to. -/
def firstChannel (filter : Nat) : Nat :=
  filter / (c.weights.extents.outer / c.groups) * c.weights.extents.inner

/-- The taps of one element of the result, by weight channel, row and column. -/
def taps (e : Extents) (filter row col : Nat) : List Tap :=
  (List.range c.weights.extents.inner).flatMap fun k =>
    (List.range c.weights.extents.rows).flatMap fun ky =>
      match c.vertical.source e.rows row ky with
      | none => []
      | some y =>
        (List.range c.weights.extents.cols).filterMap fun kx =>
          (c.horizontal.source e.cols col kx).map fun x =>
            { channel := c.firstChannel filter + k, row := y, col := x
              weightChannel := k, weightRow := ky, weightCol := kx }

variable {ξ α υ : Type}

/-- The accumulator of one element of the result after one more tap. -/
def absorb (x : Tensor4 ξ) (step : α → ξ → ω → α) (item filter : Nat) (acc : α) (t : Tap) : α :=
  match x.get? item t.channel t.row t.col,
    c.weights.get? filter t.weightChannel t.weightRow t.weightCol with
  | some a, some w => step acc a w
  | _, _ => acc

/-- The accumulator of one element of the result after all its taps, started
from the filter's bias. -/
def accumulate (x : Tensor4 ξ) (start : β → α) (zero : α) (step : α → ξ → ω → α)
    (item filter row col : Nat) : α :=
  (c.taps x.extents filter row col).foldl (c.absorb x step item filter)
    ((c.bias[filter]?).elim zero start)

/-- The whole result, each accumulator finished by `finish`. -/
def result (x : Tensor4 ξ) (start : β → α) (zero : α) (step : α → ξ → ω → α) (finish : α → υ) :
    Tensor4 υ :=
  .ofFn (c.resultExtents x.extents) fun item filter row col =>
    finish (c.accumulate x start zero step item filter row col)

end Convolution

end FixedNet
