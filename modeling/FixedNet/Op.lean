/-
**Operators.** What a node computes, with the types of its connectors.
-/
import FixedNet.Convolution.Kernel
import FixedNet.Graph.Error

set_option autoImplicit false

namespace FixedNet

/-! ## Kinds -/

/-- The kinds of operators. -/
inductive OpKind where
  | input
  | output
  | conv2d
  | quantize
  | dequantize
  | quantizedConv2d
deriving DecidableEq

namespace OpKind

/-- All kinds. -/
def all : List OpKind := [.input, .output, .conv2d, .quantize, .dequantize, .quantizedConv2d]

/-- The kind as a word, as graphs are printed. -/
instance : ToString OpKind where
  toString
    | .input => "input"
    | .output => "output"
    | .conv2d => "conv2d"
    | .quantize => "quantize"
    | .dequantize => "dequantize"
    | .quantizedConv2d => "quantized_conv2d"

/-- The kind as a capitalised name, as lists of kinds are logged. -/
def label : OpKind → String
  | .input => "Input"
  | .output => "Output"
  | .conv2d => "Conv2d"
  | .quantize => "Quantize"
  | .dequantize => "Dequantize"
  | .quantizedConv2d => "QuantizedConv2d"

end OpKind

/-! ## Operators -/

/-- An operator with its parameters. -/
inductive Op where
  /-- Brings a tensor into the graph. -/
  | input
  /-- Takes a tensor out of the graph. -/
  | output
  | conv2d (conv : FloatConv)
  /-- Turns numbers into codes. -/
  | quantize (code : AffineCode)
  /-- Turns codes into numbers. -/
  | dequantize (code : AffineCode)
  | quantizedConv2d (conv : FixedConv)
deriving DecidableEq

/-- The types of a node's connectors. -/
structure Signature where
  inputs : List TensorType
  outputs : List TensorType
deriving DecidableEq

/-- The type of a convolution's result for an operand of type `t`. -/
def Convolution.resultType {ω β : Type} (c : Convolution ω β) (t : TensorType) :
    Except GraphError TensorType :=
  match Extents.ofShape? t.shape with
  | some e => .ok ⟨t.scalar, (c.resultExtents e).shape⟩
  | none => .error (.notRankFour t.shape)

namespace Op

/-- The kind of an operator. -/
def kind : Op → OpKind
  | .input => .input
  | .output => .output
  | .conv2d _ => .conv2d
  | .quantize _ => .quantize
  | .dequantize _ => .dequantize
  | .quantizedConv2d _ => .quantizedConv2d

/-- The connectors of an operator on tensors of type `t`. -/
def signature (op : Op) (t : TensorType) : Except GraphError Signature :=
  match op with
  | .input => .ok ⟨[], [t]⟩
  | .output => .ok ⟨[t], []⟩
  | .conv2d c => do return ⟨[t], [← c.resultType t]⟩
  | .quantize _ => .ok ⟨[t], [t.withScalar .u8]⟩
  | .dequantize _ => .ok ⟨[t], [t.withScalar .f32]⟩
  | .quantizedConv2d c => do return ⟨[t], [← c.resultType t]⟩

end Op

/-! ## Text -/

/-- The extents in parentheses. -/
def Extents.text (e : Extents) : String := s!"({e.outer}, {e.inner}, {e.rows}, {e.cols})"

/-- The parameters of a convolution, weights by their extents only. -/
def Convolution.text {ω β : Type} (c : Convolution ω β) : String :=
  let v := c.vertical
  let h := c.horizontal
  "w=" ++ c.weights.extents.text ++
    s!", groups={c.groups}, pad={v.padding}/{h.padding}, stride={v.stride}x{h.stride}" ++
    s!", dilation={v.dilation}x{h.dilation}"

/-- The offsets and the multiplier of a fixed-point convolution. -/
def Rescale.text (r : Rescale) : String :=
  s!"in_off={r.inputOffset}, w_off={r.weightOffset}, mul={r.multiplier}, out_off={r.outputOffset}"

instance : ToString Op where
  toString op := match op with
    | .input | .output => toString op.kind
    | .conv2d c => "conv2d(" ++ c.text ++ ")"
    | .quantizedConv2d c => "quantized_conv2d(" ++ c.text ++ ", " ++ c.rescale.text ++ ")"
    | .quantize code => s!"quantize({code})"
    | .dequantize code => s!"dequantize({code})"

end FixedNet
