/-
**Lowering convolutions to fixed point.** A floating-point convolution whose
operand and result are flagged is replaced by three nodes: one that quantises the
operand, the convolution on codes, and one that turns its codes back into
numbers. The consumers of the convolution move to the last of them, and the
convolution itself is left without consumers for a later pass to remove.

Deriving the parameters comes first and only reads; `splice` then changes the
graph.
-/
import FixedNet.Transform.Engine
import FixedNet.Pass.DeadNodes

set_option autoImplicit false

namespace FixedNet

/-! ## Carrying properties over -/

/-- Gives `new` the attributes of `old` and, if asked to, its calibration. -/
def carryOver (old new : OutputId) (calibrated : Bool) : TransformM Calibration Unit := do
  let source ← TransformM.query (·.output old)
  let target ← TransformM.query (·.output new)
  TransformM.edit (Graph.setOutputAttributes new (target.attributes.union source.attributes))
  if calibrated then
    let w ← get
    match w.state.copy old new with
    | .ok c => set { w with state := c }
    | .error e => throw (.quantize (← TransformM.query (·.nodeAt old.node)).name e)

namespace FixedPoint

/-! ## Parameters -/

/-- The name of the transform. -/
def name : String := "quantized-conv2d"

/-- The parameters of a convolution on codes: the codes of operand, weights and
result with the ranges they were derived from, and the bias in accumulator
steps. -/
structure Parameters where
  inputBounds : Bounds
  inputCode : AffineCode
  weights : WeightCodes
  outputBounds : Bounds
  outputCode : AffineCode
  bias : BiasCodes

namespace Parameters

/-- Derives the parameters of a convolution from the ranges recorded for its
operand and its result. -/
def derive (config : CodeLimits) (conv : FloatConv) (c : Calibration) (source output : OutputId) :
    Except DerivationError Parameters := do
  let inputBounds ← c.get source
  let inputCode ← AffineCode.ofBounds inputBounds config.bits
  let weights ← WeightCodes.ofWeights conv.weights config.bits
  let outputBounds ← c.get output
  let outputCode ← AffineCode.ofBounds outputBounds config.bits
  let bias ← BiasCodes.ofBias conv.bias inputCode weights.code outputCode config
  return { inputBounds, inputCode, weights, outputBounds, outputCode, bias }

variable (p : Parameters)

/-- The convolution on codes. Adding an offset to a code takes its zero point
away. -/
def fixedConv (conv : FloatConv) : FixedConv where
  weights := p.weights.weights
  bias := p.bias.bias
  groups := conv.groups
  vertical := conv.vertical
  horizontal := conv.horizontal
  rescale :=
    { inputOffset := -p.inputCode.zeroPoint
      weightOffset := -p.weights.code.zeroPoint
      multiplier := p.bias.multiplier
      outputOffset := p.outputCode.zeroPoint }

/-- The parameters as they are logged. -/
def text : String :=
  s!"input {p.inputBounds} ({p.inputCode}), weights ({p.weights.code}), " ++
    s!"output {p.outputBounds} ({p.outputCode}), rescale {p.bias.multiplier}"

end Parameters

/-! ## Plans -/

/-- A convolution to be replaced, with everything its replacement needs. -/
structure Plan where
  name : String
  sourceName : String
  source : OutputId
  output : OutputId
  conv : FloatConv
  parameters : Parameters

/-- Refuses a match that `recognize` would not produce. -/
def mismatch (reason : String) : EngineError := .patternMismatch name reason

/-- Plans the replacement for a match, or says what is missing. -/
def plan (config : CodeLimits) (m : Match) (g : Graph) (c : Calibration) :
    Except EngineError Plan := do
  let (some node, some input, some output) := (m.nodes.head?, m.inputs.head?, m.outputs.head?)
    | throw (mismatch "context is missing the conv2d node or its connectors")
  let n ← (g.node node).mapError .graph
  let .conv2d conv := n.op | throw (mismatch "matched node is not a conv2d")
  let some source ← (g.producer input).mapError .graph
    | throw (mismatch "conv2d input is unconnected")
  let feeder ← (g.nodeAt source.node).mapError .graph
  let parameters ←
    (Parameters.derive config conv c source output).mapError (.quantize n.name)
  return { name := n.name, sourceName := feeder.name, source, output, conv, parameters }

/-! ## The change -/

/-- The first output type of a node that the graph has. -/
def resultType (g : Graph) (id : NodeId) : Except GraphError TensorType := do
  match (← g.nodeAt id).outputs[0]? with
  | some p => return p.type
  | none => throw (.badConnector id .output 0)

/-- Puts the three nodes of a plan in place of the convolution. -/
def splice (p : Plan) : TransformM Calibration Unit := do
  let t := (← TransformM.query (·.output p.source)).type
  let toCodes := Op.quantize p.parameters.inputCode
  let quantize ← TransformM.edit (Graph.addNode (p.sourceName ++ "/quantize") toCodes t)
  let onCodes := Op.quantizedConv2d (p.parameters.fixedConv p.conv)
  let conv ← TransformM.edit (Graph.addNode p.name onCodes (t.withScalar .u8))
  let convType ← TransformM.query (resultType · conv)
  let toNumbers := Op.dequantize p.parameters.outputCode
  let dequantize ← TransformM.edit (Graph.addNode (p.name ++ "/dequantize") toNumbers convType)
  carryOver p.output ⟨dequantize, 0⟩ true
  -- The consumers as they are now: connecting them changes the list.
  let consumers ← TransformM.query (·.consumers p.output)
  let edges : List (InputId × OutputId) :=
    [(⟨conv, 0⟩, ⟨quantize, 0⟩), (⟨dequantize, 0⟩, ⟨conv, 0⟩), (⟨quantize, 0⟩, p.source)] ++
      consumers.map (·, ⟨dequantize, 0⟩)
  edges.forM fun e => TransformM.edit (Graph.connect e.1 e.2)
  TransformM.report .debug
    (p.name ++ ": replaced by " ++ Handle.text quantize ++ " -> " ++ Handle.text conv ++ " -> " ++
      Handle.text dequantize ++ s!", {consumers.length} consumers moved")

/-! ## The transform -/

/-- Whether an output is flagged for quantisation. -/
def isFlagged (g : Graph) (o : OutputId) : Bool :=
  match g.output o with
  | .ok p => p.attributes.contains .quantize
  | .error _ => false

/-- A node matches if it is a convolution that something feeds, and both that
and its own result are flagged. -/
def recognize (g : Graph) (id : NodeId) : Option Match :=
  match g.nodes.get? id with
  | none => none
  | some n =>
    if n.kind = .conv2d then
      match g.producer ⟨id, 0⟩ with
      | .ok (some source) =>
        if isFlagged g source && isFlagged g ⟨id, 0⟩ then
          some { nodes := [id], inputs := [⟨id, 0⟩], outputs := [⟨id, 0⟩] }
        else none
      | _ => none
    else none

/-- Replaces a matched convolution. -/
def apply (config : CodeLimits) (m : Match) : TransformM Calibration Unit := do
  let w ← get
  match plan config m w.graph w.state with
  | .error e => throw e
  | .ok p =>
    TransformM.report .debug (p.name ++ ": " ++ p.parameters.text)
    splice p

/-- The transform that lowers convolutions. -/
def transform (config : CodeLimits) : Transform Calibration where
  name := name
  kinds := [.conv2d]
  recognize g id captured := return match recognize g id with
    | some m => (true, captured.append m)
    | none => (false, captured)
  apply := apply config

/-- Lowers every flagged convolution and removes what this left dead. -/
def lower (config : CodeLimits) : TransformM Calibration Engine.Report := do
  let report ← Engine.run [transform config]
  let w ← get
  match DeadNodes.sweep w.graph with
  | .ok s => set { w with graph := s.graph, log := w.log ++ s.log }
  | .error e => throw (.graph e)
  return report

end FixedPoint

end FixedNet
