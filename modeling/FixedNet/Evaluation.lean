/-
**Evaluation.** A graph is evaluated node by node in topological order. Graph
inputs take the tensors they are fed by name; every other node applies its
operator to the tensor of its producer. Each tensor is checked against the type of
the connector it enters or leaves, so a graph that evaluates is a graph whose
types hold.
-/
import FixedNet.Calibration
import FixedNet.Graph.Order
import FixedNet.Log

set_option autoImplicit false

namespace FixedNet

/-! ## Values -/

/-- A tensor on an edge: numbers or 8-bit codes. -/
inductive Value where
  | numbers (t : Tensor Single)
  | codes (t : Tensor UInt8)
deriving DecidableEq

namespace Value

/-- The type of the tensor. -/
def type : Value → TensorType
  | .numbers t => ⟨.f32, t.shape⟩
  | .codes t => ⟨.u8, t.shape⟩

/-- The tensor as numbers. Codes are taken for what they are, not decoded. -/
def toNumbers : Value → Tensor Single
  | .numbers t => t
  | .codes t => t.map fun c => .ofInt c.toNat

end Value

/-! ## Errors -/

/-- Why an evaluation stops. -/
inductive EvalError where
  /-- Nothing was fed to the graph input. -/
  | missingInput (name : String)
  /-- A tensor does not have the type of a connector, or not one that the
  operator takes. -/
  | typeMismatch (node : String) (expected found : TensorType)
  /-- An input has no producer with a tensor. -/
  | unconnected (node : String) (index : Nat)
  /-- The parameters of a convolution do not fit its operand. -/
  | convolution (node : String) (cause : ConvolutionError)
  /-- The graph has no evaluation order. -/
  | graph (cause : GraphError)
deriving DecidableEq

/-- The text of the error. -/
def EvalError.message : EvalError → String
  | .missingInput name => s!"no value supplied for graph input '{name}'"
  | .typeMismatch node expected found => s!"node '{node}': expected {expected}, found {found}"
  | .unconnected node index => s!"node '{node}' input #{index} is unconnected"
  | .convolution node cause => s!"node '{node}': " ++ cause.message
  | .graph cause => cause.message

/-! ## Operators on values -/

/-- A tensor must have the given type. -/
def Value.check (v : Value) (node : String) (expected : TensorType) : Except EvalError Unit :=
  if v.type = expected then .ok () else .error (.typeMismatch node expected v.type)

/-- The operand as numbers. -/
def Value.asNumbers (v : Value) (node : String) : Except EvalError (Tensor Single) :=
  match v with
  | .numbers t => .ok t
  | .codes _ => .error (.typeMismatch node (v.type.withScalar .f32) v.type)

/-- The operand as codes. -/
def Value.asCodes (v : Value) (node : String) : Except EvalError (Tensor UInt8) :=
  match v with
  | .codes t => .ok t
  | .numbers _ => .error (.typeMismatch node (v.type.withScalar .u8) v.type)

/-- The operand of a convolution by its four extents. -/
def Tensor.asRankFour {α : Type} (t : Tensor α) (node : String) (scalar : Scalar) :
    Except EvalError (Tensor4 α) :=
  match Tensor4.ofTensor? t with
  | some x => .ok x
  | none => .error (.typeMismatch node ⟨scalar, [0, 0, 0, 0]⟩ ⟨scalar, t.shape⟩)

/-- What an operator makes of its operand. Graph inputs and outputs pass it on. -/
def Op.evaluate (op : Op) (node : String) (v : Value) : Except EvalError Value :=
  match op with
  | .input => .ok v
  | .output => .ok v
  | .conv2d c => do
    let x ← (← v.asNumbers node).asRankFour node .f32
    return .numbers (← (FloatConv.apply c x).mapError (.convolution node)).toTensor
  | .quantizedConv2d c => do
    let x ← (← v.asCodes node).asRankFour node .u8
    return .codes (← (FixedConv.apply c x).mapError (.convolution node)).toTensor
  | .quantize code => return .codes ((← v.asNumbers node).map code.encode)
  | .dequantize code => return .numbers ((← v.asCodes node).map fun c => code.decode c.toNat)

/-! ## Evaluations -/

/-- The tensors that graph inputs are fed, by name. -/
abbrev Feed := String → Option (Tensor Single)

/-- What has been computed: the tensor of each output connector in the order of
evaluation, and the tensors of the graph outputs by name. -/
structure Evaluation where
  values : List (OutputId × Value) := []
  outputs : List (String × Tensor Single) := []
deriving DecidableEq

namespace Evaluation

variable (e : Evaluation)

/-- The tensor of an output connector. -/
def value? (o : OutputId) : Option Value := e.values.lookup o

/-- The tensor of a graph output. -/
def output? (name : String) : Option (Tensor Single) := e.outputs.lookup name

/-- The tensors in the order of their connectors. -/
def sortedValues : List (OutputId × Value) := e.values.mergeSort fun a b => !b.1.before a.1

/-- Takes a tensor as a graph output, in place of an earlier one of that name. -/
def setOutput (name : String) (t : Tensor Single) : Evaluation :=
  { e with outputs := (e.outputs.filter (·.1 ≠ name)) ++ [(name, t)] }

/-- The operand of a node: the tensor of the producer of its first input. -/
def operand (g : Graph) (id : NodeId) (n : Node) : Except EvalError Value := do
  let p ← (g.input ⟨id, 0⟩).mapError .graph
  let some v := p.producer.bind e.value? | throw (.unconnected n.name 0)
  v.check n.name p.type
  return v

/-- What enters a node: for a graph input what it is fed, otherwise the operand. -/
def entering (g : Graph) (feed : Feed) (id : NodeId) (n : Node) : Except EvalError Value :=
  match n.op with
  | .input =>
    match feed n.name with
    | some t => .ok (.numbers t)
    | none => .error (.missingInput n.name)
  | _ => e.operand g id n

/-- Evaluates one node. -/
def step (g : Graph) (feed : Feed) (id : NodeId) : Except EvalError Evaluation := do
  let n ← (g.nodeAt id).mapError .graph
  let x ← e.entering g feed id n
  match n.op with
  | .output => return e.setOutput n.name x.toNumbers
  | op =>
    let y ← op.evaluate n.name x
    y.check n.name (← (g.output ⟨id, 0⟩).mapError .graph).type
    return { e with values := e.values ++ [(⟨id, 0⟩, y)] }

/-- How far an evaluation came: what was computed, and the error that ended it
if one did. -/
structure Progress where
  reached : Evaluation
  error : Option EvalError := none

/-- Evaluates nodes one after another up to the first error. -/
def along (g : Graph) (feed : Feed) (e : Evaluation) : List NodeId → Progress
  | [] => { reached := e }
  | id :: rest =>
    match e.step g feed id with
    | .ok e' => along g feed e' rest
    | .error err => { reached := e, error := some err }

end Evaluation

namespace Graph

variable (g : Graph) (feed : Feed)

/-- Evaluates the reachable nodes in topological order, up to the first error. -/
def progress : Evaluation.Progress :=
  match g.topologicalOrder with
  | .ok order => Evaluation.along g feed {} order
  | .error e => { reached := {}, error := some (.graph e) }

/-- Every tensor that the graph computes, or the first error. -/
def trace : Except EvalError Evaluation :=
  match g.progress feed with
  | { reached, error := none } => .ok reached
  | { error := some err, .. } => .error err

/-- The tensors of the graph outputs by name. -/
def run : Except EvalError (List (String × Tensor Single)) := return (← g.trace feed).outputs

/-- A line for each tensor that was computed, also if an error follows. -/
def traceLog : List LogLine :=
  (g.progress feed).reached.values.filterMap fun (o, v) =>
    (g.nodes.get? o.node).map fun n =>
      ⟨.trace, Handle.text o.node ++ s!" '{n.name}' -> {v.type}"⟩

end Graph

/-! ## Calibrating from an evaluation -/

/-- Records the numbers of an evaluation in the order of their connectors, up to
the first error. Codes have no range to record. -/
def Calibration.observe (c : Calibration) :
    List (OutputId × Value) → Calibration × Option DerivationError
  | [] => (c, none)
  | (_, .codes _) :: rest => c.observe rest
  | (o, .numbers t) :: rest =>
    match c.record o t.data.toList with
    | .ok c' => c'.observe rest
    | .error e => (c, some e)

end FixedNet
