/-
**Transforms.** A transform replaces a part of the graph by another. It works
step by step and may stop at an error, and what it had changed by then
stays changed. So applying it is a computation over the graph, the state that
transforms keep beside it and the log, and an error leaves all three as they were
when it arose.
-/
import FixedNet.Calibration
import FixedNet.Graph.Edit
import FixedNet.Log

set_option autoImplicit false

namespace FixedNet

/-! ## Errors -/

/-- Why a transform stops. -/
inductive EngineError where
  /-- No quantisation parameters can be derived for the named node. -/
  | quantize (node : String) (cause : DerivationError)
  /-- The graph refuses a step. -/
  | graph (cause : GraphError)
  /-- A transform was handed a match that its own matching would not produce. -/
  | patternMismatch (transform reason : String)
deriving DecidableEq

/-- The text of the error. -/
def EngineError.message : EngineError → String
  | .quantize node cause => s!"cannot quantize node '{node}': " ++ cause.message
  | .graph cause => cause.message
  | .patternMismatch transform reason => s!"transform '{transform}' got an invalid match: {reason}"

/-! ## Computations -/

/-- What a transform works on. -/
structure EngineState (σ : Type) where
  graph : Graph
  state : σ
  log : List LogLine := []

/-- A computation of transforms with state `σ`. -/
abbrev TransformM (σ : Type) := EStateM EngineError (EngineState σ)

namespace TransformM

variable {σ τ α : Type}

/-- Changes the graph, unless it refuses. -/
def edit (m : GraphM α) : TransformM σ α := fun w =>
  match m.run w.graph with
  | .ok a g => .ok a { w with graph := g }
  | .error e g => .error (.graph e) { w with graph := g }

/-- Reads the graph. -/
def query (f : Graph → Except GraphError α) : TransformM σ α := edit (GraphM.query f)

/-- Adds a line to the log. -/
def report (level : Level) (text : String) : TransformM σ Unit :=
  modify fun w => { w with log := w.log ++ [⟨level, text⟩] }

/-- Runs a computation on a part of a larger state. -/
def focus (part : τ → σ) (update : σ → τ → τ) (m : TransformM σ α) : TransformM τ α := fun w =>
  let outer (v : EngineState σ) : EngineState τ := { v with state := update v.state w.state }
  match m.run { w with state := part w.state } with
  | .ok a v => .ok a (outer v)
  | .error e v => .error e (outer v)

end TransformM

/-! ## Transforms -/

/-- What a match captured: the matched nodes with the root first, the inputs
that the pattern consumes and the outputs whose consumers are to be moved. -/
structure Match where
  nodes : List NodeId := []
  inputs : List InputId := []
  outputs : List OutputId := []
deriving DecidableEq

/-- What the first match captured, then what the second did. -/
def Match.append (a b : Match) : Match :=
  ⟨a.nodes ++ b.nodes, a.inputs ++ b.inputs, a.outputs ++ b.outputs⟩

/-- A local change of the graph rooted at one node. A transform is offered the
nodes of its kinds; recognising reads the graph, and applying changes it.
Recognising is handed a match and fills it, and tells whether the node roots the
pattern. -/
structure Transform (σ : Type) where
  name : String
  kinds : List OpKind
  recognize : Graph → NodeId → Match → StateM σ (Bool × Match)
  apply : Match → TransformM σ Unit

/-- A transform on a part of a larger state. -/
def Transform.focus {σ τ : Type} (part : τ → σ) (update : σ → τ → τ) (t : Transform σ) :
    Transform τ where
  name := t.name
  kinds := t.kinds
  recognize g id m := fun s =>
    let (answer, s') := (t.recognize g id m).run (part s)
    (answer, update s' s)
  apply m := TransformM.focus part update (t.apply m)

end FixedNet
