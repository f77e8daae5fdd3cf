/-
**Dataflow graphs.** A graph is an arena of nodes with connectors. An edge from an
output to an input is stored at both ends: the input names its producer, the
output lists its consumers in the order they were connected. Some nodes are
designated as the inputs and outputs of the whole graph.

This file holds the types and everything that only reads a graph.
-/
import FixedNet.Arena
import FixedNet.Attributes
import FixedNet.Op

set_option autoImplicit false

namespace FixedNet

/-! ## Types -/

/-- An input connector of a node. -/
structure Inlet where
  type : TensorType
  producer : Option OutputId := none
deriving DecidableEq

/-- An output connector of a node. -/
structure Outlet where
  type : TensorType
  attributes : Attributes := {}
  consumers : List InputId := []
deriving DecidableEq

/-- A node. -/
structure Node where
  name : String
  op : Op
  attributes : Attributes := {}
  inputs : List Inlet
  outputs : List Outlet
deriving DecidableEq

namespace Node

/-- The kind of the node's operator. -/
def kind (n : Node) : OpKind := n.op.kind

/-- The connectors that feed the node, by input. -/
def producers (n : Node) : List OutputId := n.inputs.filterMap (·.producer)

/-- The connectors that the node feeds, by output. -/
def consumers (n : Node) : List InputId := n.outputs.flatMap (·.consumers)

end Node

/-- A dataflow graph. The designated nodes are listed as they were created. -/
structure Graph where
  nodes : Arena Node := {}
  inputs : List NodeId := []
  outputs : List NodeId := []
deriving DecidableEq

namespace Graph

instance : Inhabited Graph := ⟨{}⟩

/-! ## Looking up -/

variable (g : Graph)

/-- The nodes, in creation order. -/
def ids : List NodeId := g.nodes.handles

/-- Whether the node exists. -/
def contains (id : NodeId) : Bool := g.nodes.contains id

/-- The number of nodes. -/
def nodeCount : Nat := g.nodes.size

/-- A node that the caller names. -/
def node (id : NodeId) : Except GraphError Node :=
  match g.nodes.get? id with
  | some n => .ok n
  | none => .error (.badHandle id)

/-- A node that the graph itself refers to. -/
def nodeAt (id : NodeId) : Except GraphError Node := (g.nodes.get id).mapError .stale

/-- An input connector. -/
def input (i : InputId) : Except GraphError Inlet := do
  match (← g.node i.node).inputs[i.index]? with
  | some p => return p
  | none => throw (.badConnector i.node .input i.index)

/-- An output connector. -/
def output (o : OutputId) : Except GraphError Outlet := do
  match (← g.node o.node).outputs[o.index]? with
  | some p => return p
  | none => throw (.badConnector o.node .output o.index)

/-- The output that feeds an input, if one does. -/
def producer (i : InputId) : Except GraphError (Option OutputId) := return (← g.input i).producer

/-- The inputs that an output feeds, in the order they were connected. -/
def consumers (o : OutputId) : Except GraphError (List InputId) := return (← g.output o).consumers

/-- The first node with the given name. -/
def find? (name : String) : Option NodeId :=
  (g.nodes.entries.find? fun e => e.2.name == name).map (·.1)

end Graph

end FixedNet
