/-
**Changing a graph.** A change is a computation over the graph that may be
refused; what it did before it was refused stays done. The operations below
consist of several such steps, and a later one could be refused when an earlier
one has written already. On a graph whose edges agree at their two ends this does
not happen: each operation is done as a whole or leaves the graph alone.
-/
import FixedNet.Graph.Basic

set_option autoImplicit false

namespace FixedNet

/-- A change of a graph. -/
abbrev GraphM := EStateM GraphError Graph

/-- Reads the graph. -/
def GraphM.query {α : Type} (f : Graph → Except GraphError α) : GraphM α := fun g =>
  match f g with
  | .ok a => .ok a g
  | .error e => .error e g

namespace Graph

/-! ## Places -/

/-- Changes a node, if it exists. -/
def modifyNode (g : Graph) (id : NodeId) (f : Node → Node) : Graph :=
  { g with nodes := g.nodes.modify id f }

/-- Changes an input connector, if it exists. -/
def modifyInput (g : Graph) (i : InputId) (f : Inlet → Inlet) : Graph :=
  g.modifyNode i.node fun n => { n with inputs := n.inputs.modify i.index f }

/-- Changes an output connector, if it exists. -/
def modifyOutput (g : Graph) (o : OutputId) (f : Outlet → Outlet) : Graph :=
  g.modifyNode o.node fun n => { n with outputs := n.outputs.modify o.index f }

/-! ## Attributes -/

/-- Gives a node new attributes. -/
def setNodeAttributes (id : NodeId) (a : Attributes) : GraphM Unit := do
  let _ ← GraphM.query (·.node id)
  modify (·.modifyNode id fun n => { n with attributes := a })

/-- Gives an output new attributes. -/
def setOutputAttributes (o : OutputId) (a : Attributes) : GraphM Unit := do
  let _ ← GraphM.query (·.output o)
  modify (·.modifyOutput o fun p => { p with attributes := a })

/-! ## Nodes -/

/-- The graph with a new node, its connectors unconnected. Inputs and outputs of
the graph are designated by their kind. -/
def append (g : Graph) (name : String) (op : Op) (s : Signature) : Graph where
  nodes := g.nodes.push
    { name, op, inputs := s.inputs.map ({ type := · }), outputs := s.outputs.map ({ type := · }) }
  inputs := if op.kind = .input then g.inputs ++ [g.nodes.capacity] else g.inputs
  outputs := if op.kind = .output then g.outputs ++ [g.nodes.capacity] else g.outputs

/-- Adds a node for an operator on tensors of type `t`, and names it. -/
def addNode (name : String) (op : Op) (t : TensorType) : GraphM NodeId := do
  let s ← GraphM.query fun _ => op.signature t
  modifyGet fun g => (g.nodes.capacity, g.append name op s)

/-- Adds a graph input for tensors of type `t`, and names it. -/
def addInput (name : String) (t : TensorType) : GraphM NodeId :=
  modifyGet fun g => (g.nodes.capacity, g.append name .input ⟨[], [t]⟩)

/-! ## Edges -/

/-- Writes what feeds an input. The node is one that the graph refers to. -/
def setProducer (i : InputId) (p : Option OutputId) : GraphM Unit := do
  let _ ← GraphM.query (·.nodeAt i.node)
  modify (·.modifyInput i fun q => { q with producer := p })

/-- Detaches an input from its producer, and names that producer. -/
def disconnect (i : InputId) : GraphM (Option OutputId) := do
  match (← GraphM.query (·.input i)).producer with
  | none => return none
  | some o =>
    modify (·.modifyOutput o fun p => { p with consumers := p.consumers.filter (· ≠ i) })
    setProducer i none
    return some o

/-- Feeds an input from an output, in place of what fed it before. The types must
be equal. An edge that is there already stays where it is among the consumers. -/
def connect (i : InputId) (o : OutputId) : GraphM Unit := do
  let source ← GraphM.query (·.output o)
  let target ← GraphM.query (·.input i)
  if source.type ≠ target.type then throw (.typeMismatch source.type target.type)
  -- Detaching and attaching again would move the edge to the end of the list.
  if target.producer = some o then return
  let _ ← disconnect i
  -- Detaching wrote to the graph, so the output is looked up again.
  let _ ← GraphM.query (·.output o)
  modify (·.modifyOutput o fun p => { p with consumers := p.consumers ++ [i] })
  setProducer i (some o)

/-- Adds a graph output fed by `source`, and names it. -/
def addOutput (name : String) (source : OutputId) : GraphM NodeId := do
  let p ← GraphM.query (·.output source)
  let id ← addNode name .output p.type
  connect ⟨id, 0⟩ source
  return id

/-- Removes a node with every edge that touches it. Designated nodes stay. -/
def removeNode (id : NodeId) : GraphM Unit := do
  let n ← GraphM.query (·.node id)
  let g ← get
  if id ∈ g.inputs ∨ id ∈ g.outputs then throw (.designatedNode n.name)
  -- A node that feeds itself is listed twice; detaching it again does nothing.
  let own := (List.range n.inputs.length).map (InputId.mk id)
  (own ++ n.consumers).forM fun i => discard (disconnect i)
  modify fun g => { g with nodes := g.nodes.erase id }

end Graph

end FixedNet
