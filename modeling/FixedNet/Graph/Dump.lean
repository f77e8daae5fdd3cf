/-
**Graphs as text.** One line for each node: its operator, what feeds it and the
types of its outputs.
-/
import FixedNet.Graph.Basic

set_option autoImplicit false

namespace FixedNet.Graph

variable (g : Graph)

/-- What feeds an input: the connector and the name of its node. -/
def producerText (p : Inlet) : String :=
  match p.producer with
  | none => "<unconnected>"
  | some o =>
    match g.nodes.get? o.node with
    | some n => s!"{o} (\"{n.name}\")"
    | none => s!"{o} (removed)"

/-- The type of an output, and its attributes if there are any. -/
def outputText (index : Nat) (p : Outlet) : String :=
  s!" -> out{index}: {p.type}" ++ if p.attributes.isEmpty then "" else s!" [{p.attributes}]"

/-- The line of a node. -/
def nodeLine (id : NodeId) (n : Node) : String :=
  let arguments := String.intercalate ", " (n.inputs.map g.producerText)
  "  " ++ Handle.text id ++ s!" \"{n.name}\" = {n.op}" ++
    (if n.inputs.isEmpty then "" else " <- " ++ arguments) ++
    String.join (n.outputs.mapIdx outputText) ++ "\n"

/-- The whole graph, its nodes in creation order. -/
def dump : String :=
  s!"Graph ({g.nodeCount} nodes):\n" ++
    String.join (g.nodes.entries.map fun e => g.nodeLine e.1 e.2)

end FixedNet.Graph
