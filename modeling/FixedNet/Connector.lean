/-
**Names of nodes and connectors.** A node is named by its place in the graph's
arena; a connector by its node and its number among the node's inputs or outputs.
-/
import FixedNet.Arena

set_option autoImplicit false

namespace FixedNet

/-- The place of a node in its graph. -/
abbrev NodeId := Handle

/-- An input connector of a node. -/
structure InputId where
  node : NodeId
  index : Nat
deriving DecidableEq

/-- An output connector of a node. -/
structure OutputId where
  node : NodeId
  index : Nat
deriving DecidableEq

instance : ToString InputId := ⟨fun i => Handle.text i.node ++ ".in" ++ toString i.index⟩

instance : ToString OutputId := ⟨fun o => Handle.text o.node ++ ".out" ++ toString o.index⟩

/-- Output connectors come in the order of their nodes, then of their numbers. -/
def OutputId.before (a b : OutputId) : Bool :=
  decide (a.node < b.node) || a.node == b.node && decide (a.index < b.index)

end FixedNet
