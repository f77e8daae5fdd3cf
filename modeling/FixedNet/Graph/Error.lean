/-
**Why a graph operation is refused.** Every cause with what the message needs to
name it.
-/
import FixedNet.Connector
import FixedNet.Tensor.Type

set_option autoImplicit false

namespace FixedNet

/-- The side of a node on which a connector sits. -/
inductive Direction where
  | input
  | output
deriving DecidableEq

instance : ToString Direction where
  toString
    | .input => "input"
    | .output => "output"

/-- A reason to refuse an operation on a graph. -/
inductive GraphError where
  /-- The node does not exist or was removed. -/
  | badHandle (node : NodeId)
  /-- The node has no such connector. -/
  | badConnector (node : NodeId) (direction : Direction) (index : Nat)
  /-- The two ends of an edge differ in type. -/
  | typeMismatch (expected found : TensorType)
  /-- A convolution takes tensors of rank four only. -/
  | notRankFour (found : Shape)
  /-- Only `visited` of `total` nodes can be put in order. -/
  | cycle (visited total : Nat)
  /-- A designated input or output of the graph cannot be removed. -/
  | designatedNode (name : String)
  /-- The graph itself refers to a node that is gone. -/
  | stale (handle : StaleHandle)
  /-- More values arrive at a node than it has connected inputs. -/
  | overfed (node : NodeId)
deriving DecidableEq

namespace GraphError

/-- The text of the error. -/
def message : GraphError → String
  | .badHandle node => "node " ++ Handle.text node ++ " does not exist or was removed"
  | .badConnector node direction index =>
    "node " ++ Handle.text node ++ s!" has no {direction} connector #{index}"
  | .typeMismatch expected found => s!"type mismatch: expected {expected}, found {found}"
  | .notRankFour found => "type mismatch: expected rank-4 NCHW tensor, found " ++ found.text
  | .cycle visited total => s!"graph contains a cycle ({visited} of {total} nodes ordered)"
  | .designatedNode name => s!"node '{name}' is a designated graph input or output"
  | .stale handle => handle.message
  | .overfed _ => "attempt to subtract with overflow"

end GraphError

end FixedNet
