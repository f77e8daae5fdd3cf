/-
**Removing dead nodes.** A node is dead if no designated output can be reached
from it. Graph inputs stay even when nothing consumes them, since callers supply
them by name.
-/
import FixedNet.Graph.Edit
import FixedNet.Graph.Order
import FixedNet.Log

set_option autoImplicit false

namespace FixedNet.DeadNodes

/-- The name of the pass. -/
def name : String := "dce"

/-- A graph on the way, how many nodes were removed and what was logged. -/
structure Outcome where
  graph : Graph
  removed : Nat := 0
  log : List LogLine := []

/-- The dead nodes, given those that are reachable. -/
def dead (g : Graph) (live : List NodeId) : List NodeId :=
  (g.nodes.entries.filter fun e => e.1 ∉ live ∧ e.2.kind ≠ .input).map (·.1)

/-- Removes one node; a node that the graph will not give up is kept. -/
def step (s : Outcome) (id : NodeId) : Outcome :=
  match (Graph.removeNode id).run s.graph with
  | .ok _ g => { s with graph := g, removed := s.removed + 1 }
  | .error e g =>
    { s with
      graph := g
      log := s.log ++ [⟨.warn, "dce: keeping " ++ Handle.text id ++ ": " ++ e.message⟩] }

/-- Removes all dead nodes. -/
def sweep (g : Graph) : Except GraphError Outcome := do
  let s := (dead g (← g.reachable)).foldl step { graph := g }
  if s.removed = 0 then return s
  return { s with log := s.log ++ [⟨.debug, s!"dce: removed {s.removed} nodes"⟩] }

end FixedNet.DeadNodes
