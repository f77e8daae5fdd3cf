/-
**The engine.** Offers every node that is there at the start to the transforms for
its kind, in the order they were registered. The first that matches is applied.
Nodes that it creates are not offered, nodes that it removes are passed over, and
the first error ends the run.
-/
import FixedNet.Transform.Basic

set_option autoImplicit false

namespace FixedNet

/-- Transforms in the order they were registered. -/
abbrev Registry (σ : Type) := List (Transform σ)

/-- The transforms for nodes of a kind, in the order they were registered. -/
def Registry.find {σ : Type} (r : Registry σ) (kind : OpKind) : List (Transform σ) :=
  r.filter fun t => kind ∈ t.kinds

namespace Engine

variable {σ : Type}

/-- A transform that was applied, and the name of the node. -/
structure Application where
  transform : String
  node : String
deriving DecidableEq

/-- What a run did: the applications in order, how many nodes were offered and how
many of them no transform matched. -/
structure Report where
  applications : List Application := []
  visited : Nat := 0
  notMatched : Nat := 0
deriving DecidableEq

/-- Asks a transform whether a node roots its pattern. The match it fills is empty
at first, whatever other transforms have captured. -/
def ask (t : Transform σ) (id : NodeId) : TransformM σ (Option Match) := do
  let w ← get
  let ((matched, m), s) := (t.recognize w.graph id {}).run w.state
  set { w with state := s }
  return if matched then some m else none

/-- Offers a node to transforms until one matches and is applied. -/
def offer (id : NodeId) : List (Transform σ) → TransformM σ (Option Application)
  | [] => return none
  | t :: rest => do
    match ← ask t id with
    | none => offer id rest
    | some m =>
      let n ← TransformM.query (·.nodeAt id)
      TransformM.report .debug (t.name ++ ": matched " ++ Handle.text id ++ s!" '{n.name}'")
      t.apply m
      return some ⟨t.name, n.name⟩

/-- Offers one node of the snapshot, if it is still there. -/
def visit (registry : Registry σ) (report : Report) (id : NodeId) : TransformM σ Report := do
  match (← get).graph.nodes.get? id with
  | none => return report
  | some n =>
    let report := { report with visited := report.visited + 1 }
    match ← offer id (registry.find n.kind) with
    | some r => return { report with applications := report.applications ++ [r] }
    | none => return { report with notMatched := report.notMatched + 1 }

/-- Runs the transforms over the graph once. -/
def run (registry : Registry σ) : TransformM σ Report := do
  let snapshot := (← get).graph.ids
  let r ← snapshot.foldlM (visit registry) {}
  TransformM.report .info
    (s!"transform engine: {r.visited} nodes visited, {r.applications.length} rewritten, " ++
      s!"{r.notMatched} not matched")
  return r

end Engine

end FixedNet
