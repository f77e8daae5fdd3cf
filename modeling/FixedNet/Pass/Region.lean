/-
**Marking a region.** Flags the tensors around every node of the selected kinds,
its operands and its results, and the node itself. Calibration has to record a
range for each connector flagged here. A flag is set where it is missing, first on
the connectors and then on the nodes, and marking tells whether it has set one.
-/
import FixedNet.Graph.Edit
import FixedNet.Log

set_option autoImplicit false

namespace FixedNet

namespace Graph

variable (g : Graph)

/-- Flags an output. -/
def markOutput (o : OutputId) : Graph :=
  g.modifyOutput o fun p => { p with attributes := p.attributes.union .quantize }

/-- Flags a node. -/
def markNode (id : NodeId) : Graph :=
  g.modifyNode id fun n => { n with attributes := n.attributes.union .quantize }

/-- Whether an output is there and lacks the flag. -/
def isUnmarkedOutput (o : OutputId) : Bool :=
  match g.output o with
  | .ok p => !p.attributes.contains .quantize
  | .error _ => false

/-- Whether a node is there and lacks the flag. -/
def isUnmarkedNode (id : NodeId) : Bool :=
  match g.node id with
  | .ok n => !n.attributes.contains .quantize
  | .error _ => false

end Graph

/-- The kinds of nodes whose surroundings are marked. -/
structure Region where
  kinds : List OpKind := [.conv2d]

namespace Region

variable (r : Region) (g : Graph)

/-- The name of the pass. -/
def name : String := "mark-quantize-region"

/-- The nodes of the selected kinds, in creation order. -/
def selected : List (NodeId × Node) := g.nodes.entries.filter fun e => e.2.kind ∈ r.kinds

/-- The connectors to flag: for each selected node what feeds it, then its own
outputs. -/
def surroundings : List OutputId :=
  (r.selected g).flatMap fun e =>
    e.2.producers ++ (List.range e.2.outputs.length).map (OutputId.mk e.1)

/-- A warning for each input of a selected node that nothing feeds. -/
def warnings : List LogLine :=
  (r.selected g).flatMap fun e =>
    (e.2.inputs.filter (·.producer.isNone)).map fun _ =>
      ⟨.warn, s!"{e.2.kind} '{e.2.name}' has an unconnected input"⟩

/-- A graph while it is marked, and whether a flag was set so far. -/
structure Progress where
  graph : Graph
  changed : Bool

/-- Sets the flag of `t` if it is missing, and notes that. -/
def Progress.step {τ : Type} (lacks : Graph → τ → Bool) (set : Graph → τ → Graph) (s : Progress)
    (t : τ) : Progress :=
  if lacks s.graph t then ⟨set s.graph t, true⟩ else s

/-- Goes through the surroundings and then through the selected nodes. -/
@[irreducible] def flag : Progress :=
  -- Irreducible, since comparing two marked graphs would run the loops.
  let outputs := (r.surroundings g).foldl
    (Progress.step Graph.isUnmarkedOutput Graph.markOutput) ⟨g, false⟩
  ((r.selected outputs.graph).map (·.1)).foldl
    (Progress.step Graph.isUnmarkedNode Graph.markNode) outputs

/-- A graph after marking, whether marking changed it, and what was logged. -/
structure Outcome where
  graph : Graph
  changed : Bool
  log : List LogLine

/-- Marks the region. -/
def mark : Outcome where
  graph := (r.flag g).graph
  changed := (r.flag g).changed
  log := r.warnings g ++
    if (r.flag g).changed then
      [⟨.debug, name ++ ": flagged region around [" ++
        String.intercalate ", " (r.kinds.map OpKind.label) ++ "]"⟩]
    else []

end Region

end FixedNet
