/-
**Removing nodes.** `Without g dead g'` says node by node what `g'` is after the nodes
`dead` were removed from `g`: these are gone, and every other node has lost its edges to
them and nothing else. Removing one node does this (`without_remove`), and doing it for
two lists of nodes in turn is doing it for both at once (`Without.trans`), so a run of
removals is known exactly, whatever its order.
-/
import FixedNet.Proofs.Evolution

set_option autoImplicit false

namespace FixedNet

/-! ## Losing edges -/

/-- The node without its edges to the nodes `dead`. -/
def Node.without (dead : List NodeId) (n : Node) : Node :=
  { n with
    inputs := n.inputs.map fun p => { p with producer := p.producer.filter (·.node ∉ dead) }
    outputs := n.outputs.map fun q =>
      { q with consumers := q.consumers.filter (·.node ∉ dead) } }

namespace Node

theorem without_nil (n : Node) : n.without [] = n := by
  have hkeep : ∀ x : Option OutputId, x.filter (fun _ => true) = x := by
    intro x
    cases x <;> rfl
  simp [without, hkeep, List.filter_eq_self.2]

theorem without_without (l l' : List NodeId) (n : Node) :
    (n.without l).without l' = n.without (l ++ l') := by
  simp [without, Function.comp_def, Option.filter_filter, List.filter_filter, Bool.and_comm]

theorem declaration_without (l : List NodeId) (n : Node) :
    (n.without l).declaration = n.declaration := by
  simp [without, declaration, signature, Function.comp_def]

end Node

namespace Graph

/-- The graph `g'` is `g` after the nodes `dead` were removed. -/
structure Without (g : Graph) (dead : List NodeId) (g' : Graph) : Prop where
  inputs : g'.inputs = g.inputs
  outputs : g'.outputs = g.outputs
  node : ∀ id, g'.nodes.get? id =
    if id ∈ dead then none else (g.nodes.get? id).map (Node.without dead)

variable {g g' : Graph} {dead : List NodeId}

namespace Without

theorem refl (g : Graph) : g.Without [] g := by
  refine ⟨rfl, rfl, fun id => ?_⟩
  rw [if_neg List.not_mem_nil]
  cases g.nodes.get? id with
  | none => rfl
  | some n => rw [Option.map_some, n.without_nil]

theorem trans {g₁ g₂ g₃ : Graph} {l l' : List NodeId} (h : g₁.Without l g₂)
    (h' : g₂.Without l' g₃) : g₁.Without (l ++ l') g₃ := by
  refine ⟨h'.inputs.trans h.inputs, h'.outputs.trans h.outputs, fun id => ?_⟩
  rw [h'.node, h.node]
  by_cases hl : id ∈ l
  · simp [hl]
  · by_cases hl' : id ∈ l'
    · simp [hl']
    · simp [hl, hl', Function.comp_def, Node.without_without]

/-! ### What is left -/

variable (h : g.Without dead g')
include h

theorem declaration? (id : NodeId) :
    g'.declaration? id = if id ∈ dead then none else g.declaration? id := by
  unfold Graph.declaration?
  rw [h.node]
  split
  · rfl
  · simp [Function.comp_def, Node.declaration_without]

theorem contains_iff {id : NodeId} : g'.contains id ↔ id ∉ dead ∧ g.contains id := by
  rw [Graph.contains_iff, Graph.contains_iff, h.declaration?]
  by_cases hid : id ∈ dead
  · simp [hid]
  · simp [hid]

theorem producer? {i : InputId} (hi : i.node ∉ dead) :
    g'.producer? i = (g.producer? i).filter (·.node ∉ dead) := by
  unfold Graph.producer? inlet?
  rw [h.node, if_neg hi]
  cases g.nodes.get? i.node with
  | none => rfl
  | some n =>
    simp only [Option.map_some, Option.bind_some, Node.without, List.getElem?_map]
    cases n.inputs[i.index]? with
    | none => rfl
    | some p => rfl

theorem outlet?_of_some {o : OutputId} {q' : Outlet} (hq' : g'.outlet? o = some q') :
    ∃ q, g.outlet? o = some q ∧
      q' = { q with consumers := q.consumers.filter (·.node ∉ dead) } := by
  obtain ⟨n', hn', hk'⟩ := get?_of_outlet? hq'
  rw [h.node] at hn'
  split at hn'
  · cases hn'
  · obtain ⟨n, hn, rfl⟩ := Option.map_eq_some_iff.1 hn'
    rw [Node.without, List.getElem?_map] at hk'
    obtain ⟨q, hk, rfl⟩ := Option.map_eq_some_iff.1 hk'
    exact ⟨q, by rw [outlet?, hn, Option.bind_some, hk], rfl⟩

end Without

/-! ## Removing a node -/

/-- Removing a node takes its edges from the other nodes and nothing else. -/
theorem WellFormed.without_remove (hg : WellFormed g) {id : NodeId} {n : Node}
    (hn : g.nodes.get? id = some n) : g.Without [id] ((g.isolate id n).dropNode id) := by
  have hw : Rewired g (g.isolate id n) := .foldl_cut g _
  refine ⟨hw.inputs, hw.outputs, fun k => ?_⟩
  rw [get?_dropNode]
  by_cases hk : k = id
  · simp [hk]
  rw [if_neg (Ne.symm hk), if_neg (by simpa using hk)]
  cases hm : g.nodes.get? k with
  | none =>
    have hd := hw.declaration k
    rw [Graph.declaration?, Graph.declaration?, hm, Option.map_none] at hd
    exact Option.map_eq_none_iff.1 hd
  | some m =>
    refine get?_of_connectors hm (hw.declaration k) (hw.nodeFlags k) (fun j => ?inputs)
      fun j => ?outputs
    case inputs =>
      have hp : (g.isolate id n).producer? ⟨k, j⟩ =
          (g.producer? ⟨k, j⟩).filter (·.node ∉ [id]) := by
        refine Option.ext fun o => ?_
        rw [hg.producer?_isolate hn, Option.filter_eq_some_iff]
        simp [hk]
      rw [inlet?_of_producer? (i := ⟨k, j⟩) (hw.declaration k) hp, List.getElem?_map, inlet?, hm]
      rfl
    case outputs =>
      rw [hg.outlet?_isolate hn hk, List.getElem?_map, outlet?, hm]
      simp

end Graph

end FixedNet
