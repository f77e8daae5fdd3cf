/-
**Graphs and their histories.** A graph is what a sequence of operations made of
the empty graph, and some of the operations may have been refused. `Command` lists
the operations with all their arguments, `build` runs a sequence of them, and the
main result says what holds of every graph that is ever built: the two ends of
each edge agree, types fit, and the designated nodes are exactly those that were
ever created, in order.
-/
import FixedNet.Proofs.Evolution

set_option autoImplicit false

namespace FixedNet

open FixedNet.Graph

/-! ## Commands -/

/-- An operation on a graph with its arguments. Passes and transforms that read or
write a calibration take any one. -/
inductive Command where
  | addNode (name : String) (op : Op) (type : TensorType)
  | addInput (name : String) (type : TensorType)
  | addOutput (name : String) (source : OutputId)
  | connect (i : InputId) (o : OutputId)
  | disconnect (i : InputId)
  | removeNode (id : NodeId)
  | setNodeAttributes (id : NodeId) (a : Attributes)
  | setOutputAttributes (o : OutputId) (a : Attributes)
  | carryOver (old new : OutputId) (c : Option Calibration)
  | mark (r : Region)
  | sweep
  /-- Replaces the convolution of any match, also of one that `recognize` would not
  give. -/
  | replace (config : CodeLimits) (c : Calibration) (m : Match)
  | lower (config : CodeLimits) (c : Calibration)

/-- The graph after an operation, whether it was done, refused or left halfway. -/
def Command.run (g : Graph) : Command → Graph
  | .addNode name op t => finalState ((Graph.addNode name op t).run g)
  | .addInput name t => finalState ((Graph.addInput name t).run g)
  | .addOutput name source => finalState ((Graph.addOutput name source).run g)
  | .connect i o => finalState ((Graph.connect i o).run g)
  | .disconnect i => finalState ((Graph.disconnect i).run g)
  | .removeNode id => finalState ((Graph.removeNode id).run g)
  | .setNodeAttributes id a => finalState ((Graph.setNodeAttributes id a).run g)
  | .setOutputAttributes o a => finalState ((Graph.setOutputAttributes o a).run g)
  | .carryOver old new c =>
    (finalState ((FixedNet.carryOver old new c.isSome).run ⟨g, c.getD {}, []⟩)).graph
  | .mark r => (r.mark g).graph
  | .sweep =>
    match DeadNodes.sweep g with
    | .ok s => s.graph
    | .error _ => g
  | .replace config c m => (finalState ((FixedPoint.apply config m).run ⟨g, c, []⟩)).graph
  | .lower config c => (finalState ((FixedPoint.lower config).run ⟨g, c, []⟩)).graph

/-- The graph after a sequence of operations on the empty graph. -/
def build (cs : List Command) : Graph := cs.foldl Command.run {}

/-- The nodes of a kind at places that the earlier graph had not handed out. -/
def newborn (k : OpKind) (g g' : Graph) : List NodeId :=
  (g'.ofKind k).filter (g.nodes.capacity ≤ ·)

/-- The nodes of a kind that a sequence of operations creates, in the order of their
creation. -/
def created (k : OpKind) (g : Graph) : List Command → List NodeId
  | [] => []
  | c :: cs => newborn k g (c.run g) ++ created k (c.run g) cs

/-! ## One operation -/

variable {g g' : Graph}

/-- What operations on graphs keep, all operations do. -/
theorem Graph.Persists.run {P : Graph → Prop} (hP : Persists P) (c : Command) (hg : P g) :
    P (c.run g) := by
  cases c with
  | addNode name op t => exact hP.addNode name op t g hg
  | addInput name t => exact hP.addInput name t g hg
  | addOutput name source => exact hP.addOutput name source g hg
  | connect i o => exact hP.connect i o g hg
  | disconnect i => exact hP.disconnect i g hg
  | removeNode id => exact hP.removeNode id g hg
  | setNodeAttributes id a => exact hP.setNodeAttributes id a g hg
  | setOutputAttributes o a => exact hP.setOutputAttributes o a g hg
  | carryOver old new c => exact hP.carryOver old new c.isSome ⟨g, c.getD {}, []⟩ hg
  | mark r => exact hP.mark hg r
  | sweep =>
    unfold Command.run
    cases hs : DeadNodes.sweep g with
    | ok s => exact hP.sweep hg hs
    | error e => exact hg
  | replace config c m => exact hP.apply config m ⟨g, c, []⟩ hg
  | lower config c => exact hP.lower config ⟨g, c, []⟩ hg

/-- Every operation leads to a later graph. -/
theorem Command.follows_run (c : Command) (hg : WellFormed g) : Follows g (c.run g) :=
  (persists_follows g).run c (.refl hg)

/-- The designated nodes of a later graph are those of the earlier one and then the
new ones. -/
theorem Graph.Evolves.ofKind_eq (h : Evolves g g') {k : OpKind}
    (hk : k = .input ∨ k = .output) : g'.ofKind k = g.ofKind k ++ newborn k g g' := by
  obtain ⟨m, hm⟩ := Nat.le.dest h.capacity
  have hrange : List.range g'.nodes.capacity =
      List.range g.nodes.capacity ++ (List.range m).map (g.nodes.capacity + ·) := by
    rw [← hm, List.range_add]
  -- On the old places nothing of a designated kind came or went.
  have hold : (List.range g.nodes.capacity).filter
      (fun id => (g'.declaration? id).any (·.op.kind = k)) = g.ofKind k := by
    refine List.filter_congr fun id hid => ?_
    rw [List.mem_range] at hid
    cases hd : g.declaration? id with
    | none => rw [h.emptied id hid hd]
    | some d =>
      rcases h.kept id d hd with hd' | ⟨hd', hin, hout⟩
      · rw [hd']
      · rw [hd']
        rcases hk with rfl | rfl
        · exact (decide_eq_false hin).symm
        · exact (decide_eq_false hout).symm
  have hsplit : g'.ofKind k = g.ofKind k ++
      ((List.range m).map (g.nodes.capacity + ·)).filter
        fun id => (g'.declaration? id).any (·.op.kind = k) := by
    rw [← hold, ← List.filter_append, ← hrange]
    rfl
  have hnew : newborn k g g' = ((List.range m).map (g.nodes.capacity + ·)).filter
      fun id => (g'.declaration? id).any (·.op.kind = k) := by
    unfold newborn
    rw [hsplit, List.filter_append]
    have hsmall : (g.ofKind k).filter (g.nodes.capacity ≤ ·) = [] := by
      rw [List.filter_eq_nil_iff]
      intro id hid
      obtain ⟨n, hn, -⟩ := mem_ofKind.1 hid
      exact fun hle => absurd (Arena.lt_capacity_of_get? hn) (Nat.not_lt.2 (of_decide_eq_true hle))
    rw [hsmall, List.nil_append, List.filter_eq_self]
    intro id hid
    obtain ⟨x, -, rfl⟩ := List.mem_map.1 (List.mem_filter.1 hid).1
    exact decide_eq_true (Nat.le_add_right _ _)
  rw [hnew, ← hsplit]

/-! ## All operations -/

theorem wellFormed_foldl (cs : List Command) (hg : WellFormed g) :
    WellFormed (cs.foldl Command.run g) := by
  induction cs generalizing g with
  | nil => exact hg
  | cons c cs ih => exact ih (c.follows_run hg).wellFormed

/-- Every graph that is ever built is well formed. -/
theorem wellFormed_build (cs : List Command) : WellFormed (build cs) :=
  wellFormed_foldl cs .empty

theorem ofKind_foldl (cs : List Command) (hg : WellFormed g) {k : OpKind}
    (hk : k = .input ∨ k = .output) :
    (cs.foldl Command.run g).ofKind k = g.ofKind k ++ created k g cs := by
  induction cs generalizing g with
  | nil => rw [created, List.append_nil, List.foldl_nil]
  | cons c cs ih =>
    have hc := c.follows_run hg
    rw [List.foldl_cons, ih hc.wellFormed, hc.evolves.ofKind_eq hk, created, List.append_assoc]

theorem ofKind_build (cs : List Command) {k : OpKind} (hk : k = .input ∨ k = .output) :
    (build cs).ofKind k = created k {} cs := by
  unfold build
  rw [ofKind_foldl cs .empty hk]
  rfl

/-- **The representation invariant.** After any sequence of operations:

* an input names an output exactly when that output exists and lists the input;
* no output lists an input twice, and every listed input exists;
* the two ends of every edge have one type;
* every node has the connector types that its operator gives them, on the type of
  its input or, for a graph input, on the type that it emits;
* the designated inputs and outputs are all those that were ever created, in the
  order of their creation, and all of them still exist. -/
theorem representation_invariant (cs : List Command) :
    (∀ i p o, (build cs).input i = .ok p →
      ((build cs).producer i = .ok (some o) ↔ ∃ l, (build cs).consumers o = .ok l ∧ i ∈ l)) ∧
    (∀ o l, (build cs).consumers o = .ok l →
      l.Nodup ∧ ∀ i ∈ l, ∃ p, (build cs).input i = .ok p) ∧
    (∀ i o, (build cs).producer i = .ok (some o) →
      ∃ p q, (build cs).input i = .ok p ∧ (build cs).output o = .ok q ∧ p.type = q.type) ∧
    (∀ id n, (build cs).node id = .ok n →
      ∃ t, n.op.signature t = .ok ⟨n.inputs.map (·.type), n.outputs.map (·.type)⟩ ∧
        (∀ p ∈ n.inputs, p.type = t) ∧ (n.kind = .input → ∀ q ∈ n.outputs, q.type = t)) ∧
    ((build cs).inputs = created .input {} cs ∧
      ∀ id ∈ (build cs).inputs, ∃ n, (build cs).node id = .ok n ∧ n.kind = .input) ∧
    ((build cs).outputs = created .output {} cs ∧
      ∀ id ∈ (build cs).outputs, ∃ n, (build cs).node id = .ok n ∧ n.kind = .output) := by
  have hg := wellFormed_build cs
  have hdesignated : ∀ k id, id ∈ (build cs).ofKind k →
      ∃ n, (build cs).node id = .ok n ∧ n.kind = k := by
    intro k id hid
    obtain ⟨n, hn, hk⟩ := mem_ofKind.1 hid
    exact ⟨n, node_eq_ok.2 hn, hk⟩
  refine ⟨?_, ?_, ?_, ?_, ⟨?_, ?_⟩, ⟨?_, ?_⟩⟩
  · intro i p o _
    rw [producer_eq_ok_some, hg.two_ended]
    constructor
    · rintro ⟨q, hq, hmem⟩
      exact ⟨q.consumers, consumers_eq_ok.2 ⟨q, hq, rfl⟩, hmem⟩
    · rintro ⟨l, hl, hmem⟩
      obtain ⟨q, hq, rfl⟩ := consumers_eq_ok.1 hl
      exact ⟨q, hq, hmem⟩
  · intro o l hl
    obtain ⟨q, hq, rfl⟩ := consumers_eq_ok.1 hl
    refine ⟨hg.nodup o q hq, fun i hi => ?_⟩
    obtain ⟨p, hp, -⟩ := producer?_eq_some.1 (hg.producer?_of_mem hq hi)
    exact ⟨p, input_eq_ok.2 hp⟩
  · intro i o hi
    rw [producer_eq_ok_some] at hi
    obtain ⟨p, hp, -⟩ := producer?_eq_some.1 hi
    obtain ⟨q, hq, -⟩ := hg.outlet?_of_producer? hi
    exact ⟨p, q, input_eq_ok.2 hp, output_eq_ok.2 hq, (hg.type_eq_of_producer? hi hp hq).symm⟩
  · intro id n hn
    rw [node_eq_ok] at hn
    obtain ⟨t, ht⟩ := hg.declared id n.declaration (declaration?_of_get? hn)
    refine ⟨t, ht, fun p hp => ?_, fun hk q hq => ?_⟩
    · have hmem : p.type ∈ n.declaration.signature.inputs := List.mem_map.2 ⟨p, hp, rfl⟩
      rcases Op.signature_cases ht with ⟨-, hs⟩ | ⟨-, hs⟩ | ⟨-, -, u, hs⟩
      · rw [hs] at hmem
        cases hmem
      · rw [hs] at hmem
        exact List.mem_singleton.1 hmem
      · rw [hs] at hmem
        exact List.mem_singleton.1 hmem
    · have hmem : q.type ∈ n.declaration.signature.outputs := List.mem_map.2 ⟨q, hq, rfl⟩
      have hop : n.op = .input := Op.eq_input_of_kind hk
      rcases Op.signature_cases ht with ⟨-, hs⟩ | ⟨hout, -⟩ | ⟨hin, -⟩
      · rw [hs] at hmem
        exact List.mem_singleton.1 hmem
      · exact absurd (hop.symm.trans hout) nofun
      · exact absurd hop hin
  · rw [hg.inputs_eq, ofKind_build cs (.inl rfl)]
  · rw [hg.inputs_eq]
    exact hdesignated .input
  · rw [hg.outputs_eq, ofKind_build cs (.inr rfl)]
  · rw [hg.outputs_eq]
    exact hdesignated .output

end FixedNet
