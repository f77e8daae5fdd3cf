/-
**What one replacement changes, and what it leaves alone.** The nodes around a replaced
convolution see nothing of the replacement but a new producer in the old one's place.

* `Transparent` lists the changes, with an exact frame: each node that was there before is
  the same but for its edges, and these are given by `reroute`.
* `Spliced.transparent`: a replacement that succeeds is transparent, for any convolution
  that does not feed itself.
-/
import FixedNet.Proofs.Lowering

set_option autoImplicit false

namespace FixedNet.FixedPoint

open FixedNet.Graph

variable {g g' : Graph} {s : Site} {p : Parameters}

/-! ## The old nodes -/

/-- The node `x` of the old graph after the convolution `id`, fed by `source`, is replaced by
three nodes from `base` on. -/
def reroute (id : NodeId) (source : OutputId) (base x : NodeId) (n : Node) : Node :=
  { n with
    inputs := n.inputs.map fun p =>
      { p with producer := p.producer.map (redirect ⟨id, 0⟩ ⟨base + 2, 0⟩) }
    outputs := n.outputs.mapIdx fun k q =>
      { q with consumers := regroup ⟨id, 0⟩ source base ⟨x, k⟩ q.consumers } }

theorem regroup_old {old source : OutputId} (hne : source ≠ old) (base : NodeId)
    (l : List InputId) : regroup old source base old l = [] := by
  simp [regroup, hne.symm]

theorem regroup_source {old source : OutputId} (hne : source ≠ old) (base : NodeId)
    (l : List InputId) : regroup old source base source l = l ++ [⟨base, 0⟩] := by
  simp [regroup, hne]

namespace Spliced

variable (h : Spliced g s p g')
include h

theorem consumers_old {o : OutputId} {q : Outlet} (hq : g.outlet? o = some q) :
    g'.consumers o = .ok (regroup s.output s.source g.nodes.capacity o q.consumers) := by
  have hq' := h.outlet o (lt_capacity_of_outlet? hq)
  rw [hq] at hq'
  exact consumers_eq_ok.2 ⟨_, hq', rfl⟩

/-- The old nodes and then the three new ones. -/
theorem ids_eq :
    g'.ids = g.ids ++
      [g.nodes.capacity, g.nodes.capacity + 1, g.nodes.capacity + 2] := by
  have hold : (List.range g.nodes.capacity).filter g'.nodes.contains = g.ids := by
    refine List.filter_congr fun id hid => ?_
    have hcontains : g'.contains id ↔ g.contains id := by
      rw [contains_iff, contains_iff, h.old id (List.mem_range.1 hid)]
    exact Bool.eq_iff_iff.2 hcontains
  obtain ⟨sourceName, v, -, hd⟩ := h.new
  have hnew : ∀ k, k < 3 → g'.nodes.contains (g.nodes.capacity + k) := by
    intro k hk
    have hlen : k < (s.declarations p sourceName v).length := hk
    exact contains_iff.2 ⟨_, (hd k).trans (List.getElem?_eq_getElem hlen)⟩
  have htail : [g.nodes.capacity, g.nodes.capacity + 1, g.nodes.capacity + 2].filter
      g'.nodes.contains = [g.nodes.capacity, g.nodes.capacity + 1, g.nodes.capacity + 2] := by
    rw [List.filter_eq_self]
    simpa using ⟨hnew 0 (by decide), hnew 1 (by decide), hnew 2 (by decide)⟩
  have hrange : List.range (g.nodes.capacity + 3) = List.range g.nodes.capacity ++
      [g.nodes.capacity, g.nodes.capacity + 1, g.nodes.capacity + 2] := by
    simp [List.range_succ]
  unfold ids Arena.handles
  rw [h.capacity, hrange, List.filter_append, hold, htail]
  rfl

/-- **Frame.** An old node is the same but for its edges. -/
theorem get?_old {id : NodeId} (hid : id < g.nodes.capacity) :
    g'.nodes.get? id = (g.nodes.get? id).map (reroute s.node s.source g.nodes.capacity id) := by
  cases hn : g.nodes.get? id with
  | none =>
    have hd := h.old id hid
    rw [declaration?, declaration?, hn, Option.map_none] at hd
    exact Option.map_eq_none_iff.1 hd
  | some n =>
    refine get?_of_connectors hn (h.old id hid) (h.nodeFlags id hid) (fun k => ?inputs)
      fun k => ?outputs
    case inputs =>
      rw [inlet?_of_producer? (i := ⟨id, k⟩) (h.old id hid) (h.moved ⟨id, k⟩ hid),
        List.getElem?_map, inlet?, hn]
      rfl
    case outputs =>
      rw [h.outlet ⟨id, k⟩ hid, List.getElem?_mapIdx, outlet?, hn]
      rfl

/-- The convolution feeds nothing any more, unless it fed itself. -/
theorem not_needed (hs : IsSite g s) (hne : s.source ≠ s.output) : ¬ g'.Needed s.node := by
  intro hneeded
  obtain ⟨u, hu⟩ := hs.declared
  have hlt := hs.lt_capacity
  cases hneeded with
  | output hout hc =>
    -- A convolution is not designated.
    rw [h.wellFormed.outputs_eq] at hout
    obtain ⟨n, hn, hkind⟩ := mem_ofKind.1 hout
    have hd := declaration?_of_get? hn
    rw [h.old s.node hlt, hu] at hd
    have hop : n.op = .conv2d s.conv := (congrArg Declaration.op (Option.some.inj hd)).symm
    rw [Node.kind, hop] at hkind
    cases hkind
  | @feeds _ b hb hf =>
    -- What it feeds is among its consumers, and it has none.
    obtain ⟨q', hq', hmem⟩ := h.wellFormed.outlet?_of_producer? (h.wellFormed.feeds_iff.1 hf)
    obtain ⟨q, hq⟩ := hs.outlet
    have hnone := h.consumers_old hq
    rw [regroup_old hne] at hnone
    obtain ⟨r, hr, hnil⟩ := consumers_eq_ok.1 hnone
    cases hq'.symm.trans hr
    rw [hnil] at hmem
    exact absurd hmem List.not_mem_nil

end Spliced

/-! ## Transparency -/

/-- What the replacement of the convolution `id`, fed by `source`, makes of a graph and a
table. The new nodes are `base`, `base + 1` and `base + 2`, the next that the graph hands
out. -/
structure Transparent (config : CodeLimits) (g : Graph) (c : Calibration) (id : NodeId)
    (source : OutputId) (base : NodeId) (g' : Graph) (c' : Calibration) : Prop where
  fresh : base = g.nodes.capacity
  /-- Three nodes are added, and none is removed. -/
  added : g'.ids = g.ids ++ [base, base + 1, base + 2]
  /-- They quantise, convolve codes and dequantise. -/
  ops : ∃ n conv p n₀ n₁ n₂, g.node id = .ok n ∧ n.op = .conv2d conv ∧
    Parameters.derive config conv c source ⟨id, 0⟩ = .ok p ∧ g'.node base = .ok n₀ ∧
    g'.node (base + 1) = .ok n₁ ∧ g'.node (base + 2) = .ok n₂ ∧ n₀.op = .quantize p.inputCode ∧
    n₁.op = .quantizedConv2d (p.fixedConv conv) ∧ n₂.op = .dequantize p.outputCode
  /-- The last of them has the consumers of the convolution, in the same order. -/
  moved : ∀ l, g.consumers ⟨id, 0⟩ = .ok l → g'.consumers ⟨base + 2, 0⟩ = .ok l ∧
    ∀ i ∈ l, g'.producer i = .ok (some ⟨base + 2, 0⟩)
  /-- The convolution has none. -/
  vacated : g'.consumers ⟨id, 0⟩ = .ok []
  /-- What feeds the convolution also feeds the first new node. -/
  shared : ∃ l, g.consumers source = .ok l ∧ ⟨id, 0⟩ ∈ l ∧
    g'.consumers source = .ok (l ++ [⟨base, 0⟩])
  quantized : g'.consumers ⟨base, 0⟩ = .ok [⟨base + 1, 0⟩]
  convolved : g'.consumers ⟨base + 1, 0⟩ = .ok [⟨base + 2, 0⟩]
  /-- The last output has the flags of the convolution's and, where that is used, its type. -/
  result : ∃ q q', g.output ⟨id, 0⟩ = .ok q ∧ g'.output ⟨base + 2, 0⟩ = .ok q' ∧
    q'.attributes = q.attributes ∧ (q.consumers ≠ [] → q'.type = q.type)
  /-- An old node is the same but for these edges. -/
  frame : ∀ x n, g.node x = .ok n → g'.node x = .ok (reroute id source base x n)
  inputs : g'.inputs = g.inputs
  outputs : g'.outputs = g.outputs
  /-- One range is recorded, for the last output, and it is the convolution's. -/
  table : (c.get? ⟨id, 0⟩).isSome ∧
    ∀ o, c'.get? o = if o = ⟨base + 2, 0⟩ then c.get? ⟨id, 0⟩ else c.get? o
  /-- No cycle is made. -/
  ordered : (∃ order, g.topologicalOrder = .ok order) → ∃ order, g'.topologicalOrder = .ok order
  /-- No output of the graph depends on the convolution any more. -/
  dead : ∃ live, g'.reachable = .ok live ∧ id ∉ live

/-- A graph in topological order has one after a replacement. -/
theorem Spliced.topologicalOrder_ok (hg : g.WellFormed) (hs : IsSite g s) (h : Spliced g s p g')
    (horder : ∃ order, g.topologicalOrder = .ok order) :
    ∃ order, g'.topologicalOrder = .ok order := by
  have hacc := hg.topologicalOrder_ok_iff.1 horder
  -- A single replacement is a sequence of one, for which origins are known.
  have hrw := (Rewritten.start hg).step hs h
  refine h.wellFormed.topologicalOrder_ok_iff.2 fun id hid => ?_
  obtain ⟨x, horigin, hx⟩ := hrw.needed_origin hg hacc hid
  exact hrw.acc_of_origin hg hacc horigin hx

/-- A consumer of the convolution takes what the last new node yields. -/
theorem Spliced.type_eq (hg : g.WellFormed) (h : Spliced g s p g') {q q' : Outlet}
    (hq : g.outlet? s.output = some q) (hq' : g'.outlet? ⟨g.nodes.capacity + 2, 0⟩ = some q')
    (hsame : q'.consumers = q.consumers) (hused : q.consumers ≠ []) : q'.type = q.type := by
  obtain ⟨i, hi⟩ := List.exists_mem_of_ne_nil _ hused
  have hp := hg.producer?_of_mem hq hi
  have hp' := h.wellFormed.producer?_of_mem hq' (hsame ▸ hi)
  obtain ⟨t, ht, -⟩ := producer?_eq_some.1 hp
  obtain ⟨t', ht', -⟩ := producer?_eq_some.1 hp'
  -- The type of an input is declared with its node, and that is an old one.
  have hdeclared : t'.type = t.type := by
    have htype := inlet?_type (g := g') i
    rw [h.old i.node (lt_capacity_of_inlet? ht), ← inlet?_type, ht, ht'] at htype
    exact Option.some.inj htype
  rw [h.wellFormed.type_eq_of_producer? hp' ht' hq', hdeclared, hg.type_eq_of_producer? hp ht hq]

theorem Spliced.transparent {config : CodeLimits} {c : Calibration} (hg : g.WellFormed)
    (hs : IsSite g s) (hne : s.source ≠ s.output)
    (hp : Parameters.derive config s.conv c s.source s.output = .ok p) (h : Spliced g s p g') :
    Transparent config g c s.node s.source g.nodes.capacity g'
      (c.insert ⟨g.nodes.capacity + 2, 0⟩ p.outputBounds) := by
  obtain ⟨q, hq⟩ := hs.outlet
  have hresult := h.result
  rw [hq, Option.map_some] at hresult
  constructor
  case fresh => rfl
  case added => exact h.ids_eq
  case ops =>
    obtain ⟨n, hn, -, hop⟩ := hs.get?
    obtain ⟨n₀, n₁, n₂, hnodes⟩ := (h.placed hs.flagged).ops
    exact ⟨n, s.conv, p, n₀, n₁, n₂, node_eq_ok.2 hn, hop, hp, hnodes⟩
  case moved =>
    intro l hl
    obtain ⟨r, hr, rfl⟩ := consumers_eq_ok.1 hl
    cases hq.symm.trans hr
    refine ⟨consumers_eq_ok.2 ⟨_, hresult, rfl⟩, fun i hi => ?_⟩
    exact producer_eq_ok_some.2 (h.wellFormed.producer?_of_mem hresult hi)
  case vacated =>
    have hvacated := h.consumers_old hq
    rw [regroup_old hne] at hvacated
    exact hvacated
  case shared =>
    obtain ⟨r, hr, hmem⟩ := hg.outlet?_of_producer? hs.fed
    have hshared := h.consumers_old hr
    rw [regroup_source hne] at hshared
    exact ⟨r.consumers, consumers_eq_ok.2 ⟨r, hr, rfl⟩, hmem, hshared⟩
  case quantized => exact consumers_eq_ok.2 (Option.map_eq_some_iff.1 h.quantized)
  case convolved => exact consumers_eq_ok.2 (Option.map_eq_some_iff.1 h.convolved)
  case result =>
    exact ⟨q, _, output_eq_ok.2 hq, output_eq_ok.2 hresult, rfl, h.type_eq hg hq hresult rfl⟩
  case frame =>
    intro x n hx
    have hget := h.get?_old (Arena.lt_capacity_of_get? (node_eq_ok.1 hx))
    rw [node_eq_ok.1 hx] at hget
    exact node_eq_ok.2 hget
  case inputs => exact h.inputs
  case outputs => exact h.outputs
  case table =>
    obtain ⟨⟨-, hout⟩, -⟩ := Parameters.derive_eq_ok.1 hp
    have hrange : c.get? ⟨s.node, 0⟩ = some p.outputBounds := hout
    rw [hrange]
    exact ⟨rfl, fun o => c.get?_insert _ o _⟩
  case ordered => exact h.topologicalOrder_ok hg hs
  case dead =>
    obtain ⟨live, hlive, -, hneeded⟩ := h.wellFormed.reachable_ok
    exact ⟨live, hlive, fun hid => h.not_needed hs hne ((hneeded _).1 hid)⟩

/-- **A replacement is transparent.** Take a graph built by any sequence of operations, any
table and any limits, and a convolution that is recognised there and does not feed itself.
If its replacement succeeds, then it has the effects that `Transparent` lists, and no
other. -/
theorem replacement_transparent (cs : List Command) (c : Calibration) (config : CodeLimits)
    (log : List LogLine) (id : NodeId) (m : Match) (source : OutputId)
    (w : EngineState Calibration) (hm : recognize (build cs) id = some m)
    (hsource : (build cs).producer ⟨id, 0⟩ = .ok (some source)) (hne : source ≠ ⟨id, 0⟩)
    (hrun : (apply config m).run ⟨build cs, c, log⟩ = .ok () w) :
    Transparent config (build cs) c id source (build cs).nodes.capacity w.graph w.state := by
  have hg := wellFormed_build cs
  obtain ⟨s, hs, rfl⟩ := site_of_recognize hg hm
  obtain rfl : s.toMatch = m := Option.some.inj (hs.recognize_eq.symm.trans hm)
  obtain rfl : s.source = source :=
    Option.some.inj (hs.fed.symm.trans (producer_eq_ok_some.1 hsource))
  obtain ⟨p, hp, hspliced, hstate⟩ := IsSite.apply_eq_ok (w := ⟨build cs, c, log⟩) hg hs hrun
  rw [hstate]
  exact hspliced.transparent hg hs hne hp

/-- The chain with its middle delivered as well, so that the first convolution has two
consumers. -/
def tappedChain : List Command := reversedChain ++ [.addOutput "z" ⟨2, 0⟩]

theorem apply_tappedChain : ∃ w,
    (apply {} ⟨[2], [⟨2, 0⟩], [⟨2, 0⟩]⟩).run ⟨build tappedChain, chainRanges, []⟩ = .ok () w := by
  have hok : succeedsWith (fun _ _ => true) ((apply {} ⟨[2], [⟨2, 0⟩], [⟨2, 0⟩]⟩).run
      ⟨build tappedChain, chainRanges, []⟩) := by decide +kernel
  obtain ⟨u, w, hrun, -⟩ := exists_of_succeedsWith hok
  exact ⟨w, hrun⟩

/-- Both consumers of the first convolution move to the last new node, in their order. -/
theorem replacement_transparent_tappedChain : ∃ m w,
    recognize (build tappedChain) 2 = some m ∧
    (apply {} m).run ⟨build tappedChain, chainRanges, []⟩ = .ok () w ∧
    Transparent {} (build tappedChain) chainRanges 2 ⟨0, 0⟩ 5 w.graph w.state ∧
    w.graph.consumers ⟨7, 0⟩ = .ok [⟨1, 0⟩, ⟨4, 0⟩] := by
  have hm : recognize (build tappedChain) 2 = some ⟨[2], [⟨2, 0⟩], [⟨2, 0⟩]⟩ := by decide +kernel
  have hfed : (build tappedChain).producer? ⟨2, 0⟩ = some ⟨0, 0⟩ := by decide +kernel
  have hcapacity : (build tappedChain).nodes.capacity = 5 := by decide +kernel
  have hconsumers : ((build tappedChain).outlet? ⟨2, 0⟩).map (·.consumers) =
      some [⟨1, 0⟩, ⟨4, 0⟩] := by decide +kernel
  obtain ⟨w, hrun⟩ := apply_tappedChain
  have htransparent := replacement_transparent tappedChain chainRanges {} [] 2 _ ⟨0, 0⟩ w hm
    (producer_eq_ok_some.2 hfed) (by decide) hrun
  rw [hcapacity] at htransparent
  obtain ⟨hmoved, -⟩ := htransparent.moved _
    (consumers_eq_ok.2 (Option.map_eq_some_iff.1 hconsumers))
  exact ⟨_, w, hm, hrun, htransparent, hmoved⟩

end FixedNet.FixedPoint
