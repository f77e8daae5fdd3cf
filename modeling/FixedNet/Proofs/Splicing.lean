/-
**One replacement.** What `FixedPoint.apply` does to a graph and its table of ranges,
at a convolution that `recognize` accepts.

* `Site` holds what is known about such a convolution, and `IsSite` says that it is
  one: `recognize` accepts exactly the sites (`IsSite.recognize_eq`, `site_of_recognize`).
* `Spliced` is the graph after the replacement, by its connectors: three new nodes in a
  row, the first fed by the convolution's own producer, and every consumer of the
  convolution moved to the last. All other nodes, edges and flags are as they were.
* A replacement changes nothing where no parameters can be derived from the table
  (`IsSite.run_apply_of_underivable`). Otherwise it ends in such a graph with one entry
  more in the table (`IsSite.run_apply_of_fits`), unless the convolution has consumers
  and is not one of numbers (`IsSite.run_apply_of_not_fits`).
-/
import FixedNet.Proofs.Growing
import FixedNet.Proofs.Parameters

set_option autoImplicit false

namespace FixedNet

theorem TensorType.withScalar_eq_self {t : TensorType} {s : Scalar} :
    t.withScalar s = t ↔ t.scalar = s := by
  constructor
  · intro h
    rw [← h]
    rfl
  · rintro rfl
    rfl

/-! ## Sites -/

namespace FixedPoint

/-- A convolution to be lowered: what it was created with and what feeds it. -/
structure Site where
  node : NodeId
  name : String
  conv : FloatConv
  operand : TensorType
  source : OutputId

/-- The output of the convolution. -/
def Site.output (s : Site) : OutputId := ⟨s.node, 0⟩

/-- The match that `recognize` reports for a site. -/
def Site.toMatch (s : Site) : Match :=
  { nodes := [s.node], inputs := [⟨s.node, 0⟩], outputs := [⟨s.node, 0⟩] }

/-- The site is there, and both its producer and its own output are flagged. -/
structure IsSite (g : Graph) (s : Site) : Prop where
  declared : ∃ u, g.declaration? s.node = some ⟨s.name, .conv2d s.conv, ⟨[s.operand], [u]⟩⟩
  fed : g.producer? ⟨s.node, 0⟩ = some s.source
  sourceFlagged : isFlagged g s.source
  flagged : isFlagged g s.output

variable {g : Graph} {s : Site}

theorem isFlagged_eq (g : Graph) (o : OutputId) :
    isFlagged g o = ((g.outlet? o).map (·.attributes)).any (·.contains .quantize) := by
  unfold isFlagged
  cases ho : g.outlet? o with
  | some q => rw [Graph.output_eq_ok.2 ho]; rfl
  | none =>
    cases h : g.output o with
    | ok q =>
      rw [Graph.output_eq_ok, ho] at h
      cases h
    | error e => rfl

theorem IsSite.lt_capacity (h : IsSite g s) : s.node < g.nodes.capacity := by
  obtain ⟨u, hu⟩ := h.declared
  exact Graph.lt_capacity_of_declaration? hu

theorem IsSite.source_eq (hg : g.WellFormed) (h : IsSite g s) :
    s.source = ⟨s.source.node, 0⟩ := by
  obtain ⟨-, hzero⟩ := hg.index_of_producer? h.fed
  rw [← hzero]

/-- The node of a site. -/
theorem IsSite.get? (h : IsSite g s) :
    ∃ n, g.nodes.get? s.node = some n ∧ n.name = s.name ∧ n.op = .conv2d s.conv := by
  obtain ⟨u, hu⟩ := h.declared
  obtain ⟨n, hn, hd⟩ := Graph.declaration?_eq_some.1 hu
  exact ⟨n, hn, congrArg Declaration.name hd, congrArg Declaration.op hd⟩

theorem IsSite.recognize_eq (h : IsSite g s) : recognize g s.node = some s.toMatch := by
  obtain ⟨n, hn, -, hop⟩ := h.get?
  have hkind : n.kind = .conv2d := by
    show n.op.kind = _
    rw [hop]
    rfl
  have hflags : (isFlagged g s.source && isFlagged g ⟨s.node, 0⟩) = true :=
    Bool.and_eq_true_iff.2 ⟨h.sourceFlagged, h.flagged⟩
  unfold recognize
  simp only [hn, hkind, Graph.producer_eq_ok_some.2 h.fed, hflags]
  rfl

/-- What a convolution is declared with. -/
theorem declaration?_of_conv2d (hg : g.WellFormed) {id : NodeId} {n : Node}
    (hn : g.nodes.get? id = some n) (hkind : n.kind = .conv2d) :
    ∃ conv t u, g.declaration? id = some ⟨n.name, .conv2d conv, ⟨[t], [u]⟩⟩ := by
  have hd := Graph.declaration?_of_get? hn
  obtain ⟨t, ht⟩ := hg.declared id _ hd
  obtain ⟨conv, hop⟩ := Op.eq_conv2d_of_kind hkind
  have hop' : n.declaration.op = .conv2d conv := hop
  rw [hop'] at ht
  obtain ⟨u, -, hu⟩ := except_bind_eq_ok.1 ht
  refine ⟨conv, t, u, ?_⟩
  rw [hd, Except.ok.inj hu, ← hop]
  rfl

theorem site_of_recognize (hg : g.WellFormed) {id : NodeId} {m : Match}
    (h : recognize g id = some m) : ∃ s, IsSite g s ∧ s.node = id := by
  -- The tests are nested: there is a node, a convolution, with a producer, both flagged.
  unfold recognize at h
  split at h
  · cases h
  · next n hn =>
    split at h
    · next hkind =>
      split at h
      · next source hsource =>
        split at h
        · next hflags =>
          obtain ⟨hsf, hf⟩ := Bool.and_eq_true_iff.1 hflags
          obtain ⟨conv, t, u, hd⟩ := declaration?_of_conv2d hg hn hkind
          have hfed := Graph.producer_eq_ok_some.1 hsource
          exact ⟨⟨id, n.name, conv, t, source⟩, ⟨⟨u, hd⟩, hfed, hsf, hf⟩, rfl⟩
        · cases h
      · cases h
    · cases h

/-! ## Plans -/

/-- The plan for a site needs the parameters only. -/
theorem IsSite.plan_eq (hg : g.WellFormed) (h : IsSite g s) :
    ∃ sourceName, ∀ config c, plan config s.toMatch g c =
      ((Parameters.derive config s.conv c s.source s.output).mapError (.quantize s.name) >>=
        fun p => .ok ⟨s.name, sourceName, s.source, s.output, s.conv, p⟩) := by
  obtain ⟨n, hn, hname, hop⟩ := h.get?
  obtain ⟨q, hq, -⟩ := hg.outlet?_of_producer? h.fed
  obtain ⟨m, hm, -⟩ := Graph.get?_of_outlet? hq
  refine ⟨m.name, fun config c => ?_⟩
  unfold plan Site.toMatch
  simp only [List.head?_cons, Graph.node_eq_ok.2 hn, Graph.producer_eq_ok_some.2 h.fed,
    Graph.nodeAt_eq_ok.2 hm, mapError_ok, hop, hname, bind, Except.bind]
  rfl

/-! ## The new edges -/

/-- The edges of a replacement whose first new node is `base`. -/
def Site.edges (s : Site) (base : NodeId) (consumers : List InputId) :
    List (InputId × OutputId) :=
  [(⟨base + 1, 0⟩, ⟨base, 0⟩), (⟨base + 2, 0⟩, ⟨base + 1, 0⟩), (⟨base, 0⟩, s.source)] ++
    consumers.map (·, ⟨base + 2, 0⟩)

theorem Site.heads_edges (s : Site) (base : NodeId) (consumers : List InputId) :
    (s.edges base consumers).map (·.1) =
      ⟨base + 1, 0⟩ :: ⟨base + 2, 0⟩ :: ⟨base, 0⟩ :: consumers := by
  simp [edges, Function.comp_def]

/-- What the edges of a replacement make of the producers. -/
theorem Site.lookup_edges (s : Site) (base : NodeId) (consumers : List InputId) (i : InputId) :
    (s.edges base consumers).lookup i =
      if i = ⟨base + 1, 0⟩ then some ⟨base, 0⟩
      else if i = ⟨base + 2, 0⟩ then some ⟨base + 1, 0⟩
      else if i = ⟨base, 0⟩ then some s.source
      else if i ∈ consumers then some ⟨base + 2, 0⟩ else none := by
  unfold edges
  rw [List.cons_append, List.cons_append, List.cons_append, List.nil_append,
    Calibration.lookup_cons_eq, Calibration.lookup_cons_eq, Calibration.lookup_cons_eq,
    Calibration.lookup_map_pair]

theorem Site.nodup_heads (s : Site) {base : NodeId} {consumers : List InputId}
    (hold : ∀ i ∈ consumers, i.node < base) (hnodup : consumers.Nodup) :
    ((s.edges base consumers).map (·.1)).Nodup := by
  have hnew : ∀ id, base ≤ id → (⟨id, 0⟩ : InputId) ∉ consumers := fun id hid hmem =>
    absurd (hold _ hmem) (Nat.not_lt.2 hid)
  rw [s.heads_edges]
  simp [hnodup, hnew base (Nat.le_refl _), hnew _ (Nat.le_add_right base 1),
    hnew _ (Nat.le_add_right base 2)]

/-- The inputs that the edges of a replacement move to an output. -/
theorem Site.heads_at (s : Site) (base : NodeId) (consumers : List InputId) (r : OutputId) :
    ((s.edges base consumers).filter (·.2 = r)).map (·.1) =
      (if r = ⟨base, 0⟩ then [⟨base + 1, 0⟩] else []) ++
      (if r = ⟨base + 1, 0⟩ then [⟨base + 2, 0⟩] else []) ++
      (if r = s.source then [⟨base, 0⟩] else []) ++
      if r = ⟨base + 2, 0⟩ then consumers else [] := by
  have hmoved : ((consumers.map (·, (⟨base + 2, 0⟩ : OutputId))).filter (·.2 = r)).map (·.1) =
      if r = ⟨base + 2, 0⟩ then consumers else [] := by
    by_cases hr : r = ⟨base + 2, 0⟩
    · simp [hr, List.filter_map, Function.comp_def]
    · simp [hr, Ne.symm hr, List.filter_map, Function.comp_def]
  unfold edges
  rw [List.filter_append, List.map_append, hmoved]
  congr 1
  simp only [List.filter_cons, List.filter_nil, decide_eq_true_eq, eq_comm (a := r)]
  split <;> split <;> split <;> rfl

/-! ## The new nodes -/

/-- The nodes that replace a convolution: the quantiser of its operand, the convolution
on codes with results of type `v`, and the dequantiser. -/
def Site.declarations (s : Site) (p : Parameters) (sourceName : String) (v : TensorType) :
    List Declaration :=
  [⟨sourceName ++ "/quantize", .quantize p.inputCode,
      ⟨[s.operand], [s.operand.withScalar .u8]⟩⟩,
    ⟨s.name, .quantizedConv2d (p.fixedConv s.conv), ⟨[s.operand.withScalar .u8], [v]⟩⟩,
    ⟨s.name ++ "/dequantize", .dequantize p.outputCode, ⟨[v], [v.withScalar .f32]⟩⟩]

/-- The type of a site's producer is the declared type of its operand. -/
theorem IsSite.operand_eq (hg : g.WellFormed) (h : IsSite g s) {q : Outlet}
    (hq : g.outlet? s.source = some q) : q.type = s.operand := by
  obtain ⟨u, hu⟩ := h.declared
  obtain ⟨p, hp, -⟩ := Graph.producer?_eq_some.1 h.fed
  have htype := Graph.type_of_inlet? hp hu
  rw [hg.type_eq_of_producer? h.fed hp hq]
  exact (Option.some.inj htype).symm

theorem IsSite.outlet (h : IsSite g s) : ∃ q, g.outlet? s.output = some q := by
  obtain ⟨u, hu⟩ := h.declared
  obtain ⟨q, hq, -⟩ := Graph.outlet?_of_type (o := s.output) hu rfl
  exact ⟨q, hq⟩

/-- The type of a site's output is the one that the convolution computes. -/
theorem IsSite.resultType_eq (hg : g.WellFormed) (h : IsSite g s) {q : Outlet}
    (hq : g.outlet? s.output = some q) : s.conv.resultType s.operand = .ok q.type := by
  obtain ⟨u, hu⟩ := h.declared
  obtain ⟨t, ht⟩ := hg.declared s.node _ hu
  obtain ⟨v, hv, heq⟩ := except_bind_eq_ok.1 ht
  cases heq
  cases Graph.type_of_outlet? (o := s.output) hq hu
  exact hv

theorem run_carryOver {old new : OutputId} {c : Calibration} {q q' : Outlet} {b : Bounds}
    (hq : g.outlet? old = some q) (hq' : g.outlet? new = some q') (hb : c.get? old = some b)
    (log : List LogLine) :
    (carryOver old new true).run ⟨g, c, log⟩ = .ok ()
      ⟨g.modifyOutput new fun r => { r with attributes := q'.attributes.union q.attributes },
        c.insert new b, log⟩ := by
  have hcopy : c.copy old new = .ok (c.insert new b) := by
    unfold Calibration.copy
    rw [Calibration.get_eq_ok.2 hb]
    rfl
  unfold carryOver
  rw [TransformM.run_query_bind (Graph.output_eq_ok.2 hq),
    TransformM.run_query_bind (Graph.output_eq_ok.2 hq'),
    TransformM.run_edit_bind (Graph.run_setOutputAttributes hq' _), if_pos rfl, run_get_bind,
    hcopy]
  rfl

/-- The graph with the nodes of a replacement added, unconnected and without flags. -/
def Site.extend (s : Site) (p : Parameters) (sourceName : String) (v : TensorType) (g : Graph) :
    Graph :=
  (s.declarations p sourceName v).foldl (fun g d => g.append d.name d.op d.signature) g

theorem Site.extend_eq (s : Site) (p : Parameters) (sourceName : String) (v : TensorType)
    (g : Graph) : s.extend p sourceName v g =
      ((g.append (sourceName ++ "/quantize") (.quantize p.inputCode)
          ⟨[s.operand], [s.operand.withScalar .u8]⟩).append
        s.name (.quantizedConv2d (p.fixedConv s.conv)) ⟨[s.operand.withScalar .u8], [v]⟩).append
        (s.name ++ "/dequantize") (.dequantize p.outputCode) ⟨[v], [v.withScalar .f32]⟩ := rfl

theorem Site.grown_extend {p : Parameters} {v : TensorType} (hg : g.WellFormed)
    (hv : (p.fixedConv s.conv).resultType (s.operand.withScalar .u8) = .ok v)
    (sourceName : String) :
    Graph.Grown g (s.declarations p sourceName v) (s.extend p sourceName v g) := by
  have hgrown₁ := (Graph.Grown.refl hg).append (sourceName ++ "/quantize")
    (.quantize p.inputCode) (t := s.operand) rfl nofun nofun
  have hgrown₂ := hgrown₁.append s.name (.quantizedConv2d (p.fixedConv s.conv))
    (except_bind_eq_ok.2 ⟨_, hv, rfl⟩) nofun nofun
  exact hgrown₂.append (s.name ++ "/dequantize") (.dequantize p.outputCode) (t := v) rfl nofun
    nofun

theorem Site.outlet?_extend (s : Site) (p : Parameters) (sourceName : String) (v : TensorType)
    (g : Graph) : (s.extend p sourceName v g).outlet? ⟨g.nodes.capacity + 2, 0⟩ =
      some ⟨v.withScalar .f32, {}, []⟩ := by
  rw [s.extend_eq, Graph.outlet?_append, Graph.capacity_append, Graph.capacity_append, if_pos rfl]
  rfl

theorem resultType_of_outlet? {id : NodeId} {q : Outlet} (h : g.outlet? ⟨id, 0⟩ = some q) :
    resultType g id = .ok q.type := by
  obtain ⟨n, hn, hq⟩ := Graph.get?_of_outlet? h
  refine except_bind_eq_ok.2 ⟨n, Graph.nodeAt_eq_ok.2 hn, ?_⟩
  rw [hq]
  rfl

/-- The type of the second node's output, when two of the three are there. -/
theorem resultType_append (g : Graph) (name : String) (op : Op) (ts : List TensorType)
    (t : TensorType) : resultType (g.append name op ⟨ts, [t]⟩) g.nodes.capacity = .ok t := by
  have hlast : (g.append name op ⟨ts, [t]⟩).outlet? ⟨g.nodes.capacity, 0⟩ = some ⟨t, {}, []⟩ := by
    rw [Graph.outlet?_append, if_pos rfl]
    rfl
  exact resultType_of_outlet? hlast

/-- **A splice up to its edges.** The three nodes are there, and the last of them has the
flags and the range of the convolution. -/
theorem IsSite.run_splice {config : CodeLimits} {w : EngineState Calibration} {q : Outlet}
    {p : Parameters} (hg : w.graph.WellFormed) (hs : IsSite w.graph s)
    (hq : w.graph.outlet? s.output = some q)
    (hp : Parameters.derive config s.conv w.state s.source s.output = .ok p)
    (sourceName : String) :
    ∃ g₁, Graph.Grown w.graph (s.declarations p sourceName (q.type.withScalar .u8)) g₁ ∧
      g₁.outlet? ⟨w.graph.nodes.capacity + 2, 0⟩ =
        some ⟨q.type.withScalar .f32, q.attributes, []⟩ ∧
      ∃ text, (splice ⟨s.name, sourceName, s.source, s.output, s.conv, p⟩).run w =
        (((s.edges w.graph.nodes.capacity q.consumers).forM fun e =>
            TransformM.edit (Graph.connect e.1 e.2)) >>= fun _ =>
          TransformM.report .debug text).run
          ⟨g₁, w.state.insert ⟨w.graph.nodes.capacity + 2, 0⟩ p.outputBounds, w.log⟩ := by
  obtain ⟨r, hr, -⟩ := hg.outlet?_of_producer? hs.fed
  obtain ⟨⟨-, hout⟩, -⟩ := Parameters.derive_eq_ok.1 hp
  have hfixed := p.resultType_fixedConv hp (hs.resultType_eq hg hq)
  have hgrown := Site.grown_extend hg hfixed sourceName
  have hlast := s.outlet?_extend p sourceName (q.type.withScalar .u8) w.graph
  have hflagged := hgrown.flagOutput (o := ⟨w.graph.nodes.capacity + 2, 0⟩)
    (Nat.le_add_right _ _) (({} : Attributes).union q.attributes)
  refine ⟨_, hflagged, ?_, ?_⟩
  · rw [Graph.outlet?_modifyOutput, if_pos rfl, hlast]
    simp [Attributes.union, TensorType.withScalar]
  · have hconv : (Op.quantizedConv2d (p.fixedConv s.conv)).signature (s.operand.withScalar .u8) =
        .ok ⟨[s.operand.withScalar .u8], [q.type.withScalar .u8]⟩ :=
      except_bind_eq_ok.2 ⟨_, hfixed, rfl⟩
    have hkept := (hgrown.outlet (o := s.output) hs.lt_capacity).trans hq
    have hold := Graph.consumers_eq_ok.2
      ⟨q, (hflagged.outlet (o := s.output) hs.lt_capacity).trans hq, rfl⟩
    unfold splice
    rw [TransformM.run_query_bind (Graph.output_eq_ok.2 hr), hs.operand_eq hg hr,
      TransformM.run_edit_bind (Graph.run_addNode_eq_ok.2 ⟨_, rfl, rfl, rfl⟩),
      TransformM.run_edit_bind (Graph.run_addNode_eq_ok.2 ⟨_, hconv, rfl, rfl⟩)]
    rw [TransformM.run_query_bind (resultType_append ..),
      TransformM.run_edit_bind (Graph.run_addNode_eq_ok.2 ⟨_, rfl, rfl, rfl⟩), EStateM.run_bind]
    simp only [Graph.capacity_append, Nat.add_assoc, Nat.reduceAdd]
    rw [← s.extend_eq, run_carryOver hkept hlast hout]
    dsimp only
    rw [TransformM.run_query_bind hold]
    exact ⟨_, rfl⟩

/-! ## The graph afterwards -/

/-- The output `new` in place of `old`. -/
def redirect (old new o : OutputId) : OutputId := if o = old then new else o

/-- The consumers of the output `o` after a replacement whose first new node is `base`: the
output that is replaced has lost its own, and its producer also feeds the new node. -/
def regroup (old source : OutputId) (base : NodeId) (o : OutputId) (consumers : List InputId) :
    List InputId :=
  (if o = old then [] else consumers) ++ if o = source then [⟨base, 0⟩] else []

/-- The graph after the replacement of a site. -/
structure Spliced (g : Graph) (s : Site) (p : Parameters) (g' : Graph) : Prop where
  wellFormed : g'.WellFormed
  capacity : g'.nodes.capacity = g.nodes.capacity + 3
  old : ∀ id, id < g.nodes.capacity → g'.declaration? id = g.declaration? id
  new : ∃ sourceName v, v.scalar = .u8 ∧
    ∀ k, g'.declaration? (g.nodes.capacity + k) = (s.declarations p sourceName v)[k]?
  moved : ∀ i : InputId, i.node < g.nodes.capacity →
    g'.producer? i = (g.producer? i).map (redirect s.output ⟨g.nodes.capacity + 2, 0⟩)
  quantizer : g'.producer? ⟨g.nodes.capacity, 0⟩ = some s.source
  kernel : g'.producer? ⟨g.nodes.capacity + 1, 0⟩ = some ⟨g.nodes.capacity, 0⟩
  dequantizer : g'.producer? ⟨g.nodes.capacity + 2, 0⟩ = some ⟨g.nodes.capacity + 1, 0⟩
  nodeFlags : ∀ id, id < g.nodes.capacity →
    (g'.nodes.get? id).map (·.attributes) = (g.nodes.get? id).map (·.attributes)
  outlet : ∀ o, o.node < g.nodes.capacity → g'.outlet? o = (g.outlet? o).map fun q =>
    { q with consumers := regroup s.output s.source g.nodes.capacity o q.consumers }
  quantized : (g'.outlet? ⟨g.nodes.capacity, 0⟩).map (·.consumers) =
    some [⟨g.nodes.capacity + 1, 0⟩]
  convolved : (g'.outlet? ⟨g.nodes.capacity + 1, 0⟩).map (·.consumers) =
    some [⟨g.nodes.capacity + 2, 0⟩]
  result : g'.outlet? ⟨g.nodes.capacity + 2, 0⟩ = (g.outlet? s.output).map fun q =>
    { q with type := q.type.withScalar .f32 }
  inputs : g'.inputs = g.inputs
  outputs : g'.outputs = g.outputs

namespace Spliced

variable {p : Parameters} {g' : Graph} (h : Spliced g s p g')
include h

theorem flags (o : OutputId) (ho : o.node < g.nodes.capacity) :
    (g'.outlet? o).map (·.attributes) = (g.outlet? o).map (·.attributes) := by
  rw [h.outlet o ho, Option.map_map]
  rfl

/-- The last new node takes over the flags of the convolution. -/
theorem flagged (hs : isFlagged g s.output) : isFlagged g' ⟨g.nodes.capacity + 2, 0⟩ := by
  rw [isFlagged_eq] at hs ⊢
  rw [h.result, Option.map_map]
  exact hs

end Spliced

theorem IsSite.source_lt (hg : g.WellFormed) (h : IsSite g s) :
    s.source.node < g.nodes.capacity := by
  obtain ⟨r, hr, -⟩ := hg.outlet?_of_producer? h.fed
  exact Graph.lt_capacity_of_outlet? hr

section Splice

variable {p : Parameters} {sourceName : String} {q : Outlet} {g₁ : Graph} (hg : g.WellFormed)
  (hs : IsSite g s) (hq : g.outlet? s.output = some q)
  (hgrown : Graph.Grown g (s.declarations p sourceName (q.type.withScalar .u8)) g₁)
include hg hq

/-- The consumers are the inputs that the convolution feeds. -/
theorem Site.mem_consumers_iff {i : InputId} :
    i ∈ q.consumers ↔ g.producer? i = some s.output := by
  rw [hg.two_ended, hq]
  simp

theorem Site.lt_capacity_of_mem {i : InputId} (hi : i ∈ q.consumers) :
    i.node < g.nodes.capacity :=
  Graph.lt_capacity_of_producer? ((Site.mem_consumers_iff hg hq).1 hi)

/-- Of the inputs that an output feeds, exactly the convolution's are moved. -/
theorem Site.filter_heads {o : OutputId} {r : Outlet} (hr : g.outlet? o = some r) :
    r.consumers.filter (· ∉ (s.edges g.nodes.capacity q.consumers).map (·.1)) =
      if o = s.output then [] else r.consumers := by
  rw [s.heads_edges]
  by_cases ho : o = s.output
  · -- All of them are moved.
    rw [ho, hq] at hr
    cases hr
    rw [if_pos ho, List.filter_eq_nil_iff]
    intro i hi
    simp [hi]
  · -- None is: an input has one producer, and the new ones are not there yet.
    rw [if_neg ho, List.filter_eq_self]
    intro i hi
    have hp := hg.producer?_of_mem hr hi
    have hold := Graph.lt_capacity_of_producer? hp
    have hmem : i ∉ q.consumers := fun hmem => by
      rw [Site.mem_consumers_iff hg hq, hp] at hmem
      exact ho (Option.some.inj hmem)
    have hnew : ∀ k, i ≠ ⟨g.nodes.capacity + k, 0⟩ := by
      rintro k rfl
      exact absurd hold (Nat.not_lt.2 (Nat.le_add_right _ _))
    simp [hmem, hnew 1, hnew 2, show i ≠ ⟨g.nodes.capacity, 0⟩ from hnew 0]

/-- The producers of the old inputs, once the edges are set. -/
theorem Site.lookup_edges_or {i : InputId} (hi : i.node < g.nodes.capacity) :
    ((s.edges g.nodes.capacity q.consumers).lookup i).or (g.producer? i) =
      (g.producer? i).map (redirect s.output ⟨g.nodes.capacity + 2, 0⟩) := by
  have hne : ∀ id, g.nodes.capacity ≤ id → i ≠ ⟨id, 0⟩ := by
    rintro id hid rfl
    exact absurd hi (Nat.not_lt.2 hid)
  have hiff := Site.mem_consumers_iff hg hq (i := i)
  rw [s.lookup_edges, if_neg (hne _ (Nat.le_add_right _ 1)),
    if_neg (hne _ (Nat.le_add_right _ 2)), if_neg (hne _ (Nat.le_refl _))]
  by_cases hmem : i ∈ q.consumers
  · rw [if_pos hmem, hiff.1 hmem]
    simp [redirect]
  · rw [if_neg hmem, Option.none_or]
    cases hp : g.producer? i with
    | none => rfl
    | some o =>
      have ho : o ≠ s.output := fun heq => hmem (hiff.2 (by rw [hp, heq]))
      simp [redirect, ho]

/-- The consumers of an old output, once the edges are set. -/
theorem Site.fanOut_edges {o : OutputId} {r : Outlet} (hr : g.outlet? o = some r) :
    Graph.fanOut (s.edges g.nodes.capacity q.consumers) o r.consumers =
      regroup s.output s.source g.nodes.capacity o r.consumers := by
  have hne : ∀ k, o ≠ ⟨g.nodes.capacity + k, 0⟩ := by
    rintro k rfl
    exact absurd (Graph.lt_capacity_of_outlet? hr) (Nat.not_lt.2 (Nat.le_add_right _ _))
  unfold Graph.fanOut regroup
  rw [Site.filter_heads hg hq hr, s.heads_at,
    if_neg (show o ≠ ⟨g.nodes.capacity, 0⟩ from hne 0), if_neg (hne 1), if_neg (hne 2),
    List.append_nil]
  rfl

include hgrown

omit hq in
/-- None of the edges is there before it is set. -/
theorem Site.edges_new :
    ∀ e ∈ s.edges g.nodes.capacity q.consumers, g₁.producer? e.1 ≠ some e.2 := by
  intro e he hp
  rw [hgrown.producer] at hp
  obtain ⟨r, hr, -⟩ := hg.outlet?_of_producer? hp
  have hout := Graph.lt_capacity_of_outlet? hr
  have hin := Graph.lt_capacity_of_producer? hp
  -- One end of each edge is a new node.
  simp only [Site.edges, List.mem_append, List.mem_cons, List.not_mem_nil, or_false,
    List.mem_map] at he
  rcases he with (rfl | rfl | rfl) | ⟨i, -, rfl⟩
  · exact absurd hin (Nat.not_lt.2 (Nat.le_add_right _ 1))
  · exact absurd hin (Nat.not_lt.2 (Nat.le_add_right _ 2))
  · exact absurd hin (Nat.lt_irrefl _)
  · exact absurd hout (Nat.not_lt.2 (Nat.le_add_right _ 2))

omit hq in
/-- The consumers of a new output, once the edges are set, are those that were moved to it. -/
theorem Site.consumers_new
    (hjoins : ∀ e ∈ s.edges g.nodes.capacity q.consumers, g₁.Joins e.1 e.2)
    (hnodup : ((s.edges g.nodes.capacity q.consumers).map (·.1)).Nodup) (k : Nat)
    {d : Declaration} {t : TensorType}
    (hd : (s.declarations p sourceName (q.type.withScalar .u8))[k]? = some d)
    (ht : d.signature.outputs[0]? = some t) :
    ((g₁.rewire (s.edges g.nodes.capacity q.consumers)).outlet? ⟨g.nodes.capacity + k, 0⟩).map
        (·.consumers) =
      some (((s.edges g.nodes.capacity q.consumers).filter
        (·.2 = ⟨g.nodes.capacity + k, 0⟩)).map (·.1)) := by
  obtain ⟨r, hr, -⟩ := Graph.outlet?_of_type (o := ⟨g.nodes.capacity + k, 0⟩)
    ((hgrown.new k).trans hd) ht
  rw [hgrown.wellFormed.outlet?_rewire hjoins hnodup (Site.edges_new hg hgrown), hr,
    Option.map_some, Option.map_some, hgrown.unused hg (Nat.le_add_right _ k) hr]
  rfl

include hs

omit hq in
/-- The new nodes fit each other and the producer. -/
theorem IsSite.joins_new :
    ∀ e ∈ s.edges g.nodes.capacity [], g₁.Joins e.1 e.2 := by
  obtain ⟨r, hr, -⟩ := hg.outlet?_of_producer? hs.fed
  have hsource := (hgrown.outlet (hs.source_lt hg)).trans hr
  obtain ⟨p₀, hp₀, ht₀⟩ := Graph.inlet?_of_type (i := ⟨g.nodes.capacity, 0⟩) (hgrown.new 0) rfl
  obtain ⟨p₁, hp₁, ht₁⟩ := Graph.inlet?_of_type (i := ⟨_, 0⟩) (hgrown.new 1) rfl
  obtain ⟨p₂, hp₂, ht₂⟩ := Graph.inlet?_of_type (i := ⟨_, 0⟩) (hgrown.new 2) rfl
  obtain ⟨q₀, hq₀, hu₀⟩ := Graph.outlet?_of_type (o := ⟨g.nodes.capacity, 0⟩) (hgrown.new 0) rfl
  obtain ⟨q₁, hq₁, hu₁⟩ := Graph.outlet?_of_type (o := ⟨_, 0⟩) (hgrown.new 1) rfl
  simp only [Site.edges, List.map_nil, List.append_nil, List.forall_mem_cons]
  exact ⟨⟨p₁, q₀, hp₁, hq₀, hu₀.trans ht₁.symm⟩, ⟨p₂, q₁, hp₂, hq₁, hu₁.trans ht₂.symm⟩,
    ⟨p₀, r, hp₀, hsource, (hs.operand_eq hg hr).trans ht₀.symm⟩, nofun⟩

section Last

variable (hlast : g₁.outlet? ⟨g.nodes.capacity + 2, 0⟩ =
  some ⟨q.type.withScalar .f32, q.attributes, []⟩)
include hlast

/-- A consumer of the convolution takes the last node in its place if it takes numbers. -/
theorem IsSite.joins_consumer {i : InputId} (hi : i ∈ q.consumers) :
    g₁.Joins i ⟨g.nodes.capacity + 2, 0⟩ ↔ s.operand.scalar = .f32 := by
  have hp := (Site.mem_consumers_iff hg hq).1 hi
  obtain ⟨p, hin, -⟩ := Graph.producer?_eq_some.1 hp
  have htype := hg.type_eq_of_producer? hp hin hq
  have hscalar := Convolution.scalar_of_resultType (hs.resultType_eq hg hq)
  have hin₁ := (hgrown.inlet (Graph.lt_capacity_of_inlet? hin)).trans hin
  unfold Graph.Joins
  rw [hin₁, hlast]
  simp only [Option.some.injEq, exists_and_left, exists_eq_left']
  rw [← htype, ← hscalar]
  exact TensorType.withScalar_eq_self

/-- All edges can be set if the last node yields the type of the convolution, or nothing
consumes that. -/
theorem IsSite.joins_edges :
    (∀ e ∈ s.edges g.nodes.capacity q.consumers, g₁.Joins e.1 e.2) ↔
      (q.consumers ≠ [] → s.operand.scalar = .f32) := by
  have hnew := hs.joins_new hg hgrown
  constructor
  · intro h hne
    obtain ⟨i, hi⟩ := List.exists_mem_of_ne_nil _ hne
    refine (hs.joins_consumer hg hq hgrown hlast hi).1 (h (i, _) ?_)
    exact List.mem_append_right _ (List.mem_map_of_mem hi)
  · intro h e he
    rcases List.mem_append.1 he with he | he
    · exact hnew e (List.mem_append_left _ he)
    · obtain ⟨i, hi, rfl⟩ := List.mem_map.1 he
      exact (hs.joins_consumer hg hq hgrown hlast hi).2 (h (List.ne_nil_of_mem hi))

end Last

variable (hjoins : ∀ e ∈ s.edges g.nodes.capacity q.consumers, g₁.Joins e.1 e.2)
  (hlast : g₁.outlet? ⟨g.nodes.capacity + 2, 0⟩ = some ⟨q.type.withScalar .f32, q.attributes, []⟩)
include hjoins hlast

/-- **The graph after a splice.** -/
theorem IsSite.spliced : Spliced g s p (g₁.rewire (s.edges g.nodes.capacity q.consumers)) := by
  have hnodup := s.nodup_heads (fun i => Site.lt_capacity_of_mem hg hq) (hg.nodup _ q hq)
  have hrew := Graph.Rewired.rewire g₁ (s.edges g.nodes.capacity q.consumers)
  have hprod := Graph.producer?_rewire hjoins hnodup
  have hsource : ∀ k, (⟨g.nodes.capacity + k, 0⟩ : OutputId) ≠ s.source := by
    intro k heq
    have hlt := hs.source_lt hg
    rw [← heq] at hlt
    exact absurd hlt (Nat.not_lt.2 (Nat.le_add_right _ k))
  have hout := hgrown.wellFormed.outlet?_rewire hjoins hnodup (Site.edges_new hg hgrown)
  refine ⟨hgrown.wellFormed.rewire hjoins, ?capacity, ?old,
    ⟨sourceName, q.type.withScalar .u8, rfl, ?new⟩, ?moved, ?quantizer, ?kernel, ?dequantizer,
    ?nodeFlags, ?outlet, ?quantized, ?convolved, ?result, ?inputs, ?outputs⟩
  case capacity =>
    rw [hrew.capacity, hgrown.capacity]
    rfl
  case old =>
    intro id hid
    rw [hrew.declaration, hgrown.declaration hid]
  case new =>
    intro k
    rw [hrew.declaration, hgrown.new k]
  case moved =>
    intro i hi
    rw [hprod, hgrown.producer, Site.lookup_edges_or hg hq hi]
  case quantizer =>
    rw [hprod, s.lookup_edges]
    simp
  case kernel =>
    rw [hprod, s.lookup_edges]
    simp
  case dequantizer =>
    rw [hprod, s.lookup_edges]
    simp
  case nodeFlags =>
    intro id hid
    rw [hrew.nodeFlags, hgrown.old id hid]
  case outlet =>
    intro o ho
    rw [hout, hgrown.outlet ho]
    cases hr : g.outlet? o with
    | none => rfl
    | some r => rw [Option.map_some, Option.map_some, Site.fanOut_edges hg hq hr]
  case quantized =>
    have hheads := Site.consumers_new hg hgrown hjoins hnodup 0 rfl rfl
    simpa [s.heads_at, show (⟨g.nodes.capacity, 0⟩ : OutputId) ≠ s.source from hsource 0]
      using hheads
  case convolved =>
    have hheads := Site.consumers_new hg hgrown hjoins hnodup 1 rfl rfl
    simpa [s.heads_at, hsource 1] using hheads
  case result =>
    rw [hout, hlast, hq, Option.map_some, Option.map_some, Graph.fanOut, List.filter_nil,
      List.nil_append, s.heads_at]
    simp [hsource 2]
  case inputs =>
    rw [hrew.inputs, hgrown.inputs]
  case outputs =>
    rw [hrew.outputs, hgrown.outputs]

end Splice

/-! ## Applying the transform -/

theorem run_apply_of_plan {config : CodeLimits} {m : Match} {w : EngineState Calibration}
    {p : Plan} (h : plan config m w.graph w.state = .ok p) :
    ∃ log, (apply config m).run w = (splice p).run ⟨w.graph, w.state, log⟩ := by
  refine ⟨w.log ++ [⟨.debug, p.name ++ ": " ++ p.parameters.text⟩], ?_⟩
  rw [apply, run_get_bind, h]
  rfl

theorem run_apply_of_error {config : CodeLimits} {m : Match} {w : EngineState Calibration}
    {e : EngineError} (h : plan config m w.graph w.state = .error e) :
    (apply config m).run w = .error e w := by
  rw [apply, run_get_bind, h]
  rfl

section Apply

variable {config : CodeLimits} {w w' : EngineState Calibration} (hg : w.graph.WellFormed)
  (hs : IsSite w.graph s)
include hg hs

/-- Where no parameters can be derived, nothing is done. -/
theorem IsSite.run_apply_of_underivable {cause : DerivationError}
    (hp : Parameters.derive config s.conv w.state s.source s.output = .error cause) :
    (apply config s.toMatch).run w = .error (.quantize s.name cause) w := by
  obtain ⟨sourceName, hplan⟩ := hs.plan_eq hg
  specialize hplan config w.state
  rw [hp] at hplan
  exact run_apply_of_error hplan

section Derivable

variable {p : Parameters} {q : Outlet} (hq : w.graph.outlet? s.output = some q)
  (hp : Parameters.derive config s.conv w.state s.source s.output = .ok p)
include hq hp

/-- Up to its edges, a replacement with parameters goes through. -/
theorem IsSite.run_apply_eq :
    ∃ g₁ sourceName,
      Graph.Grown w.graph (s.declarations p sourceName (q.type.withScalar .u8)) g₁ ∧
      g₁.outlet? ⟨w.graph.nodes.capacity + 2, 0⟩ =
        some ⟨q.type.withScalar .f32, q.attributes, []⟩ ∧
      ∃ text log, (apply config s.toMatch).run w =
        (((s.edges w.graph.nodes.capacity q.consumers).forM fun e =>
            TransformM.edit (Graph.connect e.1 e.2)) >>= fun _ =>
          TransformM.report .debug text).run
          ⟨g₁, w.state.insert ⟨w.graph.nodes.capacity + 2, 0⟩ p.outputBounds, log⟩ := by
  obtain ⟨sourceName, hplan⟩ := hs.plan_eq hg
  specialize hplan config w.state
  rw [hp] at hplan
  obtain ⟨log, hrun⟩ := run_apply_of_plan hplan
  obtain ⟨g₁, hgrown, hlast, text, hsplice⟩ :=
    IsSite.run_splice (w := ⟨w.graph, w.state, log⟩) hg hs hq hp sourceName
  exact ⟨g₁, sourceName, hgrown, hlast, text, log, hrun.trans hsplice⟩

/-- **A replacement that succeeds.** The graph is spliced, and the new output gets the
range of the convolution's. -/
theorem IsSite.run_apply_of_fits (hfits : q.consumers ≠ [] → s.operand.scalar = .f32) :
    ∃ g' log, (apply config s.toMatch).run w =
        .ok () ⟨g', w.state.insert ⟨w.graph.nodes.capacity + 2, 0⟩ p.outputBounds, log⟩ ∧
      Spliced w.graph s p g' := by
  obtain ⟨g₁, sourceName, hgrown, hlast, text, log, hrun⟩ := hs.run_apply_eq hg hq hp
  have hjoins := (hs.joins_edges hg hq hgrown hlast).2 hfits
  have hspliced := hs.spliced hg hq hgrown hjoins hlast
  rw [EStateM.run_bind, Graph.run_forM_connect hjoins] at hrun
  dsimp only at hrun
  rw [TransformM.run_report] at hrun
  exact ⟨_, _, hrun, hspliced⟩

/-- **A replacement that fails at an edge.** Only the graph refuses. -/
theorem IsSite.run_apply_of_not_fits (hfits : ¬ (q.consumers ≠ [] → s.operand.scalar = .f32)) :
    ∃ cause w', (apply config s.toMatch).run w = .error (.graph cause) w' := by
  obtain ⟨g₁, sourceName, hgrown, hlast, text, log, hrun⟩ := hs.run_apply_eq hg hq hp
  obtain ⟨cause, w', hedges⟩ := Graph.run_forM_connect_of_not
    (mt (hs.joins_edges hg hq hgrown hlast).1 hfits)
  exact ⟨cause, w', hrun.trans (run_bind_eq_error.2 (.inl hedges))⟩

end Derivable

/-- What a replacement that succeeded was derived from, and where it ended. -/
theorem IsSite.apply_eq_ok {u : Unit} (h : (apply config s.toMatch).run w = .ok u w') :
    ∃ p, Parameters.derive config s.conv w.state s.source s.output = .ok p ∧
      Spliced w.graph s p w'.graph ∧
      w'.state = w.state.insert ⟨w.graph.nodes.capacity + 2, 0⟩ p.outputBounds := by
  obtain ⟨q, hq⟩ := hs.outlet
  cases hp : Parameters.derive config s.conv w.state s.source s.output with
  | error cause =>
    rw [hs.run_apply_of_underivable hg hp] at h
    cases h
  | ok p =>
    by_cases hfits : q.consumers ≠ [] → s.operand.scalar = .f32
    · obtain ⟨g', log, hrun, hspliced⟩ := hs.run_apply_of_fits hg hq hp hfits
      rw [hrun] at h
      cases h
      exact ⟨p, rfl, hspliced, rfl⟩
    · obtain ⟨cause, w₁, hrun⟩ := hs.run_apply_of_not_fits hg hq hp hfits
      rw [hrun] at h
      cases h

/-- A replacement fails for want of parameters, or the graph refuses. -/
theorem IsSite.apply_eq_error {e : EngineError}
    (h : (apply config s.toMatch).run w = .error e w') :
    (∃ cause, Parameters.derive config s.conv w.state s.source s.output = .error cause ∧
      e = .quantize s.name cause) ∨ ∃ cause, e = .graph cause := by
  obtain ⟨q, hq⟩ := hs.outlet
  cases hp : Parameters.derive config s.conv w.state s.source s.output with
  | error cause =>
    rw [hs.run_apply_of_underivable hg hp] at h
    cases h
    exact .inl ⟨cause, rfl, rfl⟩
  | ok p =>
    by_cases hfits : q.consumers ≠ [] → s.operand.scalar = .f32
    · obtain ⟨g', log, hrun, -⟩ := hs.run_apply_of_fits hg hq hp hfits
      rw [hrun] at h
      cases h
    · obtain ⟨cause, w₁, hrun⟩ := hs.run_apply_of_not_fits hg hq hp hfits
      rw [hrun] at h
      cases h
      exact .inr ⟨cause, rfl⟩

end Apply

end FixedPoint

end FixedNet
