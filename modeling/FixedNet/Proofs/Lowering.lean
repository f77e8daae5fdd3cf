/-
**Lowering keeps the meaning.** A lowered graph computes what the initial graph computes
when every convolution that was recognised is taken in fixed point: its operand coded,
convolved on codes and decoded. `Semantics.fixedPoint` is that reading of the initial
graph, with no reference to the nodes that lowering puts in or takes out.

Every needed node of the rewritten graph comes from a needed node of the initial graph
(`Origin`): it is that node, or one of the three that replace it. So the graph has no
new cycles and every node can run, and by induction along the edges the tensor that the
stand-in of an output carries is the one that the output carries in fixed point. Dead
nodes go last, which changes nothing of that.
-/
import FixedNet.Proofs.Rewriting
import FixedNet.Proofs.Sweeping

set_option autoImplicit false

namespace FixedNet

/-! ## Convolutions in fixed point -/

/-- A convolution in fixed point, for an operand and a result within given ranges: the
operand is coded, convolved on codes and decoded. -/
def FixedPoint.emulate (config : CodeLimits) (conv : FloatConv) (input output : Bounds)
    (x : Value) : Option Value := do
  let inputCode ← (AffineCode.ofBounds input config.bits).toOption
  let outputCode ← (AffineCode.ofBounds output config.bits).toOption
  let weights ← (WeightCodes.ofWeights conv.weights config.bits).toOption
  let bias ← (BiasCodes.ofBias conv.bias inputCode weights.code outputCode config).toOption
  let onCodes : FixedConv :=
    { weights := weights.weights, bias := bias.bias, groups := conv.groups
      vertical := conv.vertical, horizontal := conv.horizontal
      rescale :=
        { inputOffset := -inputCode.zeroPoint, weightOffset := -weights.code.zeroPoint
          multiplier := bias.multiplier, outputOffset := outputCode.zeroPoint } }
  match x with
  | .codes _ => none
  | .numbers t =>
    let operand ← Tensor4.ofTensor? (t.map inputCode.encode)
    let result ← (FixedConv.apply onCodes operand).toOption
    return .numbers (result.toTensor.map fun c => outputCode.decode c.toNat)

open FixedPoint in
/-- The nodes of a graph with every recognised convolution taken in fixed point. Its
ranges are those recorded for the output that feeds it and for its own. -/
def Semantics.fixedPoint (config : CodeLimits) (g : Graph) (c : Calibration) : Semantics :=
  fun id d x y =>
    if isLowerable g id then
      ∃ conv source input output, d.op = .conv2d conv ∧ g.producer? ⟨id, 0⟩ = some source ∧
        c.get? source = some input ∧ c.get? ⟨id, 0⟩ = some output ∧
        emulate config conv input output x = some y
    else operators id d x y

namespace FixedPoint

open FixedNet.Graph

theorem emulate_eq_some {config : CodeLimits} {conv : FloatConv} {c : Calibration}
    {source output : OutputId} {p : Parameters}
    (hp : Parameters.derive config conv c source output = .ok p) {node node' node'' : String}
    {x codes sums y : Value} (hx : (Op.quantize p.inputCode).evaluate node x = .ok codes)
    (hc : (Op.quantizedConv2d (p.fixedConv conv)).evaluate node' codes = .ok sums)
    (hy : (Op.dequantize p.outputCode).evaluate node'' sums = .ok y) :
    emulate config conv p.inputBounds p.outputBounds x = some y := by
  obtain ⟨-, hicode, hocode, hw, hb⟩ := Parameters.derive_eq_ok.1 hp
  obtain ⟨t, rfl, rfl⟩ := Op.evaluate_quantize_eq_ok.1 hx
  obtain ⟨t', operand, result, ht', hoperand, happly, rfl⟩ :=
    Op.evaluate_quantizedConv2d_eq_ok.1 hc
  obtain ⟨t'', ht'', rfl⟩ := Op.evaluate_dequantize_eq_ok.1 hy
  cases ht'
  cases ht''
  unfold emulate
  simp only [hicode, hocode, hw, hb, hoperand, Except.toOption, Option.bind_eq_bind,
    Option.bind_some]
  unfold Parameters.fixedConv at happly
  rw [happly]
  rfl

theorem fixedPoint_unique {config : CodeLimits} {g : Graph} {c : Calibration} (id : NodeId)
    (d : Declaration) (x y z : Value) (hy : Semantics.fixedPoint config g c id d x y)
    (hz : Semantics.fixedPoint config g c id d x z) : y = z := by
  unfold Semantics.fixedPoint at hy hz
  by_cases hid : isLowerable g id
  · rw [if_pos hid] at hy hz
    obtain ⟨conv, source, input, output, hop, hsource, hin, hout, hy⟩ := hy
    obtain ⟨conv', source', input', output', hop', hsource', hin', hout', hz⟩ := hz
    cases hop.symm.trans hop'
    cases hsource.symm.trans hsource'
    cases hin.symm.trans hin'
    cases hout.symm.trans hout'
    exact Option.some.inj (hy.symm.trans hz)
  · rw [if_neg hid] at hy hz
    exact Except.ok.inj (hy.symm.trans hz)

/-! ## Where the nodes of the rewritten graph come from -/

/-- A node of the rewritten graph is a node of the initial graph that was not replaced,
or one of the three that replace a node. -/
inductive Origin (rs : List Replacement) : NodeId → NodeId → Prop
  | same {x : NodeId} (hx : ∀ r ∈ rs, r.site.node ≠ x) : Origin rs x x
  | part {r : Replacement} {k : Nat} (hr : r ∈ rs) (hk : k < 3) : Origin rs (r.base + k) r.site.node

variable {config : CodeLimits} {g₀ g₁ g₂ : Graph} {c₀ c₁ : Calibration} {rs : List Replacement}
  {feed : Feed}

/-- The stand-in of a node's output comes from the node. -/
theorem origin_standIn (rs : List Replacement) (x : NodeId) :
    Origin rs (standIn rs ⟨x, 0⟩).node x := by
  rcases standIn_cases rs ⟨x, 0⟩ with ⟨r, hr, hout, heq⟩ | ⟨hnone, heq⟩
  · have hx : r.site.node = x := congrArg OutputId.node hout
    rw [heq, ← hx]
    exact .part hr (k := 2) (by decide)
  · rw [heq]
    refine .same fun r hr hx => hnone r hr ?_
    rw [Site.output, hx]

/-- The quantiser of a replacement is fed by the stand-in of what fed the convolution,
unless that was the convolution itself. -/
theorem Rewritten.producer?_quantizer (h : Rewritten g₀ rs g₁)
    (hacc : ∀ id, g₀.Needed id → Acc g₀.Feeds id) {r : Replacement} (hr : r ∈ rs)
    (hneeded : g₀.Needed r.site.node) :
    g₁.producer? ⟨r.base, 0⟩ = some (standIn rs r.site.source) := by
  refine h.quantizer r hr fun heq => ?_
  have hfed := (h.sites r hr).fed
  rw [heq] at hfed
  exact not_feeds_self (hacc _ hneeded) ⟨0, _, hfed, rfl⟩

namespace Rewritten

variable (hg₀ : g₀.WellFormed) (h : Rewritten g₀ rs g₁)
include hg₀ h

/-- A node of the initial graph is fed by the stand-in of what fed it. -/
theorem producer?_old {x : NodeId} (hx : x < g₀.nodes.capacity) {o : OutputId}
    (ho : g₁.producer? ⟨x, 0⟩ = some o) :
    ∃ y, g₀.producer? ⟨x, 0⟩ = some ⟨y, 0⟩ ∧ standIn rs ⟨y, 0⟩ = o := by
  rw [h.moved ⟨x, 0⟩ hx] at ho
  obtain ⟨⟨y, j⟩, hy, hstand⟩ := Option.map_eq_some_iff.1 ho
  obtain ⟨-, hj⟩ := hg₀.index_of_producer? hy
  cases hj
  exact ⟨y, hy, hstand⟩

theorem feeds_old {a x : NodeId} (hx : x < g₀.nodes.capacity) (hf : g₁.Feeds a x) :
    ∃ y, g₀.Feeds y x ∧ Origin rs a y := by
  obtain ⟨y, hy, hstand⟩ := h.producer?_old hg₀ hx (h.wellFormed.feeds_iff.1 hf)
  have horigin := origin_standIn rs y
  rw [hstand] at horigin
  exact ⟨y, hg₀.feeds_iff.2 hy, horigin⟩

/-- A graph output was not replaced: it is not a convolution. -/
theorem ne_of_mem_outputs {x : NodeId} (hx : x ∈ g₀.outputs) {r : Replacement} (hr : r ∈ rs) :
    r.site.node ≠ x := by
  rintro rfl
  rw [hg₀.outputs_eq] at hx
  obtain ⟨n, hn, hkind⟩ := mem_ofKind.1 hx
  obtain ⟨m, hm, -, hop⟩ := (h.sites r hr).get?
  cases hn.symm.trans hm
  rw [Node.kind, hop] at hkind
  cases hkind

variable (hacc : ∀ id, g₀.Needed id → Acc g₀.Feeds id)
include hacc

/-- What feeds a node of a replacement comes from what fed the convolution, or is the
replacement's node before it. -/
theorem feeds_part {r : Replacement} (hr : r ∈ rs) (hneeded : g₀.Needed r.site.node) {k : Nat}
    (hk : k < 3) {a : NodeId} (hf : g₁.Feeds a (r.base + k)) :
    (k = 0 ∧ ∃ y, g₀.Feeds y r.site.node ∧ Origin rs a y) ∨ ∃ j, k = j + 1 ∧ a = r.base + j := by
  have hplaced := h.placed r hr
  rw [h.wellFormed.feeds_iff] at hf
  match k, hk with
  | 0, _ =>
    have hsite := h.sites r hr
    have horigin := origin_standIn rs r.site.source.node
    rw [Nat.add_zero, h.producer?_quantizer hacc hr hneeded] at hf
    rw [← hsite.source_eq hg₀, Option.some.inj hf] at horigin
    exact .inl ⟨rfl, r.site.source.node, ⟨0, _, hsite.fed, rfl⟩, horigin⟩
  | 1, _ =>
    rw [hplaced.kernel] at hf
    exact .inr ⟨0, rfl, (congrArg OutputId.node (Option.some.inj hf)).symm⟩
  | 2, _ =>
    rw [hplaced.dequantizer] at hf
    exact .inr ⟨1, rfl, (congrArg OutputId.node (Option.some.inj hf)).symm⟩

/-- What feeds a node comes from the origin of the node or from what fed that. -/
theorem feeds_origin {a b x : NodeId} (hb : Origin rs b x) (hx : g₀.Needed x)
    (hf : g₁.Feeds a b) :
    ∃ y, (y = x ∨ g₀.Feeds y x) ∧ Origin rs a y := by
  cases hb with
  | same =>
    obtain ⟨y, hy, horigin⟩ := h.feeds_old hg₀ (hg₀.lt_capacity_of_needed hx) hf
    exact ⟨y, .inr hy, horigin⟩
  | @part r k hr hk =>
    rcases h.feeds_part hg₀ hacc hr hx hk hf with ⟨-, y, hy, horigin⟩ | ⟨j, rfl, rfl⟩
    · exact ⟨y, .inr hy, horigin⟩
    · exact ⟨_, .inl rfl, .part hr (Nat.lt_of_succ_lt hk)⟩

/-- Every needed node comes from a needed node. -/
theorem needed_origin {id : NodeId} (hid : g₁.Needed id) :
    ∃ x, Origin rs id x ∧ g₀.Needed x := by
  induction hid with
  | output hout hc =>
    rw [h.outputs] at hout
    have hkind := hout
    rw [hg₀.outputs_eq] at hkind
    obtain ⟨n, hn, -⟩ := mem_ofKind.1 hkind
    exact ⟨_, .same fun r hr => h.ne_of_mem_outputs hg₀ hout hr,
      .output hout ((Arena.contains_iff _ _).2 ⟨n, hn⟩)⟩
  | feeds _ hf ih =>
    obtain ⟨x, horigin, hx⟩ := ih
    obtain ⟨y, hy, horigin'⟩ := h.feeds_origin hg₀ hacc horigin hx hf
    rcases hy with rfl | hy
    · exact ⟨y, horigin', hx⟩
    · exact ⟨y, horigin', .feeds hx hy⟩

/-- There are no new cycles. -/
theorem acc_of_origin {id x : NodeId} (hid : Origin rs id x) (hx : g₀.Needed x) :
    Acc g₁.Feeds id := by
  -- By induction along what feeds the origin in the initial graph.
  induction hacc x hx generalizing id with
  | intro x _ ih =>
    have hback : ∀ a y, g₀.Feeds y x → Origin rs a y → Acc g₁.Feeds a := fun a y hy ha =>
      ih y hy ha (.feeds hx hy)
    cases hid with
    | same =>
      refine .intro _ fun a ha => ?_
      obtain ⟨y, hy, horigin⟩ := h.feeds_old hg₀ (hg₀.lt_capacity_of_needed hx) ha
      exact hback a y hy horigin
    | @part r k hr hk =>
      -- Within a replacement the nodes feed one another in order.
      induction k with
      | zero =>
        refine .intro _ fun a ha => ?_
        rcases h.feeds_part hg₀ hacc hr hx hk ha with ⟨-, y, hy, horigin⟩ | ⟨j, hj, -⟩
        · exact hback a y hy horigin
        · cases hj
      | succ k ihk =>
        refine .intro _ fun a ha => ?_
        rcases h.feeds_part hg₀ hacc hr hx hk ha with ⟨hzero, -⟩ | ⟨j, hj, rfl⟩
        · cases hzero
        · cases hj
          exact ihk (Nat.lt_of_succ_lt hk)

end Rewritten

/-! ## The rewritten graph evaluates -/

/-- The nodes of a replacement run if the convolution did. -/
theorem Placed.runnable {r : Replacement} (h : Placed g₁ r)
    (hp : Parameters.derive config r.site.conv c₀ r.site.source r.site.output = .ok r.parameters)
    (haccepts : (Op.conv2d r.site.conv).Accepts r.site.operand) {k : Nat} (hk : k < 3)
    {d : Declaration} (hd : g₁.declaration? (r.base + k) = some d) : d.Runnable feed := by
  obtain ⟨hscalar, channels, hchannels, hfits⟩ := haccepts
  obtain ⟨sourceName, v, hv, hdecl⟩ := h.declared
  rw [hdecl k hk] at hd
  match k, hk with
  | 0, _ =>
    cases hd
    refine ⟨nofun, fun t ht => ?_⟩
    cases List.mem_singleton.1 ht
    exact hscalar
  | 1, _ =>
    cases hd
    refine ⟨nofun, fun t ht => ?_⟩
    cases List.mem_singleton.1 ht
    exact ⟨rfl, ⟨channels, hchannels, (Parameters.fixedConv_fits_iff hp).2 hfits⟩,
      Parameters.shift_of_derive hp⟩
  | 2, _ =>
    cases hd
    refine ⟨nofun, fun t ht => ?_⟩
    cases List.mem_singleton.1 ht
    exact hv

/-- **The rewritten graph evaluates** on everything that the initial graph evaluates on. -/
theorem Rewritten.evaluable (hg₀ : g₀.WellFormed) (h : Rewritten g₀ rs g₁)
    (hrec : Recorded config g₀ c₀ rs c₁) (he : g₀.Evaluable feed) : g₁.Evaluable feed := by
  have hold : ∀ x d, g₀.Needed x → g₁.declaration? x = some d → g₀.declaration? x = some d := by
    intro x d hx hd
    rwa [h.old x (hg₀.lt_capacity_of_needed hx)] at hd
  have hpart : ∀ r ∈ rs, ∀ k, k < 3 → ∀ d, g₀.Needed r.site.node →
      g₁.declaration? (r.base + k) = some d → d.Runnable feed := by
    intro r hr k hk d hx hd
    obtain ⟨u, hu⟩ := (h.sites r hr).declared
    have haccepts := (he.runnable _ _ hx hu).accepted _ (List.mem_singleton.2 rfl)
    exact (h.placed r hr).runnable (hrec.derived r hr) haccepts hk hd
  constructor
  case acyclic =>
    intro id hid
    obtain ⟨x, horigin, hx⟩ := h.needed_origin hg₀ he.acyclic hid
    exact h.acc_of_origin hg₀ he.acyclic horigin hx
  case runnable =>
    intro id d hid hd
    obtain ⟨x, horigin, hx⟩ := h.needed_origin hg₀ he.acyclic hid
    cases horigin with
    | same => exact he.runnable id d hx (hold id d hx hd)
    | part hr hk => exact hpart _ hr _ hk d hx hd
  case connected =>
    intro id d hid hd hop
    obtain ⟨x, horigin, hx⟩ := h.needed_origin hg₀ he.acyclic hid
    cases horigin with
    | same =>
      obtain ⟨o, ho⟩ := he.connected id d hx (hold id d hx hd) hop
      refine ⟨standIn rs o, ?_⟩
      rw [h.moved ⟨id, 0⟩ (hg₀.lt_capacity_of_needed hx), ho]
      rfl
    | @part r k hr hk =>
      match k, hk with
      | 0, _ => exact ⟨_, h.producer?_quantizer he.acyclic hr hx⟩
      | 1, _ => exact ⟨_, (h.placed r hr).kernel⟩
      | 2, _ => exact ⟨_, (h.placed r hr).dequantizer⟩

/-! ## The rewritten graph computes in fixed point -/

/-- The tensor that leaves a replacement is made in fixed point from the one that enters
it. -/
theorem Placed.emulate_eq_some {r : Replacement} (h : Placed g₁ r)
    (hp : Parameters.derive config r.site.conv c₀ r.site.source r.site.output = .ok r.parameters)
    {y : Value} (hy : g₁.Carries feed .operators r.output y) :
    ∃ o x, g₁.producer? ⟨r.base, 0⟩ = some o ∧ g₁.Carries feed .operators o x ∧
      emulate config r.site.conv r.parameters.inputBounds r.parameters.outputBounds x =
        some y := by
  obtain ⟨sourceName, v, -, hdecl⟩ := h.declared
  obtain ⟨o₂, sums, ho₂, hsums, hy⟩ := hy.of_operator (hdecl 2 (by decide)) nofun
  cases h.dequantizer.symm.trans ho₂
  obtain ⟨o₁, codes, ho₁, hcodes, hsums⟩ := hsums.of_operator (hdecl 1 (by decide)) nofun
  cases h.kernel.symm.trans ho₁
  obtain ⟨o, x, ho, hx, hcodes⟩ := hcodes.of_operator (hdecl 0 (by decide)) nofun
  exact ⟨o, x, ho, hx, FixedPoint.emulate_eq_some hp hcodes hsums hy⟩

section Carries

variable (h : Rewritten g₀ rs g₁) {x : NodeId} (hx : g₀.Needed x) {v : Value}
  (hback : ∀ o y, g₀.producer? ⟨x, 0⟩ = some o → g₁.Carries feed .operators (standIn rs o) y →
    g₀.Carries feed (.fixedPoint config g₀ c₀) o y)
include h hx hback

/-- One step along the edges, to a node that was kept. -/
theorem Rewritten.carries_kept (hg₀ : g₀.WellFormed) (hnot : ¬ isLowerable g₀ x)
    (hv : g₁.Carries feed .operators ⟨x, 0⟩ v) :
    g₀.Carries feed (.fixedPoint config g₀ c₀) ⟨x, 0⟩ v := by
  have hlt := hg₀.lt_capacity_of_needed hx
  cases hv with
  | fed hd hop ht =>
    rw [h.old x hlt] at hd
    exact .fed hd hop ht
  | computed hd hin hout ho hcarried hy =>
    rw [h.old x hlt] at hd
    obtain ⟨y, hsource, rfl⟩ := h.producer?_old hg₀ hlt ho
    refine .computed hd hin hout hsource (hback _ _ hsource hcarried) ?_
    rw [Semantics.fixedPoint, if_neg hnot]
    exact hy

/-- One step along the edges, to a node that was replaced. -/
theorem Rewritten.carries_replaced (hrec : Recorded config g₀ c₀ rs c₁)
    (hacc : ∀ id, g₀.Needed id → Acc g₀.Feeds id) (hlow : isLowerable g₀ x) {r : Replacement}
    (hr : r ∈ rs) (hnode : r.site.node = x) (hv : g₁.Carries feed .operators r.output v) :
    g₀.Carries feed (.fixedPoint config g₀ c₀) ⟨x, 0⟩ v := by
  subst hnode
  have hp := hrec.derived r hr
  have hsource := (h.sites r hr).fed
  obtain ⟨⟨hin, hout⟩, -⟩ := Parameters.derive_eq_ok.1 hp
  obtain ⟨u, hu⟩ := (h.sites r hr).declared
  obtain ⟨o, x, ho, hcarried, hemulated⟩ := (h.placed r hr).emulate_eq_some hp hv
  cases (h.producer?_quantizer hacc hr hx).symm.trans ho
  refine .computed hu nofun nofun hsource (hback _ x hsource hcarried) ?_
  rw [Semantics.fixedPoint, if_pos hlow]
  exact ⟨_, _, _, _, rfl, hsource, hin, hout, hemulated⟩

end Carries

/-- **Stand-ins carry the tensors of what they stand for**, in fixed point, if of the needed
nodes exactly those were replaced that are recognised. -/
theorem Rewritten.carries_standIn (hg₀ : g₀.WellFormed) (h : Rewritten g₀ rs g₁)
    (hrec : Recorded config g₀ c₀ rs c₁)
    (hlow : ∀ x, g₀.Needed x → (isLowerable g₀ x ↔ ∃ r ∈ rs, r.site.node = x))
    (hacc : ∀ id, g₀.Needed id → Acc g₀.Feeds id) {x : NodeId} (hx : g₀.Needed x) {v : Value}
    (hv : g₁.Carries feed .operators (standIn rs ⟨x, 0⟩) v) :
    g₀.Carries feed (.fixedPoint config g₀ c₀) ⟨x, 0⟩ v := by
  -- By induction along what feeds a node of the initial graph, which is not on a cycle.
  induction hacc x hx generalizing v with
  | intro x _ ih =>
    have hback : ∀ o y, g₀.producer? ⟨x, 0⟩ = some o →
        g₁.Carries feed .operators (standIn rs o) y →
        g₀.Carries feed (.fixedPoint config g₀ c₀) o y := by
      rintro ⟨node, index⟩ y ho hy
      obtain ⟨-, hzero⟩ := hg₀.index_of_producer? ho
      cases hzero
      have hf := hg₀.feeds_iff.2 ho
      exact ih node hf (.feeds hx hf) hy
    rcases standIn_cases rs ⟨x, 0⟩ with ⟨r, hr, hout, heq⟩ | ⟨hnone, heq⟩
    · rw [heq] at hv
      have hnode : r.site.node = x := congrArg OutputId.node hout
      exact h.carries_replaced hx hback hrec hacc ((hlow x hx).2 ⟨r, hr, hnode⟩) hr hnode hv
    · rw [heq] at hv
      refine h.carries_kept hx hback hg₀ (fun hl => ?_) hv
      obtain ⟨r, hr, rfl⟩ := (hlow x hx).1 hl
      exact hnone r hr rfl

theorem Rewritten.carries (hg₀ : g₀.WellFormed) (h : Rewritten g₀ rs g₁)
    (hrec : Recorded config g₀ c₀ rs c₁)
    (hsites : rs.map (·.site.node) = g₀.ids.filter (isLowerable g₀))
    (hacc : ∀ id, g₀.Needed id → Acc g₀.Feeds id) {x : NodeId} (hx : g₀.Needed x) {v : Value}
    (hv : g₁.Carries feed .operators (standIn rs ⟨x, 0⟩) v) :
    g₀.Carries feed (.fixedPoint config g₀ c₀) ⟨x, 0⟩ v := by
  refine h.carries_standIn hg₀ hrec (fun x hx => ?_) hacc hx hv
  rw [← List.mem_map, hsites, List.mem_filter]
  exact ⟨fun hl => ⟨Arena.mem_handles.2 (hg₀.contains_of_needed hx), hl⟩, And.right⟩

theorem Rewritten.delivers_eq (hg₀ : g₀.WellFormed) (h : Rewritten g₀ rs g₁) (name : String)
    (id : NodeId) : g₁.delivers name id = g₀.delivers name id := by
  by_cases hid : id < g₀.nodes.capacity
  · rw [delivers, h.old id hid]
    rfl
  · rw [Bool.eq_iff_iff]
    constructor
    · -- The designated nodes are those of the initial graph, so none is new.
      intro hd
      have hmem := (h.wellFormed.needed_of_delivers hd).1
      rw [h.outputs, hg₀.outputs_eq] at hmem
      obtain ⟨n, hn, -⟩ := mem_ofKind.1 hmem
      exact absurd (Arena.lt_capacity_of_get? hn) hid
    · intro hd
      obtain ⟨d, hd, -⟩ := (Option.any_eq_true _ _).1 hd
      exact absurd (lt_capacity_of_declaration? hd) hid

/-! ## The whole lowering -/

section Lower

variable {w w' : EngineState Calibration} {report : Engine.Report}

/-- A lowering that succeeds is a run of the engine and a sweep. -/
theorem lower_parts (hg : w.graph.WellFormed) (hrun : (lower config).run w = .ok report w') :
    ∃ rs w₁ s, rs.map (·.site.node) = w.graph.ids.filter (isLowerable w.graph) ∧
      Reached config w.graph w.state rs w₁ ∧ DeadNodes.sweep w₁.graph = .ok s ∧
      w'.graph = s.graph := by
  obtain ⟨report₁, w₁, hengine, h₁⟩ := run_bind_eq_ok.1 hrun
  obtain ⟨rs, hsites, -, hreached⟩ := run_eq_ok hg hengine
  obtain ⟨s, hs, -⟩ := hreached.graph.wellFormed.sweep_ok
  obtain ⟨w₂, w₃, hget, h₂⟩ := run_bind_eq_ok.1 h₁
  cases hget
  dsimp only at h₂
  rw [hs] at h₂
  cases h₂
  exact ⟨rs, w₁, s, hsites, hreached, hs, rfl⟩

/-- What the sweep leaves computes the same. -/
theorem lower_eq_ok (hg : w.graph.WellFormed) (hrun : (lower config).run w = .ok report w') :
    ∃ rs w₁, rs.map (·.site.node) = w.graph.ids.filter (isLowerable w.graph) ∧
      Reached config w.graph w.state rs w₁ ∧ w₁.graph.Pruned w'.graph := by
  obtain ⟨rs, w₁, s, hsites, hreached, hs, hgraph⟩ := lower_parts hg hrun
  have hpruned := hreached.graph.wellFormed.pruned_of_sweep hs
  exact ⟨rs, w₁, hsites, hreached, hgraph ▸ hpruned⟩

/-- The sweep never fails, and keeps what is needed. -/
theorem lower_of_run (hg₀ : g₀.WellFormed) {log : List LogLine} {w₁ : EngineState Calibration}
    (hengine : (Engine.run [transform config]).run ⟨g₀, c₀, log⟩ = .ok report w₁) :
    ∃ w', (lower config).run ⟨g₀, c₀, log⟩ = .ok report w' ∧ w₁.graph.Pruned w'.graph := by
  obtain ⟨rs, -, -, hreached⟩ := run_eq_ok (w := ⟨g₀, c₀, log⟩) hg₀ hengine
  obtain ⟨s, hs, hpruned⟩ := hreached.graph.wellFormed.sweep_ok
  refine ⟨{ w₁ with graph := s.graph, log := w₁.log ++ s.log }, ?_, hpruned⟩
  refine run_bind_eq_ok.2 ⟨report, w₁, hengine, run_bind_eq_ok.2 ⟨w₁, w₁, rfl, ?_⟩⟩
  dsimp only
  rw [hs]
  rfl

theorem lower_ok (hg₀ : g₀.WellFormed) {log : List LogLine} {w₁ : EngineState Calibration}
    (hengine : (Engine.run [transform config]).run ⟨g₀, c₀, log⟩ = .ok report w₁) :
    ∃ w', (lower config).run ⟨g₀, c₀, log⟩ = .ok report w' := by
  obtain ⟨w', hw', -⟩ := lower_of_run hg₀ hengine
  exact ⟨w', hw'⟩

end Lower

section Outputs

variable {name : String} {id : NodeId}

/-- Graph outputs keep their declarations. -/
theorem declaration?_of_delivers (hg₀ : g₀.WellFormed) (h : Rewritten g₀ rs g₁)
    (hpruned : g₁.Pruned g₂) (hid : g₀.delivers name id) :
    g₂.declaration? id = g₀.declaration? id := by
  have hlt := hg₀.lt_capacity_of_needed (hg₀.needed_of_delivers hid).2
  rw [← h.delivers_eq hg₀] at hid
  rw [hpruned.kept id (h.wellFormed.needed_of_delivers hid).2, h.old id hlt]

/-- Graph outputs deliver what fed them carries in fixed point. -/
theorem carries_of_delivers (hg₀ : g₀.WellFormed) (h : Rewritten g₀ rs g₁)
    (hrec : Recorded config g₀ c₀ rs c₁)
    (hsites : rs.map (·.site.node) = g₀.ids.filter (isLowerable g₀))
    (hacc : ∀ id, g₀.Needed id → Acc g₀.Feeds id) (hpruned : g₁.Pruned g₂)
    (hid : g₀.delivers name id) {o : OutputId} (ho : g₂.producer? ⟨id, 0⟩ = some o) {v : Value}
    (hv : g₂.Carries feed .operators o v) :
    ∃ o₀, g₀.producer? ⟨id, 0⟩ = some o₀ ∧
      g₀.Carries feed (.fixedPoint config g₀ c₀) o₀ v := by
  -- Back over the sweep first, then over the replacements.
  have hneeded := (hg₀.needed_of_delivers hid).2
  rw [← h.delivers_eq hg₀] at hid
  have hneeded₁ := (h.wellFormed.needed_of_delivers hid).2
  rw [hpruned.producer _ hneeded₁] at ho
  have hv₁ := hpruned.carries hv (.feeds hneeded₁ ⟨0, o, ho, rfl⟩)
  obtain ⟨y, hy, rfl⟩ := h.producer?_old hg₀ (hg₀.lt_capacity_of_needed hneeded) ho
  exact ⟨_, hy, h.carries hg₀ hrec hsites hacc (.feeds hneeded (hg₀.feeds_iff.2 hy)) hv₁⟩

end Outputs

/-- The tensor of a graph output has the shape of the output's declared type. -/
theorem shape_of_yields {g : Graph} (hg : g.WellFormed) {id : NodeId} {o : OutputId} {v : Value}
    (ho : g.producer? ⟨id, 0⟩ = some o) (hv : g.Yields feed o v) {d : Declaration}
    (hd : g.declaration? id = some d) :
    (d.signature.inputs[0]?).map (·.shape) = some v.toNumbers.shape := by
  obtain ⟨p, hp, -⟩ := producer?_eq_some.1 ho
  obtain ⟨-, q, hq, htype⟩ := hv
  rw [type_of_inlet? hp hd, Option.map_some, v.shape_toNumbers, htype,
    hg.type_eq_of_producer? ho hp hq]

end FixedPoint

open FixedPoint in
/-- **Lowering keeps the meaning.** Take a graph built by any sequence of operations whose
graph outputs have different names, any table of ranges and any limits. If the graph is
lowered, then on everything on which the graph runs the lowered graph runs, with outputs
of the same names and shapes. Each of them is the one tensor that the initial graph
carries to the output when every recognised convolution is taken in fixed point. -/
theorem lowering_refines (cs : List Command) (c : Calibration) (config : CodeLimits)
    (log : List LogLine)
    (hnames : ∀ a b n m, (build cs).node a = .ok n → (build cs).node b = .ok m →
      n.op = .output → m.op = .output → n.name = m.name → a = b)
    {report : Engine.Report} {w : EngineState Calibration}
    (hlower : (lower config).run ⟨build cs, c, log⟩ = .ok report w)
    {feed : Feed} {outs : List (String × Tensor Single)}
    (hrun : (build cs).run feed = .ok outs) :
    ∃ outs', w.graph.run feed = .ok outs' ∧
      (∀ name, (outs'.lookup name).map (·.shape) = (outs.lookup name).map (·.shape)) ∧
      ∀ id n, (build cs).node id = .ok n → n.op = .output →
        ∃ o v, (build cs).producer ⟨id, 0⟩ = .ok (some o) ∧
          (∀ x, (build cs).Carries feed (.fixedPoint config (build cs) c) o x ↔ x = v) ∧
          outs'.lookup n.name = some v.toNumbers := by
  have hg := wellFormed_build cs
  obtain ⟨e, he, rfl⟩ := Graph.run_eq_ok.1 hrun
  obtain ⟨rs, w₁, hsites, hreached, hpruned⟩ := lower_eq_ok (w := ⟨build cs, c, log⟩) hg hlower
  have hrw := hreached.graph
  have heval := hg.trace_ok_iff_evaluable.1 ⟨e, he⟩
  have heval' := hpruned.evaluable (hrw.evaluable hg hreached.table heval)
  obtain ⟨e', he'⟩ := hpruned.wellFormed.trace_ok_iff_evaluable.2 heval'
  -- The graph outputs are the same before and after, and a name stands for one of them.
  have hdelivers : ∀ name id, w.graph.delivers name id = (build cs).delivers name id :=
    fun name id => (hpruned.delivers_eq hrw.wellFormed name id).trans (hrw.delivers_eq hg name id)
  have honly : ∀ name a b, (build cs).delivers name a → (build cs).delivers name b → a = b := by
    intro name a b ha hb
    obtain ⟨n, hn, hop, hname⟩ := Graph.delivers_iff_node.1 ha
    obtain ⟨m, hm, hop', hname'⟩ := Graph.delivers_iff_node.1 hb
    exact hnames a b n m hn hm hop hop' (hname.trans hname'.symm)
  have hafter : ∀ name id, (build cs).delivers name id → ∃ o v,
      w.graph.producer? ⟨id, 0⟩ = some o ∧ w.graph.Yields feed o v ∧
        e'.output? name = some v.toNumbers := by
    intro name id hid
    refine hpruned.wellFormed.output?_of_delivers he' (hdelivers name id ▸ hid) fun x hx => ?_
    exact honly name x id (hdelivers name x ▸ hx) hid
  refine ⟨e'.outputs, Graph.run_eq_ok.2 ⟨e', he', rfl⟩, fun name => ?_, fun id n hn hop => ?_⟩
  · show (e'.output? name).map _ = (e.output? name).map _
    by_cases hname : ∃ id, (build cs).delivers name id
    · obtain ⟨id, hid⟩ := hname
      obtain ⟨d, hd, -⟩ := (Option.any_eq_true _ _).1 hid
      have hd' := (declaration?_of_delivers hg hrw hpruned hid).trans hd
      obtain ⟨o, v, ho, hv, hout⟩ :=
        hg.output?_of_delivers he hid fun x hx => honly name x id hx hid
      obtain ⟨o', v', ho', hv', hout'⟩ := hafter name id hid
      rw [hout, hout', Option.map_some, Option.map_some, ← shape_of_yields hg ho hv hd,
        ← shape_of_yields hpruned.wellFormed ho' hv' hd']
    · have hnone : ∀ id, ¬ (build cs).delivers name id := fun id hid => hname ⟨id, hid⟩
      rw [hg.output?_of_not_delivers he hnone, hpruned.wellFormed.output?_of_not_delivers he'
        fun id hid => hnone id (hdelivers name id ▸ hid)]
  · have hid := Graph.delivers_iff_node.2 ⟨n, hn, hop, rfl⟩
    obtain ⟨o', v, ho', hv, hout⟩ := hafter n.name id hid
    obtain ⟨o, ho, hcarried⟩ := carries_of_delivers hg hrw hreached.table hsites heval.acyclic
      hpruned hid ho' hv.1
    refine ⟨o, v, Graph.producer_eq_ok_some.2 ho, fun x => ⟨fun hx => ?_, ?_⟩, hout⟩
    · exact hx.unique fixedPoint_unique hcarried
    · rintro rfl
      exact hcarried

section ReversedChain

open FixedPoint

/-- The nodes of the chain. -/
theorem declaration?_reversedChain :
    let t : TensorType := ⟨.f32, [1, 1, 1, 1]⟩
    (build reversedChain).declaration? 0 = some ⟨"x", .input, ⟨[], [t]⟩⟩ ∧
      (build reversedChain).declaration? 1 = some ⟨"second", .conv2d increment, ⟨[t], [t]⟩⟩ ∧
      (build reversedChain).declaration? 2 = some ⟨"first", .conv2d increment, ⟨[t], [t]⟩⟩ ∧
      (build reversedChain).declaration? 3 = some ⟨"y", .output, ⟨[t], []⟩⟩ := by
  decide +kernel

/-- The edges of the chain. -/
theorem producer?_reversedChain :
    (build reversedChain).producer? ⟨1, 0⟩ = some ⟨2, 0⟩ ∧
      (build reversedChain).producer? ⟨2, 0⟩ = some ⟨0, 0⟩ ∧
      (build reversedChain).producer? ⟨3, 0⟩ = some ⟨1, 0⟩ := by
  decide +kernel

/-- The chain runs on one number. -/
theorem evaluable_reversedChain (feed : Feed) {x : Tensor Single}
    (hfeed : feed "x" = some x) (hshape : x.shape = [1, 1, 1, 1]) :
    (build reversedChain).Evaluable feed := by
  have hedges : ∀ b ∈ (build reversedChain).ids, ∀ a ∈ (build reversedChain).feeders b,
      (fun id => [0, 2, 1, 3].getD id 0) a < (fun id => [0, 2, 1, 3].getD id 0) b := by
    decide +kernel
  obtain ⟨hx, hsecond, hfirst, hy⟩ := declaration?_reversedChain
  obtain ⟨hsecond', hfirst', hy'⟩ := producer?_reversedChain
  have hall : ∀ id d, (build reversedChain).declaration? id = some d → d.Runnable feed ∧
      (d.op ≠ .input → ∃ o, (build reversedChain).producer? ⟨id, 0⟩ = some o) := by
    have hconv : ∀ name, Declaration.Runnable
        ⟨name, .conv2d increment, ⟨[⟨.f32, [1, 1, 1, 1]⟩], [⟨.f32, [1, 1, 1, 1]⟩]⟩⟩ feed := by
      refine fun name => ⟨nofun, fun u hu => ?_⟩
      cases List.mem_singleton.1 hu
      exact ⟨rfl, 1, rfl, by decide, by decide, by decide, rfl, rfl⟩
    intro id d hd
    have hcases : ∀ k : Nat, k < 4 → k = 0 ∨ k = 1 ∨ k = 2 ∨ k = 3 := by omega
    have hcapacity : (build reversedChain).nodes.capacity = 4 := by decide +kernel
    rcases hcases id (hcapacity ▸ Graph.lt_capacity_of_declaration? hd) with rfl | rfl | rfl | rfl
    · cases hx.symm.trans hd
      refine ⟨⟨fun _ u hu => ?_, nofun⟩, fun h => absurd rfl h⟩
      cases List.mem_singleton.1 hu
      exact ⟨rfl, x, hfeed, hshape⟩
    · cases hsecond.symm.trans hd
      exact ⟨hconv _, fun _ => ⟨_, hsecond'⟩⟩
    · cases hfirst.symm.trans hd
      exact ⟨hconv _, fun _ => ⟨_, hfirst'⟩⟩
    · cases hy.symm.trans hd
      exact ⟨⟨nofun, fun _ _ => trivial⟩, fun _ => ⟨_, hy'⟩⟩
  exact ⟨fun id _ => Graph.acc_of_rank _ hedges id, fun id d _ hd => (hall id d hd).1,
    fun id d _ hd => (hall id d hd).2⟩

/-- The chain is lowered, runs before and after, and then delivers the tensor that its
second convolution carries in fixed point. -/
theorem lowering_refines_reversedChain : ∃ report w outs outs' v,
    let feed : Feed := fun _ => some ⟨[1, 1, 1, 1], #[.ofInt 1], rfl⟩
    (lower {}).run ⟨build reversedChain, chainRanges, []⟩ = .ok report w ∧
      (build reversedChain).run feed = .ok outs ∧ w.graph.run feed = .ok outs' ∧
      (build reversedChain).Carries feed (.fixedPoint {} (build reversedChain) chainRanges)
        ⟨1, 0⟩ v ∧ outs'.lookup "y" = some v.toNumbers := by
  have hg := wellFormed_build reversedChain
  obtain ⟨report, w₁, hengine⟩ := run_reversedChain
  obtain ⟨w, hlower⟩ := lower_ok hg hengine
  obtain ⟨e, he⟩ := hg.trace_ok_iff_evaluable.2
    (evaluable_reversedChain (fun _ => some ⟨[1, 1, 1, 1], #[.ofInt 1], rfl⟩) rfl rfl)
  have hrun := Graph.run_eq_ok.2 ⟨e, he, rfl⟩
  have honly : (build reversedChain).ofKind .output = [3] := by decide +kernel
  have hnames : ∀ a n, (build reversedChain).node a = .ok n → n.op = .output → a = 3 := by
    intro a n hn hop
    have hmem : a ∈ (build reversedChain).ofKind .output :=
      Graph.mem_ofKind.2 ⟨n, Graph.node_eq_ok.1 hn, congrArg Op.kind hop⟩
    rw [honly] at hmem
    exact List.mem_singleton.1 hmem
  obtain ⟨outs', hrun', -, hall⟩ := lowering_refines reversedChain chainRanges {} []
    (fun a b n m hn hm hop hop' _ => (hnames a n hn hop).trans (hnames b m hm hop').symm)
    hlower hrun
  obtain ⟨-, -, -, hy⟩ := declaration?_reversedChain
  obtain ⟨-, -, hy'⟩ := producer?_reversedChain
  obtain ⟨n, hn, hd⟩ := Graph.declaration?_eq_some.1 hy
  obtain ⟨o, v, ho, hv, hout⟩ := hall 3 n (Graph.node_eq_ok.2 hn) (congrArg Declaration.op hd)
  cases hy'.symm.trans (Graph.producer_eq_ok_some.1 ho)
  have hname : n.name = "y" := congrArg Declaration.name hd
  rw [hname] at hout
  exact ⟨report, w, e.outputs, outs', v, hlower, hrun, hrun', (hv v).2 rfl, hout⟩

end ReversedChain

end FixedNet
