/-
**Ranges for what is lowered.** A graph is marked, evaluated to record a range at every
connector that carries numbers, and lowered with these ranges. Three walks over the graph
meet here. Marking and lowering go through all nodes that there are; an evaluation goes
through the nodes that an output of the graph needs.

So the ranges suffice for every convolution that is needed, and for no other one. A
convolution that something feeds and that is not needed is marked and found, and the range
of its result is in no table that an evaluation fills. Lowering never succeeds on such a
graph, and it stops for want of a range at such convolutions only.
-/
import FixedNet.Proofs.Completeness
import FixedNet.Proofs.Equations

set_option autoImplicit false

namespace FixedNet

open FixedNet.Graph FixedNet.FixedPoint

/-! ## Recording -/

theorem Calibration.record_eq_ok (c : Calibration) (o : OutputId) {values : List Single}
    (h : values ≠ []) : ∃ b, c.record o values = .ok (c.insert o b) := by
  cases values with
  | nil => exact absurd rfl h
  | cons v vs => exact ⟨_, rfl⟩

/-- Tensors of numbers that are not empty are recorded, each at its connector, and nothing
else is. -/
theorem Calibration.observe_eq {vs : List (OutputId × Value)}
    (h : ∀ o t, (o, Value.numbers t) ∈ vs → t.data.size ≠ 0) (c : Calibration) :
    ∃ c', c.observe vs = (c', none) ∧ ∀ o, (∃ b, c'.get? o = some b) ↔
      (∃ b, c.get? o = some b) ∨ ∃ t, (o, Value.numbers t) ∈ vs := by
  induction vs generalizing c with
  | nil => exact ⟨c, rfl, by simp⟩
  | cons v vs ih =>
    obtain ⟨k, v⟩ := v
    -- A tensor of codes is passed over; one of numbers is recorded and leaves the rest alone.
    have hrest : ∀ o t, (o, Value.numbers t) ∈ vs → t.data.size ≠ 0 :=
      fun o t ht => h o t (List.mem_cons_of_mem _ ht)
    cases v with
    | codes t =>
      obtain ⟨c', hc', hiff⟩ := ih hrest c
      refine ⟨c', hc', fun o => (hiff o).trans ?_⟩
      simp
    | numbers t =>
      have hsize : t.data.toList ≠ [] := by
        intro hnil
        exact h k t (List.mem_cons_self ..) (by simpa using hnil)
      obtain ⟨b, hb⟩ := c.record_eq_ok k hsize
      obtain ⟨c', hc', hiff⟩ := ih hrest (c.insert k b)
      refine ⟨c', ?_, fun o => (hiff o).trans ?_⟩
      · rw [Calibration.observe, hb]
        exact hc'
      · rw [Calibration.get?_insert]
        by_cases ho : o = k
        · simp [ho]
        · simp [ho]

/-! ## Convolutions that are needed, and others -/

/-- Marking does not change what a graph computes. -/
theorem Region.trace_mark (r : Region) {g : Graph} (hg : g.WellFormed) (feed : Feed) :
    (r.mark g).graph.trace feed = g.trace feed :=
  have hmark := Reflagged.mark r g
  hg.trace_congr (r.topologicalOrder_mark hg)
    (fun id _ => ⟨hmark.declaration id, hmark.producer ⟨id, 0⟩⟩) feed

/-- A convolution that something feeds, and that no output of the graph needs. -/
def Graph.Dangles (g : Graph) (id : NodeId) (source : OutputId) : Prop :=
  (∃ n, g.node id = .ok n ∧ n.kind = .conv2d) ∧ g.producer ⟨id, 0⟩ = .ok (some source) ∧
    ∃ live, g.reachable = .ok live ∧ id ∉ live

section Evaluated

variable {g : Graph} {feed : Feed} {e : Evaluation} (hg : g.WellFormed)
  (he : g.trace feed = .ok e) {id : NodeId} {n : Node} (hn : g.nodes.get? id = some n)
  (hkind : n.kind = .conv2d)
include hg he hn hkind

/-- A convolution that is needed takes numbers and yields numbers. -/
theorem Graph.WellFormed.numbers_of_needed (hid : g.Needed id) {o : OutputId}
    (ho : g.producer? ⟨id, 0⟩ = some o) :
    ∃ x y, (o, Value.numbers x) ∈ e.values ∧ (⟨id, 0⟩, Value.numbers y) ∈ e.values := by
  obtain ⟨order, horder, hc⟩ := hg.computed_of_trace he
  obtain ⟨-, -, hmem⟩ := hg.topologicalOrder_eq_ok horder
  have hsolves : g.Solves feed order order e.value? e.output? := hc.solves hg hmem hmem
  have hin : n.op ≠ .input := by
    intro hop
    rw [Node.kind, hop] at hkind
    cases hkind
  have hout : n.op ≠ .output := by
    intro hop
    rw [Node.kind, hop] at hkind
    cases hkind
  obtain ⟨o', x, y, ho', hx, hcomputes, hy⟩ :=
    hsolves.computed id ((hmem id).2 hid) n (node_eq_ok.2 hn) hin hout
  cases ho.symm.trans (producer_eq_ok_some.1 ho')
  have hlisted : ∀ {o v}, e.value? o = some v → (o, v) ∈ e.values := by
    intro o v hv
    obtain ⟨l, r, hl, -⟩ := List.lookup_eq_some_iff.1 hv
    simp [hl]
  cases hop : n.op with
  | conv2d c =>
    rw [hop] at hcomputes
    cases hcomputes with
    | conv2d => exact ⟨_, _, hlisted hx, hlisted hy⟩
  | _ =>
    rw [Node.kind, hop] at hkind
    cases hkind

end Evaluated

/-- No tensor is computed for a node that is not needed. -/
theorem Graph.WellFormed.needed_of_value {g : Graph} {feed : Feed} {e : Evaluation}
    (hg : g.WellFormed) (he : g.trace feed = .ok e) {o : OutputId} {v : Value}
    (ho : (o, v) ∈ e.values) : g.Needed o.node := by
  obtain ⟨order, horder, hc⟩ := hg.computed_of_trace he
  obtain ⟨-, -, hmem⟩ := hg.topologicalOrder_eq_ok horder
  exact (hmem _).1 ((hc.mem_keys hg).1 (List.mem_map.2 ⟨(o, v), ho, rfl⟩)).1

theorem Graph.WellFormed.dangles_iff {g : Graph} (hg : g.WellFormed) {id : NodeId}
    {source : OutputId} : g.Dangles id source ↔
      (∃ n, g.nodes.get? id = some n ∧ n.kind = .conv2d) ∧ g.producer? ⟨id, 0⟩ = some source ∧
        ¬ g.Needed id := by
  obtain ⟨live, hlive, -, hmem⟩ := hg.reachable_ok
  unfold Dangles
  rw [producer_eq_ok_some]
  simp only [node_eq_ok, hlive, Except.ok.injEq, exists_eq_left', hmem]

/-! ## Lowering with the ranges of an evaluation -/

/-- The errors of a lowering are those of the engine's run. -/
theorem FixedPoint.blames_of_lower {config : CodeLimits} {w w' : EngineState Calibration}
    {e : EngineError} (hg : w.graph.WellFormed) (hrun : (lower config).run w = .error e w') :
    Blames w.graph w.state e := by
  rcases run_bind_eq_error.1 hrun with hengine | ⟨report, w₁, -, h₁⟩
  · exact run_eq_error hg hengine
  · rcases run_bind_eq_error.1 h₁ with hget | ⟨w₂, w₃, hget, h₂⟩
    · cases hget
    · cases hget
      -- All that is left is the sweep, and it can only fail by the graph.
      refine .inl ?_
      cases hs : DeadNodes.sweep w₁.graph with
      | ok s =>
        rw [hs] at h₂
        cases h₂
      | error cause =>
        rw [hs] at h₂
        cases h₂
        exact ⟨cause, rfl⟩

section Observed

variable {g : Graph} {feed : Feed} {e : Evaluation} {vs : List (OutputId × Value)}
  {c : Calibration} {config : CodeLimits} {log : List LogLine} (hg : g.WellFormed)
  (he : g.trace feed = .ok e) (hvs : vs.Perm e.values)
  (hc : ∀ o, (∃ b, c.get? o = some b) ↔ ∃ t, (o, Value.numbers t) ∈ vs)
include hg he hvs hc

/-- A range that lowering lacks is one of a convolution that is not needed. -/
theorem dangles_of_missing {node : String} {o : OutputId} {w : EngineState Calibration}
    (hrun : (lower config).run ⟨(({} : Region).mark g).graph, c, log⟩ =
      .error (.quantize node (.missingCalibration o)) w) :
    ∃ id source, g.Dangles id source ∧ (o = source ∨ o = ⟨id, 0⟩) := by
  have hmark := Reflagged.mark {} g
  rcases blames_of_lower (w := ⟨(({} : Region).mark g).graph, c, log⟩) (hg.mark {}) hrun with
    ⟨cause, hcause⟩ | ⟨s, cause, hs, hcause, hmissing⟩
  · cases hcause
  cases hcause
  obtain ⟨hwhich, hnone⟩ := hmissing o rfl
  have hfed : g.producer? ⟨s.node, 0⟩ = some s.source := (hmark.producer _).symm.trans hs.fed
  obtain ⟨u, hd⟩ := hs.declared
  obtain ⟨n, hn, hdecl⟩ := declaration?_eq_some.1 ((hmark.declaration _).symm.trans hd)
  have hkind : n.kind = .conv2d := congrArg (·.op.kind) hdecl
  refine ⟨s.node, s.source, hg.dangles_iff.2 ⟨⟨n, hn, hkind⟩, hfed, fun hneeded => ?_⟩, hwhich⟩
  -- For a convolution that is needed both ranges are recorded.
  obtain ⟨x, y, hx, hy⟩ := hg.numbers_of_needed he hn hkind hneeded hfed
  have hrecorded : ∃ b, c.get? o = some b := by
    rcases hwhich with rfl | rfl
    · exact (hc _).2 ⟨x, hvs.mem_iff.2 hx⟩
    · exact (hc _).2 ⟨y, hvs.mem_iff.2 hy⟩
  obtain ⟨b, hb⟩ := hrecorded
  cases hb.symm.trans hnone

/-- Lowering does not get past a convolution that is not needed. -/
theorem lower_ne_ok_of_dangles {id : NodeId} {source : OutputId} (h : g.Dangles id source)
    (report : Engine.Report) (w : EngineState Calibration) :
    (lower config).run ⟨(({} : Region).mark g).graph, c, log⟩ ≠ .ok report w := by
  intro hrun
  obtain ⟨⟨n, hn, hkind⟩, hfed, hnot⟩ := hg.dangles_iff.1 h
  obtain ⟨rs, w₁, s, hsites, hreached, -⟩ :=
    lower_parts (w := ⟨(({} : Region).mark g).graph, c, log⟩) (hg.mark {}) hrun
  have hlow := isLowerable_of_marked hg hn hkind hfed
  have hmem : id ∈ rs.map (·.site.node) := by
    have hcontains : (({} : Region).mark g).graph.contains id :=
      (Reflagged.mark {} g).contains_iff.2 (contains_iff.2 ⟨_, declaration?_of_get? hn⟩)
    rw [hsites]
    exact List.mem_filter.2 ⟨Arena.mem_handles.2 hcontains, hlow⟩
  obtain ⟨r, hr, rfl⟩ := List.mem_map.1 hmem
  -- Its parameters were derived, so the range of its result was recorded.
  obtain ⟨⟨-, hout⟩, -⟩ := Parameters.derive_eq_ok.1 (hreached.table.derived r hr)
  obtain ⟨t, ht⟩ := (hc _).1 ⟨_, hout⟩
  exact hnot (hg.needed_of_value he (hvs.mem_iff.1 ht))

end Observed

/-- **Marking and evaluating give the ranges that lowering needs, up to convolutions that
nobody needs.** Take a graph built by any sequence of operations and a feed on which it
evaluates to tensors of numbers that are not empty. Mark it, which does not change the
evaluation, and record these tensors in any order in an empty table. Recording succeeds.
If lowering with this table, under any limits, stops for want of a range, then the range
belongs to a convolution that something feeds and that no output of the graph needs: it
is the range of its operand or that of its result. And if there is such a convolution,
lowering does not succeed. -/
theorem lowering_calibrated (cs : List Command) (feed : Feed) (e : Evaluation)
    (vs : List (OutputId × Value)) (config : CodeLimits) (log : List LogLine)
    (he : (build cs).trace feed = .ok e) (hvs : vs.Perm e.values)
    (hfull : ∀ o t, (o, Value.numbers t) ∈ vs → t.data.size ≠ 0) :
    (({} : Region).mark (build cs)).graph.trace feed = .ok e ∧
    ∃ c, ({} : Calibration).observe vs = (c, none) ∧
      (∀ node o w, (lower config).run ⟨(({} : Region).mark (build cs)).graph, c, log⟩ =
        .error (.quantize node (.missingCalibration o)) w →
        ∃ id source, (build cs).Dangles id source ∧ (o = source ∨ o = ⟨id, 0⟩)) ∧
      ∀ id source, (build cs).Dangles id source → ∀ report w,
        (lower config).run ⟨(({} : Region).mark (build cs)).graph, c, log⟩ ≠ .ok report w := by
  have hg := wellFormed_build cs
  obtain ⟨c, hobserve, hc⟩ := Calibration.observe_eq hfull {}
  have hc : ∀ o, (∃ b, c.get? o = some b) ↔ ∃ t, (o, Value.numbers t) ∈ vs := by
    intro o
    rw [hc]
    have hempty : ({} : Calibration).get? o = none := rfl
    simp [hempty]
  refine ⟨(Region.trace_mark {} hg feed).trans he, c, hobserve, fun node o w hrun => ?_,
    fun id source h report w => ?_⟩
  · exact dangles_of_missing hg he hvs hc hrun
  · exact lower_ne_ok_of_dangles hg he hvs hc h report w

/-! ## Two graphs -/

/-- A tensor of the number one, which is the weight of `increment`. -/
def one : Tensor Single := increment.weights.toTensor

/-- Both convolutions of the chain are needed, so no range is missing. -/
theorem lowering_calibrated_reversedChain : ∃ e c,
    (build reversedChain).trace (fun _ => some one) = .ok e ∧
    ({} : Calibration).observe e.values = (c, none) ∧
    ∀ node o w, (lower {}).run ⟨(({} : Region).mark (build reversedChain)).graph, c, []⟩ ≠
      .error (.quantize node (.missingCalibration o)) w := by
  have hg := wellFormed_build reversedChain
  obtain ⟨e, he⟩ := hg.trace_ok_iff_evaluable.2
    (evaluable_reversedChain (fun _ => some one) rfl rfl)
  have hfull : ∀ o t, (o, Value.numbers t) ∈ e.values → t.data.size ≠ 0 := by
    intro o t ht
    obtain ⟨order, -, hc⟩ := hg.computed_of_trace he
    obtain ⟨-, q, hq, htype⟩ := hc.values o _ ht
    have hall : ∀ x ∈ (build reversedChain).nodes.entries, ∀ q ∈ x.2.outputs,
        q.type.shape.size = 1 := by decide +kernel
    obtain ⟨n, hn, hindex⟩ := get?_of_outlet? hq
    have hsize := hall _ (Arena.mem_entries.2 hn) q (List.mem_of_getElem? hindex)
    rw [← htype] at hsize
    rw [t.size_data]
    exact fun hzero => Nat.one_ne_zero (hsize.symm.trans hzero)
  obtain ⟨-, c, hobserve, hmissing, -⟩ :=
    lowering_calibrated reversedChain (fun _ => some one) e e.values {} [] he (.refl _) hfull
  refine ⟨e, c, he, hobserve, fun node o w hrun => ?_⟩
  obtain ⟨id, source, hdangles, -⟩ := hmissing node o w hrun
  obtain ⟨⟨n, hn, hkind⟩, -, hnot⟩ := hg.dangles_iff.1 hdangles
  have houtput : 3 ∈ (build reversedChain).outputs ∧ (build reversedChain).contains 3 := by
    decide +kernel
  have hfeeds : 1 ∈ (build reversedChain).feeders 3 ∧ 2 ∈ (build reversedChain).feeders 1 := by
    decide +kernel
  have h₁ : (build reversedChain).Needed 1 :=
    .feeds (.output houtput.1 houtput.2) (mem_feeders.1 hfeeds.1)
  have h₂ : (build reversedChain).Needed 2 := .feeds h₁ (mem_feeders.1 hfeeds.2)
  have hconvs : (build reversedChain).ofKind .conv2d = [1, 2] := by decide +kernel
  have hid := mem_ofKind.2 ⟨n, hn, hkind⟩
  rw [hconvs] at hid
  simp only [List.mem_cons, List.not_mem_nil, or_false] at hid
  rcases hid with rfl | rfl
  · exact hnot h₁
  · exact hnot h₂

/-- A convolution beside the way from the input to the output. -/
def strayConvolution : List Command :=
  let t : TensorType := ⟨.f32, [1, 1, 1, 1]⟩
  [.addInput "x" t, .addNode "stray" (.conv2d increment) t, .connect ⟨1, 0⟩ ⟨0, 0⟩,
    .addOutput "y" ⟨0, 0⟩]

/-- Nodes that hold all outputs and everything that feeds one of them hold what is needed. -/
theorem Graph.Needed.mem {g : Graph} {l : List NodeId} (hout : ∀ id ∈ g.outputs, id ∈ l)
    (hfeeders : ∀ b ∈ l, ∀ a ∈ g.feeders b, a ∈ l) {id : NodeId} (h : g.Needed id) : id ∈ l := by
  induction h with
  | output hmem _ => exact hout _ hmem
  | feeds _ hf ih => exact hfeeders _ ih _ (mem_feeders.2 hf)

theorem topologicalOrder_strayConvolution :
    (build strayConvolution).topologicalOrder = .ok [0, 2] := by
  have houtputs : (build strayConvolution).outputs = [2] ∧
      (build strayConvolution).contains 2 := by decide +kernel
  have hfeeders : (build strayConvolution).feeders 0 = [] ∧
      (build strayConvolution).feeders 2 = [0] := by decide +kernel
  have h₂ : (build strayConvolution).Needed 2 := .output (by simp [houtputs.1]) houtputs.2
  have h₀ : (build strayConvolution).Needed 0 := .feeds h₂ (mem_feeders.1 (by simp [hfeeders.2]))
  obtain ⟨live, hlive, hsub, hmem⟩ := (wellFormed_build strayConvolution).reachable_ok
  have hall : live = [0, 2] := by
    have hsorted := (build strayConvolution).ids_sorted.sublist hsub
    refine hsorted.eq_of_mem_iff (by decide) fun id => (hmem id).trans ⟨fun h => ?_, ?_⟩
    · exact h.mem (by simp [houtputs.1]) (by simp [hfeeders])
    · simp only [List.mem_cons, List.not_mem_nil, or_false]
      rintro (rfl | rfl)
      · exact h₀
      · exact h₂
  have hschedule : (build strayConvolution).schedule [] [0, 2] = [0, 2] := by decide +kernel
  rw [(wellFormed_build strayConvolution).topologicalOrder_eq hlive, hall, hschedule]
  rfl

/-- The graph evaluates, and to no empty tensor. It is marked, the ranges are recorded, and
lowering stops all the same: the result of the stray convolution was never computed. -/
theorem range_missing_strayConvolution : ∃ e c w,
    (build strayConvolution).trace (fun _ => some one) = .ok e ∧
    (∀ o v, (o, v) ∈ e.values → v.type.shape.size ≠ 0) ∧
    ({} : Calibration).observe e.values = (c, none) ∧
    (lower {}).run ⟨(({} : Region).mark (build strayConvolution)).graph, c, []⟩ =
      .error (.quantize "stray" (.missingCalibration ⟨1, 0⟩)) w := by
  have hruns : (Evaluation.along (build strayConvolution) (fun _ => some one) {} [0, 2]).error =
      none := by decide +kernel
  have hreached :
      (Evaluation.along (build strayConvolution) (fun _ => some one) {} [0, 2]).reached =
        ⟨[(⟨0, 0⟩, .numbers one)], [("y", one)]⟩ := by decide +kernel
  have hobserve : (({} : Calibration).observe [(⟨0, 0⟩, .numbers one)]) =
      (({} : Calibration).insert ⟨0, 0⟩ ⟨.ofInt 1, .ofInt 1⟩, none) := by decide +kernel
  have hlower : errorOf? ((lower {}).run ⟨(({} : Region).mark (build strayConvolution)).graph,
      ({} : Calibration).insert ⟨0, 0⟩ ⟨.ofInt 1, .ofInt 1⟩, []⟩) =
      some (.quantize "stray" (.missingCalibration ⟨1, 0⟩)) := by decide +kernel
  obtain ⟨w, hw⟩ := exists_of_errorOf? hlower
  refine ⟨_, _, w, trace_eq_ok.2 ⟨_, topologicalOrder_strayConvolution, hruns, hreached⟩, ?_,
    hobserve, hw⟩
  intro o v hv
  cases List.mem_singleton.1 hv
  decide

end FixedNet
