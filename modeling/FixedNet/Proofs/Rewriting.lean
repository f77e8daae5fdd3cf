/-
**A run of replacements.** The engine goes once over the nodes of the initial graph
and replaces every convolution that it recognises, one after another. What a
replacement finds is no longer the initial graph: its producer may have been replaced
already, and then it finds the stand-in. This file says exactly what it finds.

* `Rewritten g₀ rs g`: the graph after the replacements `rs`, by its connectors. Edges
  between nodes of the initial graph end at `standIn rs o` where they ended at `o`.
* `Recorded config g₀ c₀ rs c`: the table of ranges after them.

Flags and ranges of a stand-in are those of the output it stands for, so a replacement
neither makes nor unmakes a match, and parameters are derived as from the initial
table. The engine's report and its errors follow from that.
-/
import FixedNet.Proofs.History
import FixedNet.Proofs.Splicing

set_option autoImplicit false

namespace FixedNet.FixedPoint

open FixedNet.Graph

/-! ## Stand-ins -/

/-- A replacement: its site in the initial graph, the first of its three nodes, and its
parameters. -/
structure Replacement where
  site : Site
  base : Nat
  parameters : Parameters

/-- The output that stands for the output of the convolution. -/
def Replacement.output (r : Replacement) : OutputId := ⟨r.base + 2, 0⟩

/-- What stands for an output of the initial graph. -/
def standIn (rs : List Replacement) (o : OutputId) : OutputId :=
  match rs.find? (fun r => r.site.output = o) with
  | some r => r.output
  | none => o

theorem standIn_cases (rs : List Replacement) (o : OutputId) :
    (∃ r ∈ rs, r.site.output = o ∧ standIn rs o = r.output) ∨
      (∀ r ∈ rs, r.site.output ≠ o) ∧ standIn rs o = o := by
  unfold standIn
  cases h : rs.find? (fun r => r.site.output = o) with
  | some r => exact .inl ⟨r, List.mem_of_find?_eq_some h, by simpa using List.find?_some h, rfl⟩
  | none => exact .inr ⟨fun r hr => by simpa using List.find?_eq_none.1 h r hr, rfl⟩

/-- One replacement more redirects the output that it replaces. -/
theorem standIn_append {rs : List Replacement} {r : Replacement} (o : OutputId)
    (hnew : ∀ r' ∈ rs, r'.output ≠ r.site.output) :
    standIn (rs ++ [r]) o = redirect r.site.output r.output (standIn rs o) := by
  unfold standIn redirect
  rw [List.find?_append]
  cases h : rs.find? (fun r' => r'.site.output = o) with
  | some r' =>
    -- Replaced already: its stand-in is a new node, which is never a site.
    rw [Option.some_or]
    exact (if_neg (hnew r' (List.mem_of_find?_eq_some h))).symm
  | none =>
    rw [Option.none_or, List.find?_singleton]
    by_cases ho : r.site.output = o
    · simp [ho]
    · simp [ho, Ne.symm ho]

/-! ## The graph after replacements -/

/-- The three nodes of a replacement sit in the graph, one behind the other. -/
structure Placed (g : Graph) (r : Replacement) : Prop where
  declared : ∃ sourceName v, v.scalar = .u8 ∧ ∀ k : Nat, k < 3 →
    g.declaration? (r.base + k) = (r.site.declarations r.parameters sourceName v)[k]?
  kernel : g.producer? ⟨r.base + 1, 0⟩ = some ⟨r.base, 0⟩
  dequantizer : g.producer? ⟨r.base + 2, 0⟩ = some ⟨r.base + 1, 0⟩
  flagged : isFlagged g r.output

theorem Placed.ops {g : Graph} {r : Replacement} (h : Placed g r) :
    ∃ n₀ n₁ n₂, g.node r.base = .ok n₀ ∧ g.node (r.base + 1) = .ok n₁ ∧
      g.node (r.base + 2) = .ok n₂ ∧ n₀.op = .quantize r.parameters.inputCode ∧
      n₁.op = .quantizedConv2d (r.parameters.fixedConv r.site.conv) ∧
      n₂.op = .dequantize r.parameters.outputCode := by
  obtain ⟨sourceName, v, -, hd⟩ := h.declared
  obtain ⟨n₀, hn₀, hd₀⟩ := declaration?_eq_some.1 (hd 0 (by decide))
  obtain ⟨n₁, hn₁, hd₁⟩ := declaration?_eq_some.1 (hd 1 (by decide))
  obtain ⟨n₂, hn₂, hd₂⟩ := declaration?_eq_some.1 (hd 2 (by decide))
  exact ⟨n₀, n₁, n₂, node_eq_ok.2 hn₀, node_eq_ok.2 hn₁, node_eq_ok.2 hn₂,
    congrArg Declaration.op hd₀, congrArg Declaration.op hd₁, congrArg Declaration.op hd₂⟩

/-- The graph after replacements in an initial graph. -/
structure Rewritten (g₀ : Graph) (rs : List Replacement) (g : Graph) : Prop where
  wellFormed : g.WellFormed
  capacity : g.nodes.capacity = g₀.nodes.capacity + 3 * rs.length
  places : ∀ k r, rs[k]? = some r → r.base = g₀.nodes.capacity + 3 * k
  sites : ∀ r ∈ rs, IsSite g₀ r.site
  old : ∀ id, id < g₀.nodes.capacity → g.declaration? id = g₀.declaration? id
  placed : ∀ r ∈ rs, Placed g r
  moved : ∀ i : InputId, i.node < g₀.nodes.capacity →
    g.producer? i = (g₀.producer? i).map (standIn rs)
  quantizer : ∀ r ∈ rs, r.site.source ≠ r.site.output →
    g.producer? ⟨r.base, 0⟩ = some (standIn rs r.site.source)
  flags : ∀ o : OutputId, o.node < g₀.nodes.capacity → isFlagged g o = isFlagged g₀ o
  inputs : g.inputs = g₀.inputs
  outputs : g.outputs = g₀.outputs

/-- The table of ranges after replacements. -/
structure Recorded (config : CodeLimits) (g₀ : Graph) (c₀ : Calibration)
    (rs : List Replacement) (c : Calibration) : Prop where
  derived : ∀ r ∈ rs,
    Parameters.derive config r.site.conv c₀ r.site.source r.site.output = .ok r.parameters
  old : ∀ o : OutputId, o.node < g₀.nodes.capacity → c.get? o = c₀.get? o
  copied : ∀ r ∈ rs, c.get? r.output = c₀.get? r.site.output

variable {g₀ g g' : Graph} {rs : List Replacement} {s : Site} {p : Parameters}

theorem Spliced.isFlagged_eq (h : Spliced g s p g') {o : OutputId}
    (ho : o.node < g.nodes.capacity) : isFlagged g' o = isFlagged g o := by
  rw [FixedPoint.isFlagged_eq, h.flags o ho, ← FixedPoint.isFlagged_eq]

theorem redirect_of_le {s : Site} {o new : OutputId} (h : s.node < o.node) :
    redirect s.output new o = o :=
  if_neg fun heq => absurd h (Nat.not_lt.2 (Nat.le_of_eq (congrArg OutputId.node heq)))

/-- A splice elsewhere leaves the nodes of a replacement alone. -/
theorem Placed.of_spliced {r : Replacement} (hr : Placed g r) (h : Spliced g s p g')
    (hle : r.base + 3 ≤ g.nodes.capacity) (hs : s.node < r.base) : Placed g' r where
  declared := by
    obtain ⟨sourceName, v, hv, hd⟩ := hr.declared
    refine ⟨sourceName, v, hv, fun k hk => ?_⟩
    rw [h.old _ (show r.base + k < g.nodes.capacity by omega)]
    exact hd k hk
  kernel := by
    rw [h.moved _ (show r.base + 1 < g.nodes.capacity by omega), hr.kernel, Option.map_some,
      redirect_of_le hs]
  dequantizer := by
    rw [h.moved _ (show r.base + 2 < g.nodes.capacity by omega), hr.dequantizer, Option.map_some,
      redirect_of_le (Nat.lt_succ_of_lt hs)]
  flagged := by
    rw [h.isFlagged_eq (show r.base + 2 < g.nodes.capacity by omega)]
    exact hr.flagged

namespace Rewritten

variable (h : Rewritten g₀ rs g)
include h

theorem base_bounds {r : Replacement} (hr : r ∈ rs) :
    g₀.nodes.capacity ≤ r.base ∧ r.base + 3 ≤ g.nodes.capacity := by
  obtain ⟨k, hk⟩ := List.mem_iff_getElem?.1 hr
  obtain ⟨hlt, -⟩ := List.getElem?_eq_some_iff.1 hk
  rw [h.places k r hk, h.capacity]
  omega

/-- A stand-in is flagged exactly if the output it stands for was. -/
theorem isFlagged_standIn {o : OutputId} (ho : o.node < g₀.nodes.capacity) :
    isFlagged g (standIn rs o) = isFlagged g₀ o := by
  rcases standIn_cases rs o with ⟨r, hr, rfl, heq⟩ | ⟨-, heq⟩
  · rw [heq, (h.placed r hr).flagged, (h.sites r hr).flagged]
  · rw [heq, h.flags o ho]

/-- A site of the initial graph is still one, fed by the stand-in of its producer. -/
theorem isSite (hg₀ : g₀.WellFormed) (hs : IsSite g₀ s) :
    IsSite g { s with source := standIn rs s.source } where
  declared := by
    obtain ⟨u, hu⟩ := hs.declared
    exact ⟨u, (h.old s.node hs.lt_capacity).trans hu⟩
  fed := by
    rw [h.moved ⟨s.node, 0⟩ hs.lt_capacity, hs.fed]
    rfl
  sourceFlagged := by
    obtain ⟨q, hq, -⟩ := hg₀.outlet?_of_producer? hs.fed
    exact (h.isFlagged_standIn (lt_capacity_of_outlet? hq)).trans hs.sourceFlagged
  flagged := (h.flags s.output hs.lt_capacity).trans hs.flagged

/-- Nothing else has become a site. -/
theorem site_of_isSite (hg₀ : g₀.WellFormed) (hs : IsSite g s)
    (hlt : s.node < g₀.nodes.capacity) : ∃ s₀, IsSite g₀ s₀ ∧ s₀.node = s.node := by
  obtain ⟨u, hu⟩ := hs.declared
  have hfed := hs.fed
  rw [h.moved ⟨s.node, 0⟩ hlt] at hfed
  obtain ⟨o, ho, hstand⟩ := Option.map_eq_some_iff.1 hfed
  obtain ⟨q, hq, -⟩ := hg₀.outlet?_of_producer? ho
  refine ⟨{ s with source := o }, ⟨⟨u, (h.old s.node hlt).symm.trans hu⟩, ho, ?_, ?_⟩, rfl⟩
  · rw [← h.isFlagged_standIn (lt_capacity_of_outlet? hq), hstand]
    exact hs.sourceFlagged
  · exact (h.flags s.output hlt).symm.trans hs.flagged

/-- **Replacements neither make nor unmake a match.** -/
theorem recognize_isSome (hg₀ : g₀.WellFormed) {id : NodeId} (hid : id < g₀.nodes.capacity) :
    (recognize g id).isSome = (recognize g₀ id).isSome := by
  rw [Bool.eq_iff_iff]
  constructor
  · intro hm
    obtain ⟨m, hm⟩ := Option.isSome_iff_exists.1 hm
    obtain ⟨s, hs, rfl⟩ := site_of_recognize h.wellFormed hm
    obtain ⟨s₀, hs₀, heq⟩ := h.site_of_isSite hg₀ hs hid
    rw [← heq, hs₀.recognize_eq]
    rfl
  · intro hm
    obtain ⟨m, hm⟩ := Option.isSome_iff_exists.1 hm
    obtain ⟨s, hs, rfl⟩ := site_of_recognize hg₀ hm
    have h' := (h.isSite hg₀ hs).recognize_eq
    rw [h']
    rfl

end Rewritten

/-! ## One replacement more -/

section Step

variable {config : CodeLimits} {c₀ c : Calibration}

/-- A range is found at the stand-in of an output as it was at the output. -/
theorem Recorded.get?_standIn (h : Recorded config g₀ c₀ rs c) {o : OutputId}
    (ho : o.node < g₀.nodes.capacity) : c.get? (standIn rs o) = c₀.get? o := by
  rcases standIn_cases rs o with ⟨r, hr, rfl, heq⟩ | ⟨-, heq⟩
  · rw [heq, h.copied r hr]
  · rw [heq, h.old o ho]

/-- A derivation from the table as it stands is one from the initial table. -/
theorem Recorded.derive_eq_ok_iff (hg₀ : g₀.WellFormed) (h : Recorded config g₀ c₀ rs c)
    (hs : IsSite g₀ s) :
    Parameters.derive config s.conv c (standIn rs s.source) s.output = .ok p ↔
      Parameters.derive config s.conv c₀ s.source s.output = .ok p := by
  obtain ⟨q, hq, -⟩ := hg₀.outlet?_of_producer? hs.fed
  rw [Parameters.derive_eq_ok, Parameters.derive_eq_ok,
    h.get?_standIn (lt_capacity_of_outlet? hq), h.old s.output hs.lt_capacity]

/-- The table after one replacement more. -/
theorem Recorded.step (hrw : Rewritten g₀ rs g) (h : Recorded config g₀ c₀ rs c)
    (hp : Parameters.derive config s.conv c₀ s.source s.output = .ok p) :
    Recorded config g₀ c₀ (rs ++ [⟨s, g.nodes.capacity, p⟩])
      (c.insert ⟨g.nodes.capacity + 2, 0⟩ p.outputBounds) where
  derived := List.forall_mem_append.2 ⟨h.derived, List.forall_mem_singleton.2 hp⟩
  old o ho := by
    have hne : o ≠ ⟨g.nodes.capacity + 2, 0⟩ := by
      rintro rfl
      rw [hrw.capacity] at ho
      have hle : g₀.nodes.capacity ≤ g₀.nodes.capacity + 3 * rs.length + 2 := by omega
      exact absurd ho (Nat.not_lt.2 hle)
    rw [Calibration.get?_insert, if_neg hne, h.old o ho]
  copied := by
    refine List.forall_mem_append.2 ⟨fun r hr => ?_, List.forall_mem_singleton.2 ?_⟩
    · have hne : r.output ≠ ⟨g.nodes.capacity + 2, 0⟩ := by
        intro heq
        have hnode : r.base + 2 = g.nodes.capacity + 2 := congrArg OutputId.node heq
        have := (hrw.base_bounds hr).2
        omega
      rw [Calibration.get?_insert, if_neg hne, h.copied r hr]
    · -- What is recorded for the new output is the range that its code was derived from.
      obtain ⟨⟨-, hout⟩, -⟩ := Parameters.derive_eq_ok.1 hp
      rw [Calibration.get?_insert]
      exact (if_pos rfl).trans hout.symm

theorem Spliced.placed {o : OutputId} (h : Spliced g { s with source := o } p g')
    (hs : isFlagged g s.output) : Placed g' ⟨s, g.nodes.capacity, p⟩ where
  declared := by
    obtain ⟨sourceName, v, hv, hd⟩ := h.new
    exact ⟨sourceName, v, hv, fun k _ => hd k⟩
  kernel := h.kernel
  dequantizer := h.dequantizer
  flagged := h.flagged hs

/-- The graph after one replacement more. -/
theorem Rewritten.step (h : Rewritten g₀ rs g) (hs : IsSite g₀ s)
    (hsp : Spliced g { s with source := standIn rs s.source } p g') :
    Rewritten g₀ (rs ++ [⟨s, g.nodes.capacity, p⟩]) g' := by
  have hle : g₀.nodes.capacity ≤ g.nodes.capacity := by
    rw [h.capacity]
    exact Nat.le_add_right _ _
  have hold : ∀ id, id < g₀.nodes.capacity → id < g.nodes.capacity := fun id hid =>
    Nat.lt_of_lt_of_le hid hle
  -- Sites are nodes of the initial graph, and all nodes of replacements come after those.
  have hafter : ∀ r ∈ rs, s.node < r.base := fun r hr =>
    Nat.lt_of_lt_of_le hs.lt_capacity (h.base_bounds hr).1
  have hstand : ∀ o, standIn (rs ++ [⟨s, g.nodes.capacity, p⟩]) o =
      redirect s.output ⟨g.nodes.capacity + 2, 0⟩ (standIn rs o) := by
    intro o
    refine standIn_append o fun r hr heq => ?_
    have hnode : r.base + 2 = s.node := congrArg OutputId.node heq
    exact absurd (hafter r hr) (Nat.not_lt.2 (hnode ▸ Nat.le_add_right _ _))
  constructor
  case wellFormed =>
    exact hsp.wellFormed
  case capacity =>
    rw [hsp.capacity, h.capacity, List.length_append]
    simp only [List.length_singleton]
    omega
  case places =>
    intro k r hk
    rw [List.getElem?_append] at hk
    by_cases hlt : k < rs.length
    · rw [if_pos hlt] at hk
      exact h.places k r hk
    · rw [if_neg hlt, List.getElem?_singleton] at hk
      split at hk
      · next hzero =>
        cases hk
        have hkeq : k = rs.length := by omega
        rw [hkeq]
        exact h.capacity
      · cases hk
  case sites =>
    exact List.forall_mem_append.2 ⟨h.sites, List.forall_mem_singleton.2 hs⟩
  case old =>
    intro id hid
    rw [hsp.old id (hold id hid), h.old id hid]
  case placed =>
    have hflagged := (h.flags s.output hs.lt_capacity).trans hs.flagged
    refine List.forall_mem_append.2
      ⟨fun r hr => ?_, List.forall_mem_singleton.2 (hsp.placed hflagged)⟩
    exact (h.placed r hr).of_spliced hsp (h.base_bounds hr).2 (hafter r hr)
  case moved =>
    intro i hi
    rw [hsp.moved i (hold _ hi), h.moved i hi, Option.map_map]
    congr 1
    funext o
    exact (hstand o).symm
  case quantizer =>
    refine List.forall_mem_append.2 ⟨fun r hr hne => ?_, List.forall_mem_singleton.2 fun hne => ?_⟩
    · have hlt : r.base < g.nodes.capacity :=
        Nat.lt_of_succ_lt (Nat.lt_of_succ_lt (h.base_bounds hr).2)
      rw [hsp.moved _ hlt, h.quantizer r hr hne, hstand]
      rfl
    · -- The source may itself have been replaced already; then it is a stand-in and stays.
      rw [hsp.quantizer, hstand]
      rcases standIn_cases rs s.source with ⟨r, hr', -, heq⟩ | ⟨-, heq⟩
      · rw [heq, redirect_of_le (Nat.lt_of_lt_of_le (hafter r hr') (Nat.le_add_right _ 2))]
      · rw [heq, redirect, if_neg hne]
  case flags =>
    intro o ho
    rw [hsp.isFlagged_eq (hold _ ho), h.flags o ho]
  case inputs =>
    rw [hsp.inputs, h.inputs]
  case outputs =>
    rw [hsp.outputs, h.outputs]

end Step

/-! ## One visit of the engine -/

/-- The node is a convolution to be lowered. -/
def isLowerable (g : Graph) (id : NodeId) : Bool := (recognize g id).isSome

section Visit

variable {config : CodeLimits} {w : EngineState Calibration} {id : NodeId} {n : Node}

theorem kind_of_recognize {m : Match} (hn : g.nodes.get? id = some n)
    (h : recognize g id = some m) : n.kind = .conv2d := by
  unfold recognize at h
  rw [hn] at h
  by_cases hkind : n.kind = .conv2d
  · exact hkind
  · simp [hkind] at h

theorem run_ask (config : CodeLimits) (id : NodeId) (w : EngineState Calibration) :
    (Engine.ask (transform config) id).run w = .ok (recognize w.graph id) w := by
  unfold Engine.ask transform
  rw [run_get_bind]
  dsimp only
  cases recognize w.graph id with
  | none => rfl
  | some m => rfl

/-- A node that is not recognised is passed over. -/
theorem run_visit_of_none (report : Engine.Report) (hn : w.graph.nodes.get? id = some n)
    (h : recognize w.graph id = none) :
    (Engine.visit [transform config] report id).run w =
      .ok { report with visited := report.visited + 1, notMatched := report.notMatched + 1 } w := by
  have hoffer : (Engine.offer id (Registry.find [transform config] n.kind)).run w = .ok none w := by
    by_cases hkind : n.kind ∈ (transform config).kinds
    · rw [Registry.find, List.filter_cons_of_pos (by simpa using hkind), Engine.offer,
        EStateM.run_bind, run_ask, h]
      rfl
    · rw [Registry.find, List.filter_cons_of_neg (by simpa using hkind)]
      rfl
  rw [Engine.visit, run_get_bind, hn]
  dsimp only
  rw [EStateM.run_bind, hoffer]
  rfl

/-- A node that is recognised is replaced. -/
theorem run_visit_of_some (config : CodeLimits) (report : Engine.Report)
    (hn : w.graph.nodes.get? id = some n) {m : Match} (h : recognize w.graph id = some m) :
    ∃ log, (Engine.visit [transform config] report id).run w =
      ((apply config m) >>= fun _ => pure { report with
        visited := report.visited + 1
        applications := report.applications ++ [⟨name, n.name⟩] }).run
          ⟨w.graph, w.state, log⟩ := by
  have hkind : n.kind ∈ (transform config).kinds := by
    rw [kind_of_recognize hn h]
    exact List.mem_singleton.2 rfl
  have hquery : (TransformM.query (·.nodeAt id) : TransformM Calibration Node).run w = .ok n w :=
    TransformM.run_query_eq_ok.2 ⟨nodeAt_eq_ok.2 hn, rfl⟩
  refine ⟨w.log ++ [⟨.debug, name ++ ": matched " ++ Handle.text id ++ s!" '{n.name}'"⟩], ?_⟩
  have hoffer : (Engine.offer id [transform config]).run w =
      (apply config m >>= fun _ => pure (some ⟨name, n.name⟩)).run ⟨w.graph, w.state,
        w.log ++ [⟨.debug, name ++ ": matched " ++ Handle.text id ++ s!" '{n.name}'"⟩]⟩ := by
    rw [Engine.offer, EStateM.run_bind, run_ask, h]
    dsimp only
    rw [EStateM.run_bind, hquery]
    rfl
  rw [Engine.visit, run_get_bind, hn]
  dsimp only
  rw [Registry.find, List.filter_cons_of_pos (by simpa using hkind), List.filter_nil,
    EStateM.run_bind, hoffer, EStateM.run_bind, EStateM.run_bind]
  cases (apply config m).run _ with
  | ok u w' => rfl
  | error e w' => rfl

end Visit

/-! ## The whole run -/

/-- The state of the engine after replacements. -/
structure Reached (config : CodeLimits) (g₀ : Graph) (c₀ : Calibration)
    (rs : List Replacement) (w : EngineState Calibration) : Prop where
  graph : Rewritten g₀ rs w.graph
  table : Recorded config g₀ c₀ rs w.state

/-- How a report grows when `count` nodes are visited and `rs` are replaced. -/
structure Reports (count : Nat) (rs : List Replacement) (report report' : Engine.Report) :
    Prop where
  applications : report'.applications =
    report.applications ++ rs.map fun r => ⟨name, r.site.name⟩
  visited : report'.visited = report.visited + count
  notMatched : report'.notMatched + rs.length = report.notMatched + count

theorem Reports.trans {count count' : Nat} {rs rs' : List Replacement}
    {report report' report'' : Engine.Report} (h : Reports count rs report report')
    (h' : Reports count' rs' report' report'') :
    Reports (count + count') (rs ++ rs') report report'' where
  applications := by
    rw [h'.applications, h.applications, List.map_append, List.append_assoc]
  visited := by
    rw [h'.visited, h.visited, Nat.add_assoc]
  notMatched := by
    have := h.notMatched
    have := h'.notMatched
    rw [List.length_append]
    omega

section Run

variable {config : CodeLimits} {c₀ : Calibration} {w w' : EngineState Calibration} {id : NodeId}
  {report report' : Engine.Report}

theorem Rewritten.start (hg : g.WellFormed) : Rewritten g [] g where
  wellFormed := hg
  capacity := rfl
  places k r hk := by
    rw [List.getElem?_nil] at hk
    cases hk
  sites _ hr := absurd hr List.not_mem_nil
  old _ _ := rfl
  placed _ hr := absurd hr List.not_mem_nil
  moved i _ := by
    have hstand : standIn [] = id := rfl
    rw [hstand, Option.map_id]
    rfl
  quantizer _ hr := absurd hr List.not_mem_nil
  flags _ _ := rfl
  inputs := rfl
  outputs := rfl

theorem Reached.start (hg : w.graph.WellFormed) : Reached config w.graph w.state [] w :=
  ⟨.start hg, fun _ hr => absurd hr List.not_mem_nil, fun _ _ => rfl,
    fun _ hr => absurd hr List.not_mem_nil⟩

/-- The node of the initial graph is still there. -/
theorem Reached.declaration? (h : Reached config g₀ c₀ rs w) {n₀ : Node}
    (hn : g₀.nodes.get? id = some n₀) :
    ∃ n, w.graph.nodes.get? id = some n ∧ n.declaration = n₀.declaration := by
  have hd := declaration?_of_get? hn
  rw [← h.graph.old id (Arena.lt_capacity_of_get? hn)] at hd
  exact declaration?_eq_some.1 hd

/-- One visit replaces a site of the initial graph and passes any other node over. -/
theorem Reached.visit (hg₀ : g₀.WellFormed) (h : Reached config g₀ c₀ rs w)
    (hid : g₀.contains id)
    (hrun : (Engine.visit [transform config] report id).run w = .ok report' w') :
    ∃ rs', rs'.map (·.site.node) = [id].filter (isLowerable g₀) ∧
      Reports 1 rs' report report' ∧ Reached config g₀ c₀ (rs ++ rs') w' := by
  obtain ⟨n₀, hn₀⟩ := (Arena.contains_iff _ _).1 hid
  obtain ⟨n, hn, hdecl⟩ := h.declaration? hn₀
  have hsame := h.graph.recognize_isSome hg₀ (Arena.lt_capacity_of_get? hn₀)
  cases hm : recognize w.graph id with
  | none =>
    have hnot : isLowerable g₀ id = false := by
      rw [isLowerable, ← hsame, hm]
      rfl
    rw [run_visit_of_none report hn hm] at hrun
    cases hrun
    refine ⟨[], by simp [hnot], ⟨by simp, rfl, rfl⟩, ?_⟩
    rw [List.append_nil]
    exact h
  | some m =>
    have hlow : isLowerable g₀ id = true := by
      rw [isLowerable, ← hsame, hm]
      rfl
    -- The site is one of the initial graph; here it is fed by the stand-in of its producer.
    obtain ⟨m₀, hm₀⟩ := Option.isSome_iff_exists.1 hlow
    obtain ⟨s, hs, rfl⟩ := site_of_recognize hg₀ hm₀
    have hsite := h.graph.isSite hg₀ hs
    have hname : n.name = s.name := by
      obtain ⟨u, hu⟩ := hs.declared
      rw [declaration?_of_get? hn₀, ← hdecl] at hu
      exact congrArg Declaration.name (Option.some.inj hu)
    obtain ⟨log, hvisit⟩ := run_visit_of_some config report hn hm
    cases hsite.recognize_eq.symm.trans hm
    rw [hvisit] at hrun
    obtain ⟨u, w₁, happly, hpure⟩ := run_bind_eq_ok.1 hrun
    cases hpure
    obtain ⟨p, hp, hspliced, hstate⟩ :=
      IsSite.apply_eq_ok (w := ⟨w.graph, w.state, log⟩) h.graph.wellFormed hsite happly
    have hp₀ := (h.table.derive_eq_ok_iff hg₀ hs).1 hp
    refine ⟨[⟨s, w.graph.nodes.capacity, p⟩], by simp [hlow], ⟨by simp [hname], rfl, rfl⟩,
      h.graph.step hs hspliced, ?_⟩
    rw [hstate]
    exact h.table.step h.graph hp₀

/-- Visits one after another replace the sites of the initial graph among the nodes. -/
theorem Reached.visits (hg₀ : g₀.WellFormed) {ids : List NodeId}
    (hids : ∀ id ∈ ids, g₀.contains id) (h : Reached config g₀ c₀ rs w)
    (hrun : (ids.foldlM (Engine.visit [transform config]) report).run w = .ok report' w') :
    ∃ rs', rs'.map (·.site.node) = ids.filter (isLowerable g₀) ∧
      Reports ids.length rs' report report' ∧ Reached config g₀ c₀ (rs ++ rs') w' := by
  induction ids generalizing rs report w with
  | nil =>
    cases hrun
    refine ⟨[], rfl, ⟨by simp, rfl, rfl⟩, ?_⟩
    rw [List.append_nil]
    exact h
  | cons id ids ih =>
    rw [List.foldlM_cons] at hrun
    obtain ⟨report₁, w₁, hvisit, hrest⟩ := run_bind_eq_ok.1 hrun
    obtain ⟨rs₁, hmap₁, hrep₁, h₁⟩ := h.visit hg₀ (hids id (List.mem_cons_self ..)) hvisit
    obtain ⟨rs₂, hmap₂, hrep₂, h₂⟩ :=
      ih (fun x hx => hids x (List.mem_cons_of_mem _ hx)) h₁ hrest
    refine ⟨rs₁ ++ rs₂, ?_, ?_, ?_⟩
    · rw [List.map_append, hmap₁, hmap₂, ← List.filter_append]
      rfl
    · rw [List.length_cons, Nat.add_comm]
      exact hrep₁.trans hrep₂
    · rw [← List.append_assoc]
      exact h₂

/-- **The engine's run.** It replaces the sites of the initial graph, in its order. -/
theorem run_eq_ok (hg : w.graph.WellFormed)
    (hrun : (Engine.run [transform config]).run w = .ok report w') :
    ∃ rs, rs.map (·.site.node) = w.graph.ids.filter (isLowerable w.graph) ∧
      Reports w.graph.ids.length rs {} report ∧ Reached config w.graph w.state rs w' := by
  obtain ⟨w₀, w₁, hget, h₁⟩ := run_bind_eq_ok.1 hrun
  cases hget
  obtain ⟨report₁, w₂, hvisits, h₂⟩ := run_bind_eq_ok.1 h₁
  obtain ⟨u, w₃, hreport, h₃⟩ := run_bind_eq_ok.1 h₂
  cases hreport
  cases h₃
  obtain ⟨rs, hmap, hrep, hreached⟩ :=
    (Reached.start hg).visits hg (fun id hid => Arena.mem_handles.1 hid) hvisits
  exact ⟨rs, hmap, hrep, hreached.graph, hreached.table⟩

/-! ### Runs that fail -/

/-- The errors of a run: the graph refuses, or no parameters can be derived for a site
of the initial graph. If that is for want of a range, the range is one of the two that
the initial table lacks for the site. -/
def Blames (g₀ : Graph) (c₀ : Calibration) (e : EngineError) : Prop :=
  (∃ cause, e = .graph cause) ∨ ∃ s cause, IsSite g₀ s ∧ e = .quantize s.name cause ∧
    ∀ o, cause = .missingCalibration o → (o = s.source ∨ o = s.output) ∧ c₀.get? o = none

theorem Reached.missing (hg₀ : g₀.WellFormed) (h : Reached config g₀ c₀ rs w)
    (hs : IsSite g₀ s) {o : OutputId}
    (hmissing : Parameters.derive config s.conv w.state (standIn rs s.source) s.output =
      .error (.missingCalibration o)) :
    (o = s.source ∨ o = s.output) ∧ c₀.get? o = none := by
  obtain ⟨q, hq, -⟩ := hg₀.outlet?_of_producer? hs.fed
  obtain ⟨hwhich, hnone⟩ := Parameters.missing_of_derive hmissing
  rcases hwhich with rfl | rfl
  · rw [h.table.get?_standIn (lt_capacity_of_outlet? hq)] at hnone
    -- A stand-in is never missing: the range it was given was found in the initial table.
    rcases standIn_cases rs s.source with ⟨r, hr, hsource, -⟩ | ⟨-, heq⟩
    · obtain ⟨⟨-, hout⟩, -⟩ := Parameters.derive_eq_ok.1 (h.table.derived r hr)
      rw [← hsource, hout] at hnone
      cases hnone
    · rw [heq]
      exact ⟨.inl rfl, hnone⟩
  · rw [h.table.old s.output hs.lt_capacity] at hnone
    exact ⟨.inr rfl, hnone⟩

theorem Reached.visit_eq_error (hg₀ : g₀.WellFormed) (h : Reached config g₀ c₀ rs w)
    (hid : g₀.contains id) {e : EngineError}
    (hrun : (Engine.visit [transform config] report id).run w = .error e w') :
    Blames g₀ c₀ e := by
  obtain ⟨n₀, hn₀⟩ := (Arena.contains_iff _ _).1 hid
  obtain ⟨n, hn, -⟩ := h.declaration? hn₀
  have hsame := h.graph.recognize_isSome hg₀ (Arena.lt_capacity_of_get? hn₀)
  cases hm : recognize w.graph id with
  | none =>
    rw [run_visit_of_none report hn hm] at hrun
    cases hrun
  | some m =>
    rw [hm] at hsame
    obtain ⟨m₀, hm₀⟩ := Option.isSome_iff_exists.1 hsame.symm
    obtain ⟨s, hs, rfl⟩ := site_of_recognize hg₀ hm₀
    have hsite := h.graph.isSite hg₀ hs
    obtain ⟨log, hvisit⟩ := run_visit_of_some config report hn hm
    cases hsite.recognize_eq.symm.trans hm
    rw [hvisit] at hrun
    rcases run_bind_eq_error.1 hrun with happly | ⟨u, w₁, -, hpure⟩
    · rcases IsSite.apply_eq_error (w := ⟨w.graph, w.state, log⟩) h.graph.wellFormed hsite happly
        with ⟨cause, hcause, rfl⟩ | hgraph
      · refine .inr ⟨s, cause, hs, rfl, ?_⟩
        rintro o rfl
        exact h.missing hg₀ hs hcause
      · exact .inl hgraph
    · cases hpure

theorem Reached.visits_eq_error (hg₀ : g₀.WellFormed) {ids : List NodeId}
    (hids : ∀ id ∈ ids, g₀.contains id) (h : Reached config g₀ c₀ rs w) {e : EngineError}
    (hrun : (ids.foldlM (Engine.visit [transform config]) report).run w = .error e w') :
    Blames g₀ c₀ e := by
  induction ids generalizing rs report w with
  | nil => cases hrun
  | cons id ids ih =>
    rw [List.foldlM_cons] at hrun
    have hid := hids id (List.mem_cons_self ..)
    rcases run_bind_eq_error.1 hrun with hvisit | ⟨report₁, w₁, hvisit, hrest⟩
    · exact h.visit_eq_error hg₀ hid hvisit
    · obtain ⟨rs₁, -, -, h₁⟩ := h.visit hg₀ hid hvisit
      exact ih (fun x hx => hids x (List.mem_cons_of_mem _ hx)) h₁ hrest

theorem run_eq_error (hg : w.graph.WellFormed) {e : EngineError}
    (hrun : (Engine.run [transform config]).run w = .error e w') :
    Blames w.graph w.state e := by
  rcases run_bind_eq_error.1 hrun with hget | ⟨w₀, w₁, hget, h₁⟩
  · cases hget
  cases hget
  rcases run_bind_eq_error.1 h₁ with hvisits | ⟨report₁, w₂, -, h₂⟩
  · exact (Reached.start hg).visits_eq_error hg (fun id hid => Arena.mem_handles.1 hid) hvisits
  · rcases run_bind_eq_error.1 h₂ with hreport | ⟨u, w₃, -, h₃⟩
    · cases hreport
    · cases h₃

end Run

/-- **Replacements are independent.** Run on a graph built by any sequence of operations,
with any table and any limits, the engine replaces exactly the convolutions that are
recognised in that graph, in increasing order of their handles, and counts the other
nodes as not matched. The three nodes of a replacement have parameters derived from the
ranges that the initial table holds for the convolution's producer in the initial graph
and for its own output. A run that stops for want of a range stops at one of these
ranges, and the initial table lacks it. -/
theorem replacements_independent (cs : List Command) (c : Calibration) (config : CodeLimits)
    (log : List LogLine) :
    (∀ report w, (Engine.run [transform config]).run ⟨build cs, c, log⟩ = .ok report w →
      ((build cs).ids.filter (isLowerable (build cs))).Pairwise (· < ·) ∧
      report.applications.length = ((build cs).ids.filter (isLowerable (build cs))).length ∧
      report.visited = (build cs).nodeCount ∧
      report.notMatched = (build cs).nodeCount - report.applications.length ∧
      ∀ (k : Nat) (id : NodeId), ((build cs).ids.filter (isLowerable (build cs)))[k]? = some id →
        ∃ n conv source p, (build cs).node id = .ok n ∧ n.op = .conv2d conv ∧
          report.applications[k]? = some ⟨name, n.name⟩ ∧
          (build cs).producer ⟨id, 0⟩ = .ok (some source) ∧
          Parameters.derive config conv c source ⟨id, 0⟩ = .ok p ∧
          (c.get? source = some p.inputBounds ∧
            AffineCode.ofBounds p.inputBounds config.bits = .ok p.inputCode) ∧
          (c.get? ⟨id, 0⟩ = some p.outputBounds ∧
            AffineCode.ofBounds p.outputBounds config.bits = .ok p.outputCode) ∧
          ∃ n₀ n₁ n₂, w.graph.node ((build cs).nodes.capacity + 3 * k) = .ok n₀ ∧
            w.graph.node ((build cs).nodes.capacity + 3 * k + 1) = .ok n₁ ∧
            w.graph.node ((build cs).nodes.capacity + 3 * k + 2) = .ok n₂ ∧
            n₀.op = .quantize p.inputCode ∧ n₁.op = .quantizedConv2d (p.fixedConv conv) ∧
            n₂.op = .dequantize p.outputCode) ∧
    ∀ node o w, (Engine.run [transform config]).run ⟨build cs, c, log⟩ =
        .error (.quantize node (.missingCalibration o)) w →
      ∃ id source, isLowerable (build cs) id ∧
        (build cs).producer ⟨id, 0⟩ = .ok (some source) ∧ (o = source ∨ o = ⟨id, 0⟩) ∧
        c.get? o = none := by
  have hg := wellFormed_build cs
  constructor
  · intro report w hrun
    obtain ⟨rs, hmap, hrep, hreached⟩ := run_eq_ok (w := ⟨build cs, c, log⟩) hg hrun
    have happ : report.applications = rs.map fun r => ⟨name, r.site.name⟩ := hrep.applications
    have hcount : (build cs).ids.length = (build cs).nodeCount :=
      (Arena.size_eq_length_handles _).symm
    have hvisited : report.visited = (build cs).nodeCount :=
      (hrep.visited.trans (Nat.zero_add _)).trans hcount
    have hnot : report.notMatched + rs.length = (build cs).nodeCount :=
      (hrep.notMatched.trans (Nat.zero_add _)).trans hcount
    rw [← hmap]
    refine ⟨?_, by rw [happ, List.length_map, List.length_map], hvisited, ?_, ?_⟩
    · rw [hmap]
      exact (List.pairwise_lt_range.filter _).filter _
    · rw [happ, List.length_map, ← hnot, Nat.add_sub_cancel]
    · intro k id hk
      rw [List.getElem?_map] at hk
      obtain ⟨r, hr, rfl⟩ := Option.map_eq_some_iff.1 hk
      have hmem := List.mem_of_getElem? hr
      have hsite := hreached.graph.sites r hmem
      have hp := hreached.table.derived r hmem
      obtain ⟨⟨hin, hout⟩, hicode, hocode, -⟩ := Parameters.derive_eq_ok.1 hp
      obtain ⟨n, hn, hname, hop⟩ := hsite.get?
      refine ⟨n, r.site.conv, r.site.source, r.parameters, node_eq_ok.2 hn, hop, ?_,
        producer_eq_ok_some.2 hsite.fed, hp, ⟨hin, hicode⟩, ⟨hout, hocode⟩, ?_⟩
      · rw [happ, List.getElem?_map, hr, hname]
        rfl
      · have hops := (hreached.graph.placed r hmem).ops
        rw [hreached.graph.places k r hr] at hops
        exact hops
  · intro node o w hrun
    rcases run_eq_error (w := ⟨build cs, c, log⟩) hg hrun with
      ⟨cause, hcause⟩ | ⟨s, cause, hs, hcause, hmissing⟩
    · cases hcause
    · cases hcause
      obtain ⟨hwhich, hnone⟩ := hmissing o rfl
      refine ⟨s.node, s.source, ?_, producer_eq_ok_some.2 hs.fed, hwhich, hnone⟩
      rw [isLowerable, hs.recognize_eq]
      rfl

/-- A convolution of one weight that adds one to every element. -/
def increment : FloatConv where
  weights := ⟨⟨1, 1, 1, 1⟩, #[.ofInt 1], rfl⟩
  bias := #[.ofInt 1]
  groups := 1
  vertical := ⟨⟨0, 0⟩, 1, 1⟩
  horizontal := ⟨⟨0, 0⟩, 1, 1⟩

/-- Two convolutions behind each other, the second created before the first. -/
def reversedChain : List Command :=
  let t : TensorType := ⟨.f32, [1, 1, 1, 1]⟩
  [.addInput "x" t, .addNode "second" (.conv2d increment) t, .addNode "first" (.conv2d increment) t,
    .connect ⟨2, 0⟩ ⟨0, 0⟩, .connect ⟨1, 0⟩ ⟨2, 0⟩, .addOutput "y" ⟨1, 0⟩,
    .setOutputAttributes ⟨0, 0⟩ .quantize, .setOutputAttributes ⟨1, 0⟩ .quantize,
    .setOutputAttributes ⟨2, 0⟩ .quantize]

/-- Ranges for the operand and the results of `reversedChain`. -/
def chainRanges : Calibration :=
  (({} : Calibration).insert ⟨0, 0⟩ ⟨.ofInt 0, .ofInt 1⟩).insert ⟨2, 0⟩ ⟨.ofInt 0, .ofInt 2⟩
    |>.insert ⟨1, 0⟩ ⟨.ofInt 0, .ofInt 4⟩

theorem run_reversedChain : ∃ report w,
    (Engine.run [transform {}]).run ⟨build reversedChain, chainRanges, []⟩ = .ok report w := by
  have hok : succeedsWith (fun _ _ => true)
      ((Engine.run [transform {}]).run ⟨build reversedChain, chainRanges, []⟩) := by
    decide +kernel
  obtain ⟨report, w, hrun, -⟩ := exists_of_succeedsWith hok
  exact ⟨report, w, hrun⟩

/-- The second convolution is replaced first, and its operand is coded by the range of
the first one's output. -/
theorem replacements_independent_reversedChain : ∃ report w,
    (Engine.run [transform {}]).run ⟨build reversedChain, chainRanges, []⟩ = .ok report w ∧
    report.visited = 4 ∧ report.applications[0]? = some ⟨name, "second"⟩ ∧
    ∃ p n, AffineCode.ofBounds ⟨.ofInt 0, .ofInt 2⟩ 8 = .ok p ∧ w.graph.node 4 = .ok n ∧
      n.op = .quantize p := by
  obtain ⟨report, w, hrun⟩ := run_reversedChain
  obtain ⟨-, -, hvisited, -, hall⟩ :=
    (replacements_independent reversedChain chainRanges {} []).1 report w hrun
  obtain ⟨n, conv, source, p, hn, -, happ, hsource, -, ⟨hrange, hcode⟩, -, n₀, -, -, hn₀, -, -,
    hop, -⟩ := hall 0 1 (by decide +kernel)
  have hname : ((build reversedChain).nodes.get? 1).map (·.name) = some "second" := by
    decide +kernel
  have hproducer : (build reversedChain).producer? ⟨1, 0⟩ = some ⟨2, 0⟩ := by decide +kernel
  have hbounds : chainRanges.get? ⟨2, 0⟩ = some ⟨.ofInt 0, .ofInt 2⟩ := by decide +kernel
  have hcount : (build reversedChain).nodeCount = 4 := by decide +kernel
  have hcapacity : (build reversedChain).nodes.capacity = 4 := by decide +kernel
  rw [node_eq_ok.1 hn] at hname
  cases hproducer.symm.trans (producer_eq_ok_some.1 hsource)
  rw [← Option.some.inj (hbounds.symm.trans hrange)] at hcode
  rw [hcapacity] at hn₀
  refine ⟨report, w, hrun, hvisited.trans hcount, ?_, p.inputCode, n₀, hcode, hn₀, hop⟩
  have hsecond : n.name = "second" := Option.some.inj hname
  rw [happ, hsecond]

end FixedNet.FixedPoint
