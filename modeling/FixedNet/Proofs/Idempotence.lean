/-
**Lowering twice.** A graph is *settled* if no convolution is recognised in it and nothing
in it is dead but graph inputs. Lowering ends in a settled graph, and on a settled graph
it does nothing, so it is idempotent.

* `Settled.run_lower`: on a settled graph the engine passes every node over, and the
  sweep finds nothing to remove.
* `settled_of_lower`: what lowering leaves is settled. A convolution that is left was not
  recognised in the initial graph; replacements make no match, and a sweep makes none
  either, since it takes edges and flags away and adds none.
-/
import FixedNet.Proofs.Completeness

set_option autoImplicit false

namespace FixedNet

open FixedNet.Graph FixedNet.FixedPoint

/-! ## Settled graphs -/

/-- There is nothing to lower in the graph and nothing to remove from it. -/
structure Graph.Settled (g : Graph) : Prop where
  wellFormed : g.WellFormed
  unmatched : ∀ id, recognize g id = none
  clean : ∀ id d, g.declaration? id = some d → g.Needed id ∨ d.op.kind = .input

namespace FixedPoint

variable (config : CodeLimits) {w : EngineState Calibration}

/-- Nodes of which none is recognised are passed over. -/
theorem run_visits_of_none (hnone : ∀ id, recognize w.graph id = none) {ids : List NodeId}
    (hids : ∀ id ∈ ids, w.graph.contains id) (report : Engine.Report) :
    (ids.foldlM (Engine.visit [transform config]) report).run w =
      .ok { report with
        visited := report.visited + ids.length
        notMatched := report.notMatched + ids.length } w := by
  induction ids generalizing report with
  | nil => rfl
  | cons id ids ih =>
    obtain ⟨n, hn⟩ := (Arena.contains_iff _ _).1 (hids id (List.mem_cons_self ..))
    rw [List.foldlM_cons, EStateM.run_bind, run_visit_of_none report hn (hnone id)]
    dsimp only
    rw [ih (fun x hx => hids x (List.mem_cons_of_mem _ hx)), List.length_cons, Nat.add_assoc,
      Nat.add_assoc, Nat.add_comm 1]

/-- A run of the engine that replaces nothing. -/
theorem run_engine_of_none (hnone : ∀ id, recognize w.graph id = none) :
    ∃ log, (Engine.run [transform config]).run w =
      .ok ⟨[], w.graph.nodeCount, w.graph.nodeCount⟩ ⟨w.graph, w.state, log⟩ := by
  have hids : ∀ id ∈ w.graph.ids, w.graph.contains id := fun id hid => Arena.mem_handles.1 hid
  have hvisits := run_visits_of_none config hnone hids {}
  have hcount : w.graph.ids.length = w.graph.nodeCount :=
    (Arena.size_eq_length_handles _).symm
  simp only [Nat.zero_add, hcount] at hvisits
  unfold Engine.run
  rw [run_get_bind, EStateM.run_bind, hvisits]
  exact ⟨_, rfl⟩

end FixedPoint

namespace Graph.Settled

variable {g : Graph} (h : g.Settled)
include h

/-- **A settled graph is left as it is**, with any table and any limits. -/
theorem run_lower (config : CodeLimits) (c : Calibration) (log : List LogLine) :
    ∃ log', (lower config).run ⟨g, c, log⟩ =
      .ok ⟨[], g.nodeCount, g.nodeCount⟩ ⟨g, c, log'⟩ := by
  obtain ⟨log₁, hengine⟩ :=
    run_engine_of_none config (w := ⟨g, c, log⟩) h.unmatched
  unfold lower
  rw [EStateM.run_bind, hengine]
  dsimp only
  rw [run_get_bind]
  dsimp only
  rw [h.wellFormed.sweep_of_clean h.clean]
  exact ⟨_, rfl⟩

end Graph.Settled

/-! ## What lowering leaves -/

/-- Removing nodes flags nothing. -/
theorem isFlagged_of_sweep {g : Graph} (hg : g.WellFormed) {s : DeadNodes.Outcome}
    (hs : DeadNodes.sweep g = .ok s) {o : OutputId} (h : isFlagged s.graph o) :
    isFlagged g o := by
  obtain ⟨live, -, hwithout⟩ := hg.without_of_sweep hs
  obtain ⟨q', hq', hflag⟩ := isFlagged_iff.1 h
  obtain ⟨q, hq, rfl⟩ := hwithout.outlet?_of_some hq'
  exact isFlagged_iff.2 ⟨q, hq, hflag⟩

/-- A sweep makes no match. -/
theorem isSite_of_sweep {g : Graph} (hg : g.WellFormed) {s : DeadNodes.Outcome}
    (hs : DeadNodes.sweep g = .ok s) {site : Site} (hneeded : g.Needed site.node)
    (hsite : IsSite s.graph site) : IsSite g site := by
  have hpruned := hg.pruned_of_sweep hs
  obtain ⟨u, hu⟩ := hsite.declared
  exact
    { declared := ⟨u, hpruned.declared _ _ hu⟩
      fed := (hpruned.producer ⟨site.node, 0⟩ hneeded).symm.trans hsite.fed
      sourceFlagged := isFlagged_of_sweep hg hs hsite.sourceFlagged
      flagged := isFlagged_of_sweep hg hs hsite.flagged }

/-- **Lowering leaves a settled graph.** -/
theorem settled_of_lower {config : CodeLimits} {w w' : EngineState Calibration}
    {report : Engine.Report} (hg : w.graph.WellFormed)
    (hacc : ∀ id, w.graph.Needed id → Acc w.graph.Feeds id)
    (hrun : (lower config).run w = .ok report w') : w'.graph.Settled := by
  obtain ⟨rs, w₁, s, hsites, hreached, hs, hgraph⟩ := lower_parts hg hrun
  have hg₁ := hreached.graph.wellFormed
  have hpruned := hg₁.pruned_of_sweep hs
  rw [hgraph]
  refine ⟨hpruned.wellFormed, fun id => ?unmatched, fun id d hd => ?clean⟩
  case unmatched =>
    cases hm : recognize s.graph id with
    | none => rfl
    | some m =>
      -- The convolution would be recognised before the sweep, and so in the initial graph.
      obtain ⟨site, hsite, rfl⟩ := site_of_recognize hpruned.wellFormed hm
      obtain ⟨u, hu⟩ := hsite.declared
      obtain ⟨hneeded, hd₀, hnot⟩ := hreached.graph.conv2d_of_sweep hg hsites hacc hs hu rfl
      refine absurd ?_ hnot
      rw [isLowerable, ← hreached.graph.recognize_isSome hg (lt_capacity_of_declaration? hd₀),
        (isSite_of_sweep hg₁ hs hneeded hsite).recognize_eq]
      rfl
  case clean =>
    rcases hg₁.sweep_clean hs hd with hneeded | hinput
    · exact .inl (hpruned.needed_iff.2 hneeded)
    · exact .inr hinput

/-- **Lowering is idempotent.** Take a graph built by any sequence of operations that has a
topological order, and lower it with any table and any limits. If this succeeds, then
lowering the result again, with the table that came out and any limits, succeeds too: no
node is matched, nothing is replaced, and graph and table stay as they are. -/
theorem lowering_idempotent (cs : List Command) (c : Calibration) (config : CodeLimits)
    (log : List LogLine) (order : List NodeId) (report : Engine.Report)
    (w : EngineState Calibration) (horder : (build cs).topologicalOrder = .ok order)
    (hrun : (lower config).run ⟨build cs, c, log⟩ = .ok report w) (config' : CodeLimits)
    (log' : List LogLine) :
    ∃ log'', (lower config').run ⟨w.graph, w.state, log'⟩ =
      .ok ⟨[], w.graph.nodeCount, w.graph.nodeCount⟩ ⟨w.graph, w.state, log''⟩ := by
  have hg := wellFormed_build cs
  have hacc := hg.topologicalOrder_ok_iff.1 ⟨order, horder⟩
  have hsettled := settled_of_lower (w := ⟨build cs, c, log⟩) hg hacc hrun
  exact hsettled.run_lower config' w.state log'

/-- Both convolutions of the chain are replaced, and in a second run with fewer bits
none. -/
theorem lowering_idempotent_reversedChain : ∃ order report w log,
    (build reversedChain).topologicalOrder = .ok order ∧
      (lower {}).run ⟨build reversedChain, chainRanges, []⟩ = .ok report w ∧
      report.applications.length = 2 ∧
      (lower { bits := 4 }).run ⟨w.graph, w.state, []⟩ =
        .ok ⟨[], w.graph.nodeCount, w.graph.nodeCount⟩ ⟨w.graph, w.state, log⟩ := by
  have hg := wellFormed_build reversedChain
  have hruns := evaluable_reversedChain (fun _ => some ⟨[1, 1, 1, 1], #[.ofInt 1], rfl⟩) rfl rfl
  obtain ⟨order, horder⟩ := hg.topologicalOrder_ok_iff.2 hruns.acyclic
  have hok : succeedsWith (fun report _ => report.applications.length = 2)
      ((Engine.run [transform {}]).run ⟨build reversedChain, chainRanges, []⟩) := by
    decide +kernel
  obtain ⟨report, w₁, hengine, hcount⟩ := exists_of_succeedsWith hok
  obtain ⟨w, hlower⟩ := lower_ok hg hengine
  obtain ⟨log, hagain⟩ := lowering_idempotent reversedChain chainRanges {} [] order report w horder
    hlower { bits := 4 } []
  exact ⟨order, report, w, log, horder, hlower, of_decide_eq_true hcount, hagain⟩

end FixedNet
