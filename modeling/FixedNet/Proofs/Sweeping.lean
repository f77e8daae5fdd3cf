/-
**Removing dead nodes.** A dead node is not designated, so the sweep removes all of them,
one after the other, and none is refused (`foldl_step`). The swept graph is therefore
the graph `Without` its dead nodes (`sweep_spec`), and the rest follows from that.

* `Pruned g g'` says that `g'` is `g` without some nodes that are not needed. The needed
  nodes keep their declarations and their edges, so they stay needed, the graph evaluates
  as before, and the same tensors are on its edges.
* An evaluation reads of a graph the declarations and the edges of needed nodes and
  nothing else, so a sweep changes no evaluation, whether it succeeds or fails.
* A sweep is thorough: apart from graph inputs it leaves needed nodes only
  (`sweep_clean`), and so a second sweep finds nothing (`sweep_of_clean`).
-/
import FixedNet.Proofs.Dataflow
import FixedNet.Proofs.Removal

set_option autoImplicit false

namespace FixedNet

/-! ## The sweep -/

section Dead

variable {g : Graph} {live : List NodeId}

theorem mem_dead {id : NodeId} :
    id ∈ DeadNodes.dead g live ↔
      ∃ n, g.nodes.get? id = some n ∧ id ∉ live ∧ n.kind ≠ .input := by
  unfold DeadNodes.dead
  rw [List.mem_map]
  constructor
  · rintro ⟨⟨k, n⟩, hk, rfl⟩
    obtain ⟨hentry, hdead⟩ := List.mem_filter.1 hk
    exact ⟨n, Arena.mem_entries.1 hentry, of_decide_eq_true hdead⟩
  · rintro ⟨n, hn, hdead⟩
    exact ⟨(id, n), List.mem_filter.2 ⟨Arena.mem_entries.2 hn, decide_eq_true hdead⟩, rfl⟩

theorem nodup_dead : (DeadNodes.dead g live).Nodup := by
  have hids : g.nodes.entries.map (·.1) = g.ids := Arena.map_fst_entries g.nodes
  have hsub : (DeadNodes.dead g live).Sublist g.ids := by
    rw [← hids]
    exact List.filter_sublist.map _
  exact hsub.nodup g.ids_nodup

end Dead

namespace Graph.WellFormed

/-- Nodes that are not designated are removed one after the other, and none is refused. -/
theorem foldl_step {l : List NodeId} (hl : l.Nodup) {s : DeadNodes.Outcome}
    (hg : s.graph.WellFormed) (hfree : ∀ id ∈ l, ∃ n, s.graph.nodes.get? id = some n ∧
      n.kind ≠ .input ∧ n.kind ≠ .output) :
    ∃ g', l.foldl DeadNodes.step s = { s with graph := g', removed := s.removed + l.length } ∧
      g'.WellFormed ∧ s.graph.Without l g' := by
  induction l generalizing s with
  | nil => exact ⟨s.graph, rfl, hg, .refl _⟩
  | cons id l ih =>
    obtain ⟨hid, hl⟩ := List.nodup_cons.1 hl
    obtain ⟨n, hn, hin, hout⟩ := hfree id (List.mem_cons_self ..)
    have hnone : ¬ (id ∈ s.graph.inputs ∨ id ∈ s.graph.outputs) := by
      rw [hg.designated_iff hn, not_or]
      exact ⟨hin, hout⟩
    have hstep : DeadNodes.step s id =
        { s with graph := (s.graph.isolate id n).dropNode id, removed := s.removed + 1 } := by
      unfold DeadNodes.step
      rw [hg.run_removeNode hn hnone]
    have hwithout := hg.without_remove hn
    rw [not_or] at hnone
    -- The nodes that are still to go are there and of their kinds.
    have hrest : ∀ x ∈ l, ∃ m, ((s.graph.isolate id n).dropNode id).nodes.get? x = some m ∧
        m.kind ≠ .input ∧ m.kind ≠ .output := by
      intro x hx
      obtain ⟨m, hm, hkind⟩ := hfree x (List.mem_cons_of_mem _ hx)
      have hne : x ∉ [id] := by
        rw [List.mem_singleton]
        rintro rfl
        exact hid hx
      exact ⟨m.without [id], by rw [hwithout.node, if_neg hne, hm, Option.map_some], hkind⟩
    obtain ⟨g', hfold, hg', hthen⟩ := ih hl (s := { s with
      graph := (s.graph.isolate id n).dropNode id, removed := s.removed + 1 })
      (hg.remove hn hnone.1 hnone.2) hrest
    refine ⟨g', ?_, hg', hwithout.trans hthen⟩
    rw [List.foldl_cons, hstep, hfold, List.length_cons, Nat.add_assoc, Nat.add_comm 1]

variable {g : Graph} (hg : g.WellFormed) {live : List NodeId} (hlive : g.reachable = .ok live)
include hg hlive

theorem not_needed_of_mem_dead {id : NodeId} (hid : id ∈ DeadNodes.dead g live) :
    ¬ g.Needed id := by
  obtain ⟨-, hmem⟩ := hg.reachable_eq_ok hlive
  obtain ⟨n, -, hnot, -⟩ := mem_dead.1 hid
  exact fun hneeded => hnot ((hmem id).2 hneeded)

/-- **The sweep removes the dead nodes**, all of them and no others, and says how many. -/
theorem sweep_spec :
    ∃ g', DeadNodes.sweep g = .ok
        { graph := g'
          removed := (DeadNodes.dead g live).length
          log := if (DeadNodes.dead g live).length = 0 then [] else
            [⟨.debug, s!"dce: removed {(DeadNodes.dead g live).length} nodes"⟩] } ∧
      g'.WellFormed ∧ g.Without (DeadNodes.dead g live) g' := by
  have hfree : ∀ id ∈ DeadNodes.dead g live, ∃ n, g.nodes.get? id = some n ∧
      n.kind ≠ .input ∧ n.kind ≠ .output := by
    intro id hid
    obtain ⟨n, hn, -, hin⟩ := mem_dead.1 hid
    refine ⟨n, hn, hin, fun hout => hg.not_needed_of_mem_dead hlive hid ?_⟩
    exact hg.needed_of_output (hg.outputs_eq ▸ mem_ofKind.2 ⟨n, hn, hout⟩)
  obtain ⟨g', hfold, hg', hwithout⟩ := foldl_step (s := { graph := g }) nodup_dead hg hfree
  refine ⟨g', ?_, hg', hwithout⟩
  unfold DeadNodes.sweep
  rw [hlive]
  simp only [bind, Except.bind, hfold, Nat.zero_add]
  split
  · rfl
  · rfl

end Graph.WellFormed

/-- A graph without some nodes that are not needed. -/
structure Graph.Pruned (g g' : Graph) : Prop where
  wellFormed : g'.WellFormed
  declared : ∀ id d, g'.declaration? id = some d → g.declaration? id = some d
  kept : ∀ id, g.Needed id → g'.declaration? id = g.declaration? id
  producer : ∀ i : InputId, g.Needed i.node → g'.producer? i = g.producer? i
  outputs : g'.outputs = g.outputs

theorem Graph.Without.pruned {g g' : Graph} {dead : List NodeId} (h : g.Without dead g')
    (hg' : g'.WellFormed) (hdead : ∀ id ∈ dead, ¬ g.Needed id) : g.Pruned g' := by
  have hkept : ∀ id, g.Needed id → id ∉ dead := fun id hid hmem => hdead id hmem hid
  refine ⟨hg', fun id d hd => ?declared, fun id hid => ?kept, fun i hi => ?producer, h.outputs⟩
  case declared =>
    rw [h.declaration?] at hd
    split at hd
    · cases hd
    · exact hd
  case kept => rw [h.declaration?, if_neg (hkept id hid)]
  case producer =>
    rw [h.producer? (hkept _ hi)]
    cases hp : g.producer? i with
    | none => rfl
    | some o =>
      -- What feeds a needed node is needed, so it is not among the nodes that go.
      have ho : o.node ∉ dead := hkept _ (.feeds hi ⟨i.index, o, hp, rfl⟩)
      simp [ho]

namespace Graph.WellFormed

variable {g : Graph} (hg : g.WellFormed)
include hg

/-- A sweep of a well-formed graph succeeds and takes dead nodes only. -/
theorem sweep_ok : ∃ s, DeadNodes.sweep g = .ok s ∧ g.Pruned s.graph := by
  obtain ⟨live, hlive, -⟩ := hg.reachable_ok
  obtain ⟨g', hs, hg', hwithout⟩ := hg.sweep_spec hlive
  exact ⟨_, hs, hwithout.pruned hg' fun _ => hg.not_needed_of_mem_dead hlive⟩

variable {s : DeadNodes.Outcome} (hs : DeadNodes.sweep g = .ok s)
include hs

theorem without_of_sweep :
    ∃ live, g.reachable = .ok live ∧ g.Without (DeadNodes.dead g live) s.graph := by
  obtain ⟨live, hlive, -⟩ := hg.reachable_ok
  obtain ⟨g', hs', -, hwithout⟩ := hg.sweep_spec hlive
  cases hs.symm.trans hs'
  exact ⟨live, hlive, hwithout⟩

theorem pruned_of_sweep : g.Pruned s.graph := by
  obtain ⟨s', hs', hpruned⟩ := hg.sweep_ok
  cases hs.symm.trans hs'
  exact hpruned

end Graph.WellFormed

/-! ## What a sweep keeps -/

namespace Graph.Pruned

variable {g g' : Graph} (h : Pruned g g')
include h

theorem needed_iff {id : NodeId} : g'.Needed id ↔ g.Needed id := by
  constructor
  · intro hid
    induction hid with
    | output hout hc =>
      obtain ⟨d, hd⟩ := contains_iff.1 hc
      exact .output (h.outputs ▸ hout) (contains_iff.2 ⟨d, h.declared _ d hd⟩)
    | feeds _ hf ih =>
      obtain ⟨k, o, hk, rfl⟩ := hf
      rw [h.producer _ ih] at hk
      exact .feeds ih ⟨k, o, hk, rfl⟩
  · intro hid
    induction hid with
    | output hout hc =>
      refine .output (h.outputs.symm ▸ hout) (contains_iff.2 ?_)
      rw [h.kept _ (.output hout hc)]
      exact contains_iff.1 hc
    | feeds hb hf ih =>
      obtain ⟨k, o, hk, rfl⟩ := hf
      rw [← h.producer _ hb] at hk
      exact .feeds ih ⟨k, o, hk, rfl⟩

theorem evaluable {feed : Feed} (hg : g.Evaluable feed) : g'.Evaluable feed where
  acyclic id hid := by
    have hacc := hg.acyclic id (h.needed_iff.1 hid)
    induction hacc with
    | intro id _ ih =>
      refine .intro id fun a ha => ?_
      have ha' := Needed.feeds hid ha
      obtain ⟨k, o, hk, rfl⟩ := ha
      rw [h.producer _ (h.needed_iff.1 hid)] at hk
      exact ih o.node ⟨k, o, hk, rfl⟩ ha'
  runnable id d hid hd := hg.runnable id d (h.needed_iff.1 hid) (h.declared id d hd)
  connected id d hid hd hop := by
    have hneeded := h.needed_iff.1 hid
    rw [h.producer _ hneeded]
    exact hg.connected id d hneeded (h.declared id d hd) hop

theorem delivers_eq (hg : g.WellFormed) (name : String) (id : NodeId) :
    g'.delivers name id = g.delivers name id := by
  rw [Bool.eq_iff_iff]
  constructor
  · intro hid
    obtain ⟨d, hd, hop⟩ := (Option.any_eq_true _ _).1 hid
    exact (Option.any_eq_true _ _).2 ⟨d, h.declared id d hd, hop⟩
  · intro hid
    rw [delivers, h.kept id (hg.needed_of_delivers hid).2]
    exact hid

theorem carries {feed : Feed} {sem : Semantics} {o : OutputId} {v : Value}
    (hv : g'.Carries feed sem o v) (ho : g.Needed o.node) : g.Carries feed sem o v := by
  induction hv with
  | fed hd hop ht => exact .fed (h.declared _ _ hd) hop ht
  | computed hd hin hout hprod _ hy ih =>
    rw [h.producer _ ho] at hprod
    exact .computed (h.declared _ _ hd) hin hout hprod (ih (.feeds ho ⟨0, _, hprod, rfl⟩)) hy

end Graph.Pruned

/-! ## Evaluations before and after -/

namespace Graph.Pruned

variable {g g' : Graph} (h : Pruned g g')
include h

theorem feeds_iff {a id : NodeId} (hid : g.Needed id) : g'.Feeds a id ↔ g.Feeds a id := by
  have hproducer : ∀ k, g'.producer? ⟨id, k⟩ = g.producer? ⟨id, k⟩ := fun k =>
    h.producer ⟨id, k⟩ hid
  unfold Feeds
  simp only [hproducer]

theorem topologicalOrder_eq (hg : g.WellFormed) : g'.topologicalOrder = g.topologicalOrder :=
  hg.topologicalOrder_congr h.wellFormed (fun _ => h.needed_iff) fun _ _ hid => h.feeds_iff hid

theorem trace_eq (hg : g.WellFormed) (feed : Feed) : g'.trace feed = g.trace feed :=
  hg.trace_congr (h.topologicalOrder_eq hg) (fun id hid => ⟨h.kept id hid, h.producer ⟨id, 0⟩ hid⟩)
    feed

end Graph.Pruned

/-- **Dead nodes do not matter.** On a graph built by any sequence of operations a sweep
succeeds, and the swept graph evaluates as the graph did, whatever it is fed: in the same
order, to the same tensors on the same connectors and the same outputs under their
names, or to the same error. -/
theorem sweep_preserves_evaluation (cs : List Command) (feed : Feed) :
    ∃ s, DeadNodes.sweep (build cs) = .ok s ∧
      s.graph.topologicalOrder = (build cs).topologicalOrder ∧
      s.graph.trace feed = (build cs).trace feed := by
  have hg := wellFormed_build cs
  obtain ⟨s, hs, hpruned⟩ := hg.sweep_ok
  exact ⟨s, hs, hpruned.topologicalOrder_eq hg, hpruned.trace_eq hg feed⟩

/-! ## What a sweep leaves -/

namespace Graph.WellFormed

variable {g : Graph} (hg : g.WellFormed)
include hg

/-- **A sweep is thorough.** Only needed nodes and graph inputs are left. -/
theorem sweep_clean {s : DeadNodes.Outcome} (hs : DeadNodes.sweep g = .ok s) {id : NodeId}
    {d : Declaration} (hd : s.graph.declaration? id = some d) :
    g.Needed id ∨ d.op.kind = .input := by
  obtain ⟨live, hlive, hwithout⟩ := hg.without_of_sweep hs
  obtain ⟨-, hmem⟩ := hg.reachable_eq_ok hlive
  rw [hwithout.declaration?] at hd
  split at hd
  · cases hd
  · next hnot =>
    obtain ⟨n, hn, rfl⟩ := declaration?_eq_some.1 hd
    rw [mem_dead, not_exists] at hnot
    by_cases hid : id ∈ live
    · exact .inl ((hmem id).1 hid)
    · exact .inr (Classical.byContradiction fun hkind => hnot n ⟨hn, hid, hkind⟩)

/-- A graph without dead nodes is left as it is. -/
theorem sweep_of_clean
    (hclean : ∀ id d, g.declaration? id = some d → g.Needed id ∨ d.op.kind = .input) :
    DeadNodes.sweep g = .ok { graph := g } := by
  obtain ⟨live, hlive, -, hmem⟩ := hg.reachable_ok
  have hnone : DeadNodes.dead g live = [] := by
    refine List.eq_nil_iff_forall_not_mem.2 fun id hid => ?_
    obtain ⟨n, hn, hdead, hkind⟩ := mem_dead.1 hid
    rcases hclean id _ (declaration?_of_get? hn) with hneeded | hinput
    · exact hdead ((hmem id).2 hneeded)
    · exact hkind hinput
  refine except_bind_eq_ok.2 ⟨live, hlive, ?_⟩
  rw [hnone]
  rfl

end Graph.WellFormed

/-! ## The swept graph, node by node -/

/-- If all that the removed nodes fed is removed with them, then a node that is left keeps
its inputs, and its outputs keep the consumers that are left. -/
theorem Graph.Without.node_left {g g' : Graph} {dead : List NodeId} (h : g.Without dead g')
    (hg : g.WellFormed) (hclosed : ∀ a b, g.Feeds a b → a ∈ dead → b ∈ dead) {id : NodeId}
    {n' : Node} (hn' : g'.nodes.get? id = some n') :
    ∃ n, g.nodes.get? id = some n ∧ n' = { n with
      outputs := n.outputs.map fun q =>
        { q with consumers := q.consumers.filter (g'.contains ·.node) } } := by
  have hid : id ∉ dead := (h.contains_iff.1 ((Arena.contains_iff _ _).2 ⟨n', hn'⟩)).1
  rw [h.node, if_neg hid] at hn'
  obtain ⟨n, hn, rfl⟩ := Option.map_eq_some_iff.1 hn'
  have hinputs : (n.without dead).inputs = n.inputs := by
    refine (List.map_congr_left fun p hp => ?_).trans (List.map_id _)
    obtain ⟨k, hk⟩ := List.mem_iff_getElem?.1 hp
    have hi : g.inlet? ⟨id, k⟩ = some p := by rw [inlet?, hn, Option.bind_some, hk]
    have hkeep : p.producer.filter (·.node ∉ dead) = p.producer := by
      cases ho : p.producer with
      | none => rfl
      | some o =>
        have hf : g.Feeds o.node id := ⟨k, o, producer?_eq_some.2 ⟨p, hi, ho⟩, rfl⟩
        exact Option.filter_some_eq_some.2 (decide_eq_true (mt (hclosed _ _ hf) hid))
    rw [hkeep, id_eq]
  have houtputs : (n.without dead).outputs = n.outputs.map fun q =>
      { q with consumers := q.consumers.filter (g'.contains ·.node) } := by
    refine List.map_congr_left fun q hq => ?_
    obtain ⟨k, hk⟩ := List.mem_iff_getElem?.1 hq
    have ho : g.outlet? ⟨id, k⟩ = some q := by rw [outlet?, hn, Option.bind_some, hk]
    congr 1
    refine List.filter_congr fun i hi => ?_
    -- A consumer is there before the removal, so it is there afterwards unless it is removed.
    have hthere : g.contains i.node := contains_of_producer? (hg.producer?_of_mem ho hi)
    rw [Bool.eq_iff_iff, decide_eq_true_eq, h.contains_iff]
    exact (and_iff_left hthere).symm
  exact ⟨n, hn, by rw [← hinputs, ← houtputs]; rfl⟩

namespace Graph.WellFormed

variable {g : Graph} (hg : g.WellFormed) {live : List NodeId} (hlive : g.reachable = .ok live)
include hg hlive

/-- What a dead node feeds is dead. -/
theorem mem_dead_of_feeds {a id : NodeId} (hf : g.Feeds a id) (ha : a ∈ DeadNodes.dead g live) :
    id ∈ DeadNodes.dead g live := by
  obtain ⟨-, hmem⟩ := hg.reachable_eq_ok hlive
  have hneeded : ¬ g.Needed id := fun hid => hg.not_needed_of_mem_dead hlive ha (.feeds hid hf)
  obtain ⟨k, o, ho, rfl⟩ := hf
  obtain ⟨p, hp, -⟩ := producer?_eq_some.1 ho
  obtain ⟨n, hn, -⟩ := get?_of_inlet? hp
  obtain ⟨-, hop, -⟩ := hg.index_of_inlet? hp (declaration?_of_get? hn)
  exact mem_dead.2 ⟨n, hn, fun hid => hneeded ((hmem id).1 hid), mt Op.eq_input_of_kind hop⟩

end Graph.WellFormed

/-- **A sweep removes exactly the dead nodes.** On a graph built by any sequence of operations
a sweep succeeds.

* A node is left if it is reached from the outputs or if it is a graph input.
* The sweep tells how many nodes are gone. All it logs is this number, if it is not zero:
  no removal is refused.
* A node that is left is as it was, its inputs included, except that its outputs list only
  those of their consumers that are left, in the same order.
* The same nodes are designated and the same nodes are reached.
* A second sweep removes nothing, logs nothing and changes nothing. -/
theorem sweep_exact (cs : List Command) :
    ∃ live s, (build cs).reachable = .ok live ∧ DeadNodes.sweep (build cs) = .ok s ∧
      (∀ id, s.graph.contains id ↔
        ∃ n, (build cs).node id = .ok n ∧ (id ∈ live ∨ n.kind = .input)) ∧
      s.removed = ((build cs).ids.filter (¬ s.graph.contains ·)).length ∧
      s.log = (if s.removed = 0 then [] else
        [⟨.debug, s!"dce: removed {s.removed} nodes"⟩]) ∧
      (∀ id n', s.graph.node id = .ok n' → ∃ n, (build cs).node id = .ok n ∧
        n' = { n with
          outputs := n.outputs.map fun q =>
            { q with consumers := q.consumers.filter (s.graph.contains ·.node) } }) ∧
      s.graph.inputs = (build cs).inputs ∧ s.graph.outputs = (build cs).outputs ∧
      s.graph.reachable = .ok live ∧ DeadNodes.sweep s.graph = .ok { graph := s.graph } := by
  have hg := wellFormed_build cs
  obtain ⟨live, hlive, -⟩ := hg.reachable_ok
  obtain ⟨g', hs, hg', hwithout⟩ := hg.sweep_spec hlive
  have hpruned := hg.pruned_of_sweep hs
  have hclean : ∀ id d, g'.declaration? id = some d → g'.Needed id ∨ d.op.kind = .input :=
    fun id d hd => (hg.sweep_clean hs hd).imp_left hpruned.needed_iff.2
  refine ⟨live, _, hlive, hs, fun id => ?left, ?count, rfl, fun id n' hn' => ?node,
    hwithout.inputs, hwithout.outputs, ?reached, hg'.sweep_of_clean hclean⟩
  case left =>
    rw [hwithout.contains_iff, mem_dead, Graph.contains, Arena.contains_iff]
    simp only [Graph.node_eq_ok]
    cases (build cs).nodes.get? id with
    | none => simp
    | some n => simp [Decidable.or_iff_not_imp_left]
  case count =>
    refine List.Perm.length_eq ?_
    rw [List.perm_ext_iff_of_nodup nodup_dead ((build cs).ids_nodup.filter _)]
    intro id
    rw [List.mem_filter, decide_eq_true_eq, hwithout.contains_iff]
    constructor
    · intro hid
      obtain ⟨n, hn, -⟩ := mem_dead.1 hid
      exact ⟨Arena.mem_handles.2 ((Arena.contains_iff _ _).2 ⟨n, hn⟩), fun h => h.1 hid⟩
    · rintro ⟨hid, hgone⟩
      exact Classical.byContradiction fun hnot => hgone ⟨hnot, Arena.mem_handles.1 hid⟩
  case node =>
    obtain ⟨n, hn, heq⟩ := hwithout.node_left hg (fun a b => hg.mem_dead_of_feeds hlive)
      (Graph.node_eq_ok.1 hn')
    exact ⟨n, Graph.node_eq_ok.2 hn, heq⟩
  case reached => rw [hg.reachable_congr hg' fun _ => hpruned.needed_iff, hlive]

end FixedNet
