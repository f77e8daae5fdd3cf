/-
**Lowering a marked graph is complete.** Marking flags what feeds a convolution and what it
yields, so every convolution that something feeds is recognised afterwards. Lowering
replaces them all, and since a replaced convolution feeds nothing any more, the sweep
takes it. What is left of the convolutions are those that nothing feeds, and of these
the needed ones.

* `Reflagged`: marking adds flags and changes nothing else.
* `isLowerable_of_marked`: after marking, every convolution that something feeds is
  recognised.
* `Rewritten.conv2d_of_sweep`: a convolution that is left after all replacements and a
  sweep is one of the initial graph that was not recognised there.
-/
import FixedNet.Proofs.Lowering

set_option autoImplicit false

namespace FixedNet

open FixedNet.Graph FixedNet.FixedPoint

/-! ## Marking -/

/-- The second graph is the first with further flags. -/
structure Graph.Reflagged (g g' : Graph) : Prop where
  declaration : ∀ id, g'.declaration? id = g.declaration? id
  producer : ∀ i, g'.producer? i = g.producer? i
  flags : ∀ o, isFlagged g o → isFlagged g' o
  outputs : g'.outputs = g.outputs

theorem FixedPoint.isFlagged_iff {g : Graph} {o : OutputId} :
    isFlagged g o ↔ ∃ q, g.outlet? o = some q ∧ q.attributes.contains .quantize := by
  rw [isFlagged_eq, Option.any_map, Option.any_eq_true]

namespace Graph

variable {g g' : Graph}

theorem outlet?_markOutput (g : Graph) (o r : OutputId) :
    (g.markOutput o).outlet? r = if o = r then
      (g.outlet? r).map fun p => { p with attributes := p.attributes.union .quantize }
    else g.outlet? r := outlet?_modifyOutput g o _ r

theorem isFlagged_markOutput {o : OutputId} {q : Outlet} (hq : g.outlet? o = some q) :
    isFlagged (g.markOutput o) o := by
  rw [isFlagged_iff, outlet?_markOutput, if_pos rfl, hq]
  exact ⟨_, rfl, by simp [Attributes.contains, Attributes.union, Attributes.quantize]⟩

namespace Reflagged

theorem refl (g : Graph) : Reflagged g g := ⟨fun _ => rfl, fun _ => rfl, fun _ h => h, rfl⟩

theorem trans {g'' : Graph} (h : Reflagged g g') (h' : Reflagged g' g'') : Reflagged g g'' where
  declaration id := (h'.declaration id).trans (h.declaration id)
  producer i := (h'.producer i).trans (h.producer i)
  flags o ho := h'.flags o (h.flags o ho)
  outputs := h'.outputs.trans h.outputs

theorem markOutput (g : Graph) (o : OutputId) : Reflagged g (g.markOutput o) where
  declaration := declaration?_modifyOutput g o fun _ => rfl
  producer i := by
    unfold Graph.markOutput producer?
    rw [inlet?_modifyOutput]
  flags r hr := by
    obtain ⟨q, hq, hflag⟩ := isFlagged_iff.1 hr
    by_cases heq : o = r
    · subst heq
      exact isFlagged_markOutput hq
    · rw [isFlagged_iff, outlet?_markOutput, if_neg heq]
      exact ⟨q, hq, hflag⟩
  outputs := rfl

theorem markNode (g : Graph) (id : NodeId) : Reflagged g (g.markNode id) where
  declaration := declaration?_modifyNode g id fun _ => rfl
  producer i := by
    have hin : (g.markNode id).inlet? i = g.inlet? i := by
      apply inlet?_modifyNode
      intro n
      rfl
    rw [producer?, hin]
    rfl
  flags r hr := by
    have hout : (g.markNode id).outlet? r = g.outlet? r := by
      apply outlet?_modifyNode
      intro n
      rfl
    rw [isFlagged_eq] at hr ⊢
    rw [hout]
    exact hr
  outputs := rfl

theorem foldl_markOutput (g : Graph) (l : List OutputId) :
    Reflagged g (l.foldl Graph.markOutput g) := by
  induction l generalizing g with
  | nil => exact refl g
  | cons o l ih => exact (markOutput g o).trans (ih _)

theorem foldl_markNode (g : Graph) (l : List (NodeId × Node)) :
    Reflagged g (l.foldl (fun g e => g.markNode e.1) g) := by
  induction l generalizing g with
  | nil => exact refl g
  | cons e l ih => exact (markNode g e.1).trans (ih _)

theorem mark (r : Region) (g : Graph) : Reflagged g (r.mark g).graph := by
  rw [r.mark_eq]
  exact (foldl_markOutput g _).trans (foldl_markNode _ _)

variable (h : Reflagged g g')
include h

theorem feeds_iff {a b : NodeId} : g'.Feeds a b ↔ g.Feeds a b := by
  unfold Feeds
  simp only [h.producer]

theorem contains_iff {id : NodeId} : g'.contains id ↔ g.contains id := by
  rw [Graph.contains_iff, Graph.contains_iff, h.declaration]

theorem needed_iff {id : NodeId} : g'.Needed id ↔ g.Needed id := by
  constructor
  · intro hid
    exact hid.mono (fun x hx => h.outputs ▸ hx) (fun x => h.contains_iff.1) fun a b => h.feeds_iff.1
  · intro hid
    exact hid.mono (fun x hx => h.outputs.symm ▸ hx) (fun x => h.contains_iff.2)
      fun a b => h.feeds_iff.2

end Reflagged

/-- All outputs of the list are flagged in the end: one that is flagged stays so. -/
theorem isFlagged_foldl_markOutput {l : List OutputId} {o : OutputId} {q : Outlet} (ho : o ∈ l)
    (hq : g.outlet? o = some q) : isFlagged (l.foldl Graph.markOutput g) o := by
  induction l generalizing g q with
  | nil => exact absurd ho List.not_mem_nil
  | cons x l ih =>
    by_cases hx : o = x
    · subst hx
      exact (Reflagged.foldl_markOutput _ l).flags o (isFlagged_markOutput hq)
    · have hrest := (List.mem_cons.1 ho).resolve_left hx
      have hkept : (g.markOutput x).outlet? o = some q := by
        rw [outlet?_markOutput, if_neg (Ne.symm hx), hq]
      exact ih hrest hkept

end Graph

/-- Around a selected node everything is listed: what feeds it and what it yields. -/
theorem Region.mem_surroundings {r : Region} {g : Graph} {id : NodeId} {n : Node}
    (hn : g.nodes.get? id = some n) (hkind : n.kind ∈ r.kinds) {o : OutputId}
    (ho : o ∈ n.producers ++ (List.range n.outputs.length).map (OutputId.mk id)) :
    o ∈ r.surroundings g := by
  refine List.mem_flatMap.2 ⟨(id, n), List.mem_filter.2 ⟨Arena.mem_entries.2 hn, ?_⟩, ho⟩
  exact decide_eq_true hkind

theorem Region.isFlagged_mark {r : Region} {g : Graph} {o : OutputId} {q : Outlet}
    (ho : o ∈ r.surroundings g) (hq : g.outlet? o = some q) : isFlagged (r.mark g).graph o := by
  rw [r.mark_eq]
  exact (Reflagged.foldl_markNode _ _).flags o (isFlagged_foldl_markOutput ho hq)

/-- **Marking makes every convolution that something feeds one to be lowered.** -/
theorem isLowerable_of_marked {g : Graph} (hg : g.WellFormed) {id : NodeId} {n : Node}
    (hn : g.nodes.get? id = some n) (hkind : n.kind = .conv2d) {o : OutputId}
    (ho : g.producer? ⟨id, 0⟩ = some o) : isLowerable (({} : Region).mark g).graph id := by
  have hmark := Reflagged.mark {} g
  have hselected : n.kind ∈ ({} : Region).kinds := by
    rw [hkind]
    exact List.mem_singleton.2 rfl
  obtain ⟨conv, t, u, hd⟩ := declaration?_of_conv2d hg hn hkind
  obtain ⟨q, hq, -⟩ := hg.outlet?_of_producer? ho
  obtain ⟨r, hr, -⟩ := outlet?_of_type (o := ⟨id, 0⟩) hd rfl
  obtain ⟨n', hn', hindex⟩ := get?_of_outlet? hr
  cases hn.symm.trans hn'
  have hsource : o ∈ n.producers := (mem_producers hn).2 ⟨0, ho⟩
  have houtput : (⟨id, 0⟩ : OutputId) ∈ (List.range n.outputs.length).map (OutputId.mk id) :=
    List.mem_map.2 ⟨0, List.mem_range.2 (List.getElem?_eq_some_iff.1 hindex).1, rfl⟩
  have hlisted := fun {o} => Region.mem_surroundings (o := o) hn hselected
  have hsite : IsSite (({} : Region).mark g).graph ⟨id, n.name, conv, t, o⟩ :=
    { declared := ⟨u, (hmark.declaration id).trans hd⟩
      fed := (hmark.producer _).trans ho
      sourceFlagged := Region.isFlagged_mark (hlisted (List.mem_append_left _ hsource)) hq
      flagged := Region.isFlagged_mark (hlisted (List.mem_append_right _ houtput)) hr }
  rw [isLowerable, hsite.recognize_eq]
  rfl

/-! ## What is left of the convolutions -/

namespace FixedPoint

/-- The nodes of a replacement are no convolutions of numbers. -/
theorem Placed.kind_ne_conv2d {g : Graph} {r : Replacement} (h : Placed g r) {k : Nat}
    (hk : k < 3) {d : Declaration} (hd : g.declaration? (r.base + k) = some d) :
    d.op.kind ≠ .conv2d := by
  obtain ⟨sourceName, v, -, hdecl⟩ := h.declared
  rw [hdecl k hk] at hd
  match k, hk with
  | 0, _ =>
    cases hd
    exact nofun
  | 1, _ =>
    cases hd
    exact nofun
  | 2, _ =>
    cases hd
    exact nofun

/-- A convolution that is left after all replacements and a sweep is needed, and it is one
that was not recognised in the initial graph. -/
theorem Rewritten.conv2d_of_sweep {g₀ g₁ : Graph} {rs : List Replacement}
    (hg₀ : g₀.WellFormed) (h : Rewritten g₀ rs g₁)
    (hsites : rs.map (·.site.node) = g₀.ids.filter (isLowerable g₀))
    (hacc : ∀ id, g₀.Needed id → Acc g₀.Feeds id) {s : DeadNodes.Outcome}
    (hs : DeadNodes.sweep g₁ = .ok s) {id : NodeId} {d : Declaration}
    (hd : s.graph.declaration? id = some d) (hkind : d.op.kind = .conv2d) :
    g₁.Needed id ∧ g₀.declaration? id = some d ∧ ¬ isLowerable g₀ id := by
  have hd₁ := (h.wellFormed.pruned_of_sweep hs).declared id d hd
  have hneeded : g₁.Needed id := by
    -- A sweep spares graph inputs, and this is none.
    rcases h.wellFormed.sweep_clean hs hd with hneeded | hinput
    · exact hneeded
    · rw [hkind] at hinput
      cases hinput
  refine ⟨hneeded, ?_⟩
  obtain ⟨x, horigin, hx⟩ := h.needed_origin hg₀ hacc hneeded
  cases horigin with
  | same hkept =>
    rw [h.old id (hg₀.lt_capacity_of_needed hx)] at hd₁
    refine ⟨hd₁, fun hlow => ?_⟩
    -- All that are recognised were replaced, and this one was not.
    have hmem : id ∈ rs.map (·.site.node) := by
      rw [hsites, List.mem_filter]
      exact ⟨Arena.mem_handles.2 (hg₀.contains_of_needed hx), hlow⟩
    obtain ⟨r, hr, hnode⟩ := List.mem_map.1 hmem
    exact hkept r hr hnode
  | part hr hk => exact absurd hkind ((h.placed _ hr).kind_ne_conv2d hk hd₁)

end FixedPoint

theorem Graph.WellFormed.mark {g : Graph} (hg : g.WellFormed) (r : Region) :
    (r.mark g).graph.WellFormed := ((persists_follows g).mark (.refl hg) r).wellFormed

/-- Marking leaves the order of the nodes alone. -/
theorem Region.topologicalOrder_mark (r : Region) {g : Graph} (hg : g.WellFormed) :
    (r.mark g).graph.topologicalOrder = g.topologicalOrder := by
  have hmark := Reflagged.mark r g
  exact hg.topologicalOrder_congr (hg.mark r) (fun id => hmark.needed_iff)
    fun a id _ => hmark.feeds_iff

section Marked

variable {g : Graph} (hg : g.WellFormed) {g₁ : Graph} {rs : List Replacement}
  (h : Rewritten (({} : Region).mark g).graph rs g₁) {s : DeadNodes.Outcome}
  (hs : DeadNodes.sweep g₁ = .ok s)
include h hs

/-- An old node that is left is declared as it was. -/
theorem declaration?_of_sweep {id : NodeId} {n : Node} (hn : g.nodes.get? id = some n)
    {d : Declaration} (hd : s.graph.declaration? id = some d) : d = n.declaration := by
  have hmark := Reflagged.mark {} g
  have hold := (hmark.declaration id).trans (declaration?_of_get? hn)
  have hd₁ := (h.wellFormed.pruned_of_sweep hs).declared id d hd
  rw [h.old id (lt_capacity_of_declaration? hold), hold] at hd₁
  exact (Option.some.inj hd₁).symm

variable (hsites : rs.map (·.site.node) =
    (({} : Region).mark g).graph.ids.filter (isLowerable (({} : Region).mark g).graph))
  (horder : ∃ order, g.topologicalOrder = .ok order)
include hg hsites horder

/-- Nothing fed a convolution that is left, and nothing feeds it. -/
theorem unfed_of_sweep {id : NodeId} {d : Declaration} (hd : s.graph.declaration? id = some d)
    (hkind : d.op.kind = .conv2d) :
    s.graph.Needed id ∧ g.producer? ⟨id, 0⟩ = none ∧ s.graph.producer? ⟨id, 0⟩ = none := by
  have hmark := Reflagged.mark {} g
  have hg₀ := hg.mark {}
  have hacc := hg₀.topologicalOrder_ok_iff.1 (by rwa [Region.topologicalOrder_mark {} hg])
  obtain ⟨hneeded, hd₀, hnot⟩ := h.conv2d_of_sweep hg₀ hsites hacc hs hd hkind
  have hpruned := h.wellFormed.pruned_of_sweep hs
  have hunfed : g.producer? ⟨id, 0⟩ = none := by
    rw [hmark.declaration] at hd₀
    obtain ⟨n, hn, rfl⟩ := declaration?_eq_some.1 hd₀
    -- If something fed it, marking would have made it one to be lowered.
    refine Option.eq_none_iff_forall_ne_some.2 fun o ho => hnot ?_
    exact isLowerable_of_marked hg hn hkind ho
  refine ⟨hpruned.needed_iff.2 hneeded, hunfed, ?_⟩
  rw [hpruned.producer ⟨id, 0⟩ hneeded, h.moved ⟨id, 0⟩ (lt_capacity_of_declaration? hd₀),
    hmark.producer, hunfed]
  rfl

end Marked

/-- **Lowering a marked graph is complete.** Take a graph built by any sequence of operations
that has a topological order, mark it, and lower it with any table and any limits. If
this succeeds, then each convolution of numbers that is left is needed by an output of the
graph, and nothing feeds it. So every convolution that something fed is gone. -/
theorem lowering_complete (cs : List Command) (c : Calibration) (config : CodeLimits)
    (log : List LogLine) (order : List NodeId) (report : Engine.Report)
    (w : EngineState Calibration) (horder : (build cs).topologicalOrder = .ok order)
    (hrun : (lower config).run ⟨(({} : Region).mark (build cs)).graph, c, log⟩ = .ok report w) :
    (∀ id n, w.graph.node id = .ok n → n.kind = .conv2d →
      (∃ live, w.graph.reachable = .ok live ∧ id ∈ live) ∧
        w.graph.producer ⟨id, 0⟩ = .ok none) ∧
    ∀ id n o, (build cs).node id = .ok n → n.kind = .conv2d →
      (build cs).producer ⟨id, 0⟩ = .ok (some o) → w.graph.node id = .error (.badHandle id) := by
  have hg := wellFormed_build cs
  have hg₀ := hg.mark {}
  obtain ⟨rs, w₁, s, hsites, hreached, hs, hgraph⟩ :=
    lower_parts (w := ⟨(({} : Region).mark (build cs)).graph, c, log⟩) hg₀ hrun
  have hpruned := hreached.graph.wellFormed.pruned_of_sweep hs
  have hrewritten : Rewritten (({} : Region).mark (build cs)).graph rs w₁.graph := hreached.graph
  have hunfed : ∀ {id d}, s.graph.declaration? id = some d → d.op.kind = .conv2d → _ :=
    unfed_of_sweep hg hrewritten hs hsites ⟨order, horder⟩
  rw [hgraph]
  constructor
  · intro id n hn hkind
    have hd := declaration?_of_get? (node_eq_ok.1 hn)
    obtain ⟨hneeded, -, hnone⟩ := hunfed hd hkind
    obtain ⟨live, hlive, -, hmem⟩ := hpruned.wellFormed.reachable_ok
    have hop : n.op ≠ .input := by
      intro hop
      rw [Node.kind, hop] at hkind
      cases hkind
    obtain ⟨p, hp⟩ := hpruned.wellFormed.inlet?_zero hd hop
    rw [producer?, hp] at hnone
    exact ⟨⟨live, hlive, (hmem id).2 hneeded⟩, producer_eq_ok.2 ⟨p, hp, hnone⟩⟩
  · intro id n o hn hkind ho
    cases hleft : s.graph.nodes.get? id with
    | none =>
      unfold Graph.node
      rw [hleft]
    | some n' =>
      -- It would be a convolution that is left, and nothing fed those.
      have hd := declaration?_of_get? hleft
      have hsame := declaration?_of_sweep hreached.graph hs (node_eq_ok.1 hn) hd
      obtain ⟨-, hnone, -⟩ := hunfed hd (hsame ▸ hkind)
      rw [producer_eq_ok_some.1 ho] at hnone
      cases hnone

/-- A chain of two convolutions, and a third one that nothing feeds before an output of its
own. -/
def looseChain : List Command :=
  reversedChain ++
    [.addNode "loose" (.conv2d increment) ⟨.f32, [1, 1, 1, 1]⟩, .addOutput "z" ⟨4, 0⟩]

/-- Something feeds the two convolutions of the chain. -/
theorem fed_looseChain {id : NodeId} (hid : id = 1 ∨ id = 2) :
    ∃ n o, (build looseChain).node id = .ok n ∧ n.kind = .conv2d ∧
      (build looseChain).producer ⟨id, 0⟩ = .ok (some o) := by
  have hview : ((build looseChain).declaration? id).map (·.op.kind) = some .conv2d ∧
      ((build looseChain).producer? ⟨id, 0⟩).isSome := by
    rcases hid with rfl | rfl
    · decide +kernel
    · decide +kernel
  obtain ⟨d, hd, hkind⟩ := Option.map_eq_some_iff.1 hview.1
  obtain ⟨o, ho⟩ := Option.isSome_iff_exists.1 hview.2
  obtain ⟨n, hn, rfl⟩ := declaration?_eq_some.1 hd
  exact ⟨n, o, node_eq_ok.2 hn, hkind, producer_eq_ok_some.2 ho⟩

theorem topologicalOrder_looseChain :
    ∃ order, (build looseChain).topologicalOrder = .ok order := by
  have hedges : ∀ b ∈ (build looseChain).ids, ∀ a ∈ (build looseChain).feeders b,
      [0, 2, 1, 3, 0, 1].getD a 0 < [0, 2, 1, 3, 0, 1].getD b 0 := by
    decide +kernel
  exact (wellFormed_build _).topologicalOrder_ok_iff.2 fun id _ => acc_of_rank _ hedges id

/-- The chain is lowered, and the convolution that nothing feeds is left. -/
theorem lower_looseChain : ∃ report w,
    (lower {}).run ⟨(({} : Region).mark (build looseChain)).graph, chainRanges, []⟩ =
      .ok report w ∧ ∃ n, w.graph.node 4 = .ok n ∧ n.kind = .conv2d := by
  have hok : succeedsWith (fun _ w₁ => 5 ∈ w₁.graph.outputs ∧ w₁.graph.contains 5 ∧
      4 ∈ w₁.graph.feeders 5 ∧ (w₁.graph.declaration? 4).map (·.op.kind) = some .conv2d)
      ((Engine.run [transform {}]).run
        ⟨(({} : Region).mark (build looseChain)).graph, chainRanges, []⟩) := by decide +kernel
  obtain ⟨report, w₁, hengine, htest⟩ := exists_of_succeedsWith hok
  obtain ⟨hout, hcontains, hfeeds, hkind⟩ := of_decide_eq_true htest
  obtain ⟨w, hw, hpruned⟩ := lower_of_run ((wellFormed_build looseChain).mark {}) hengine
  -- It is needed before the sweep, so the sweep keeps it.
  have hneeded : w₁.graph.Needed 4 := .feeds (.output hout hcontains) (mem_feeders.1 hfeeds)
  obtain ⟨d, hd, hconv⟩ := Option.map_eq_some_iff.1 hkind
  rw [← hpruned.kept 4 hneeded] at hd
  obtain ⟨n, hn, rfl⟩ := declaration?_eq_some.1 hd
  exact ⟨report, w, hw, n, node_eq_ok.2 hn, hconv⟩

theorem lowering_complete_looseChain : ∃ order report w live,
    (build looseChain).topologicalOrder = .ok order ∧
      (lower {}).run ⟨(({} : Region).mark (build looseChain)).graph, chainRanges, []⟩ =
        .ok report w ∧
      (w.graph.reachable = .ok live ∧ 4 ∈ live ∧ w.graph.producer ⟨4, 0⟩ = .ok none) ∧
      w.graph.node 1 = .error (.badHandle 1) ∧ w.graph.node 2 = .error (.badHandle 2) := by
  obtain ⟨order, horder⟩ := topologicalOrder_looseChain
  obtain ⟨report, w, hlower, n, hn, hkind⟩ := lower_looseChain
  obtain ⟨hleft, hgone⟩ :=
    lowering_complete looseChain chainRanges {} [] order report w horder hlower
  obtain ⟨⟨live, hlive, hmem⟩, hunfed⟩ := hleft 4 n hn hkind
  obtain ⟨n₁, o₁, hn₁, hkind₁, ho₁⟩ := fed_looseChain (.inl rfl)
  obtain ⟨n₂, o₂, hn₂, hkind₂, ho₂⟩ := fed_looseChain (.inr rfl)
  exact ⟨order, report, w, live, horder, hlower, ⟨hlive, hmem, hunfed⟩,
    hgone 1 n₁ o₁ hn₁ hkind₁ ho₁, hgone 2 n₂ o₂ hn₂ hkind₂ ho₂⟩

end FixedNet
