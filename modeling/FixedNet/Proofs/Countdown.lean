/-
**Counting down.** `topologicalOrder` counts for each node how many values it waits for.
The counts are taken at the inputs of the nodes, and they go down along the consumers that
the outputs list, so they are right only because both ends tell the same edges.

`schedule` is the order without counts: a node is ready if everything that feeds it is
done. The two are equal on every well-formed graph (`WellFormed.topologicalOrder_eq`).
`Counts` is the invariant that carries this through the loop, and it says of the inner loop
over the consumers as well what each count is: the number of connected inputs that no value
has reached. An input is reached once, so no count is taken below zero.
-/
import FixedNet.Proofs.Reachability
import Mathlib.Data.List.Nodup

set_option autoImplicit false

namespace FixedNet.Graph

variable {g : Graph}

/-! ## The order without counts -/

/-- Whether everything that feeds a node is done. -/
def isReady (g : Graph) (done : List NodeId) (id : NodeId) : Bool :=
  (g.feeders id).all (· ∈ done)

/-- Emits pending nodes one after another, each time the first that is ready,
until none is. -/
def schedule (g : Graph) (done pending : List NodeId) : List NodeId :=
  match _h : pending.find? (g.isReady done) with
  | none => []
  | some id => id :: schedule g (id :: done) (pending.erase id)
termination_by pending.length
decreasing_by
  have hmem := List.mem_of_find?_eq_some _h
  have := List.length_pos_of_mem hmem
  rw [List.length_erase_of_mem hmem]
  omega

theorem isReady_iff {done : List NodeId} {id : NodeId} :
    g.isReady done id = true ↔ ∀ a, g.Feeds a id → a ∈ done := by
  unfold isReady
  rw [List.all_eq_true]
  constructor
  · intro h a ha
    exact of_decide_eq_true (h a (mem_feeders.2 ha))
  · intro h a ha
    exact decide_eq_true (h a (mem_feeders.1 ha))

/-! ## Inputs that no value has reached -/

/-- The connected inputs of a node. -/
def connected (g : Graph) (id : NodeId) : List InputId :=
  match g.nodes.get? id with
  | some n =>
    ((List.range n.inputs.length).map (InputId.mk id)).filter fun i => (g.producer? i).isSome
  | none => []

/-- The connected inputs of a node, apart from those that a value has reached. -/
def unfed (g : Graph) (fed : List InputId) (id : NodeId) : List InputId :=
  (g.connected id).filter (· ∉ fed)

theorem mem_connected {id : NodeId} {i : InputId} :
    i ∈ g.connected id ↔ i.node = id ∧ ∃ o, g.producer? i = some o := by
  obtain ⟨node, k⟩ := i
  unfold connected
  cases hn : g.nodes.get? id with
  | none =>
    simp only [List.not_mem_nil, false_iff]
    rintro ⟨rfl, o, ho⟩
    obtain ⟨p, hp, -⟩ := producer?_eq_some.1 ho
    obtain ⟨n, hget, -⟩ := get?_of_inlet? hp
    cases hn.symm.trans hget
  | some n =>
    simp only [List.mem_filter, List.mem_map, List.mem_range, InputId.mk.injEq,
      Option.isSome_iff_exists]
    constructor
    · rintro ⟨⟨k', -, rfl, rfl⟩, ho⟩
      exact ⟨rfl, ho⟩
    · rintro ⟨rfl, o, ho⟩
      obtain ⟨p, hp, -⟩ := producer?_eq_some.1 ho
      obtain ⟨m, hm, hk⟩ := get?_of_inlet? hp
      cases hn.symm.trans hm
      exact ⟨⟨k, (List.getElem?_eq_some_iff.1 hk).1, rfl, rfl⟩, o, ho⟩

theorem nodup_connected (g : Graph) (id : NodeId) : (g.connected id).Nodup := by
  unfold connected
  cases g.nodes.get? id with
  | none => exact List.nodup_nil
  | some n =>
    refine (List.Nodup.map ?_ List.nodup_range).filter _
    intro k k' h
    cases h
    rfl

/-- There are as many connected inputs as producers. -/
theorem length_connected {id : NodeId} {n : Node} (hn : g.nodes.get? id = some n) :
    (g.connected id).length = n.producers.length := by
  have hlength : ∀ l : List Inlet,
      ((List.range l.length).filter fun k => ((l[k]?).bind (·.producer)).isSome).length =
        (l.filterMap (·.producer)).length := by
    intro l
    induction l with
    | nil => rfl
    | cons p l ih =>
      rw [List.length_cons, List.range_succ_eq_map, List.filter_cons, List.filter_map,
        List.filterMap_cons]
      have htail : (List.range l.length).filter
          ((fun k => (((p :: l)[k]?).bind (·.producer)).isSome) ∘ Nat.succ) =
            (List.range l.length).filter fun k => ((l[k]?).bind (·.producer)).isSome := rfl
      cases hp : p.producer with
      | none => simpa [hp, htail] using ih
      | some o => simpa [hp, htail] using ih
  have hproducer : ∀ k, g.producer? ⟨id, k⟩ = (n.inputs[k]?).bind (·.producer) := fun k => by
    rw [producer?, inlet?, hn, Option.bind_some]
  unfold connected
  simp only [hn, List.filter_map, List.length_map, Function.comp_def, hproducer]
  exact hlength n.inputs

theorem unfed_nil (g : Graph) (id : NodeId) : g.unfed [] id = g.connected id := by
  unfold unfed
  simp

/-- Nothing is left to wait for exactly if every connected input was reached. -/
theorem unfed_eq_nil {fed : List InputId} {id : NodeId} :
    g.unfed fed id = [] ↔ ∀ k o, g.producer? ⟨id, k⟩ = some o → InputId.mk id k ∈ fed := by
  unfold unfed
  simp only [List.filter_eq_nil_iff, mem_connected, decide_eq_true_eq, Classical.not_not]
  constructor
  · intro h k o ho
    exact h ⟨id, k⟩ ⟨rfl, o, ho⟩
  · rintro h ⟨node, k⟩ ⟨rfl, o, ho⟩
    exact h k o ho

theorem unfed_cons (g : Graph) (fed : List InputId) (i : InputId) (id : NodeId) :
    g.unfed (i :: fed) id = (g.unfed fed id).erase i := by
  unfold unfed
  rw [((g.nodup_connected id).filter _).erase_eq_filter, List.filter_filter]
  refine List.filter_congr fun j _ => ?_
  rw [Bool.eq_iff_iff]
  simp [not_or]

/-! ## The counts -/

/-- The state of the loop when the nodes `done` have been emitted and their values have
reached the inputs `fed`. -/
structure Counts (g : Graph) (nodes done : List NodeId) (fed : List InputId) (c : Countdown) :
    Prop where
  /-- A count is the number of connected inputs that no value has reached. -/
  waiting : ∀ x, c.waiting.lookup x = if x ∈ nodes then some (g.unfed fed x).length else none
  nodup : c.ready.Nodup
  /-- A node is ready if there is no such input and it has not been emitted. -/
  ready : ∀ x, x ∈ c.ready ↔ x ∈ nodes ∧ x ∉ done ∧ g.unfed fed x = []
  /-- Only ready nodes have been emitted. -/
  emitted : ∀ x ∈ done, g.unfed fed x = []

theorem lookup_countOff (l : List (NodeId × Nat)) (id x : NodeId) :
    (l.map fun e => if e.1 = id then (e.1, e.2 - 1) else e).lookup x =
      if x = id then (l.lookup x).map (· - 1) else l.lookup x := by
  induction l with
  | nil => simp
  | cons e l ih =>
    obtain ⟨y, m⟩ := e
    have hhead : (if y = id then (y, m - 1) else (y, m)) = (y, if y = id then m - 1 else m) := by
      split <;> rfl
    rw [List.map_cons, hhead, Calibration.lookup_cons_eq, ih, Calibration.lookup_cons_eq]
    by_cases hxy : x = y
    · subst hxy
      by_cases hx : x = id <;> simp [hx]
    · rw [if_neg hxy, if_neg hxy]

namespace Counts

variable {nodes done : List NodeId} {fed : List InputId} {c : Countdown}

/-- A value reaches an input that none has reached. There was a count for it. -/
theorem feed (h : Counts g nodes done fed c) {i : InputId} {o : OutputId}
    (hi : g.producer? i = some o) (hnew : i ∉ fed) :
    ∃ c', c.feed i.node = .ok c' ∧ Counts g nodes done (i :: fed) c' := by
  have hmem : i ∈ g.unfed fed i.node :=
    List.mem_filter.2 ⟨mem_connected.2 ⟨rfl, o, hi⟩, decide_eq_true hnew⟩
  have hother : ∀ x, x ≠ i.node → g.unfed (i :: fed) x = g.unfed fed x := by
    intro x hx
    rw [unfed_cons, List.erase_of_not_mem]
    exact fun hin => hx (mem_connected.1 (List.mem_filter.1 hin).1).1.symm
  have hdrop : ∀ x, g.unfed fed x = [] → g.unfed (i :: fed) x = [] := by
    intro x hx
    rw [unfed_cons, hx, List.erase_nil]
  obtain ⟨k, hk⟩ : ∃ k, (g.unfed fed i.node).length = k + 1 :=
    Nat.exists_eq_add_one.2 (List.length_pos_of_mem hmem)
  have hself : (g.unfed (i :: fed) i.node).length = k := by
    rw [unfed_cons, List.length_erase_of_mem hmem, hk, Nat.add_sub_cancel]
  by_cases hnode : i.node ∈ nodes
  · have hcount : c.waiting.lookup i.node = some (k + 1) := by
      rw [h.waiting, if_pos hnode, hk]
    refine ⟨_, by unfold Countdown.feed; rw [hcount], ?waiting, ?nodup, ?ready,
      fun x hx => hdrop x (h.emitted x hx)⟩
    case waiting =>
      intro x
      rw [lookup_countOff]
      by_cases hx : x = i.node
      · rw [if_pos hx, hx, hcount, if_pos hnode, hself]
        rfl
      · rw [if_neg hx, h.waiting, hother x hx]
    case nodup =>
      dsimp only
      split
      · exact h.nodup.insert
      · exact h.nodup
    case ready =>
      intro x
      by_cases hx : x = i.node
      · -- The node was not ready before, and it was not emitted either.
        subst hx
        have hwaited : g.unfed fed i.node ≠ [] := List.ne_nil_of_mem hmem
        have hnotReady : i.node ∉ c.ready := fun hin => hwaited ((h.ready _).1 hin).2.2
        have hnotDone : i.node ∉ done := fun hin => hwaited (h.emitted _ hin)
        rw [← List.length_eq_zero_iff, hself]
        by_cases hzero : k = 0
        · simp [hzero, hnode, hnotDone]
        · simp [hzero, hnotReady]
      · rw [hother x hx, ← h.ready]
        dsimp only
        split
        · simp [List.mem_insert_iff, hx]
        · rfl
  · refine ⟨c, by unfold Countdown.feed; rw [h.waiting, if_neg hnode], ?_, h.nodup, ?_,
      fun x hx => hdrop x (h.emitted x hx)⟩
    · intro x
      rw [h.waiting]
      by_cases hx : x ∈ nodes
      · rw [hother x fun hxi => hnode (hxi ▸ hx)]
      · rw [if_neg hx, if_neg hx]
    · intro x
      rw [h.ready]
      refine and_congr_right fun hx => ?_
      rw [hother x fun hxi => hnode (hxi ▸ hx)]

/-- Values reach inputs one after another. -/
theorem foldlM_feed {l : List InputId} (h : Counts g nodes done fed c) (hnodup : l.Nodup)
    (hconnected : ∀ i ∈ l, ∃ o, g.producer? i = some o) (hnew : ∀ i ∈ l, i ∉ fed) :
    ∃ c', l.foldlM (fun c i => c.feed i.node) c = .ok c' ∧
      Counts g nodes done (l.reverse ++ fed) c' := by
  induction l generalizing c fed with
  | nil => exact ⟨c, rfl, h⟩
  | cons i l ih =>
    obtain ⟨hi, hl⟩ := List.nodup_cons.1 hnodup
    obtain ⟨o, ho⟩ := hconnected i (List.mem_cons_self ..)
    obtain ⟨c₁, hfeed, h₁⟩ := h.feed ho (hnew i (List.mem_cons_self ..))
    have hnew₁ : ∀ j ∈ l, j ∉ i :: fed := by
      intro j hj hin
      rcases List.mem_cons.1 hin with rfl | hin
      · exact hi hj
      · exact hnew j (List.mem_cons_of_mem _ hj) hin
    obtain ⟨c', hrun, h'⟩ :=
      ih h₁ hl (fun j hj => hconnected j (List.mem_cons_of_mem _ hj)) hnew₁
    refine ⟨c', ?_, ?_⟩
    · rw [List.foldlM_cons, hfeed]
      exact hrun
    · rw [List.reverse_cons, List.append_assoc]
      exact h'

end Counts

/-! ## One node after another -/

/-- The inputs that the values of the nodes `done` reach. -/
def Reached (g : Graph) (done : List NodeId) (fed : List InputId) : Prop :=
  ∀ i, i ∈ fed ↔ ∃ o, g.producer? i = some o ∧ o.node ∈ done

/-- A node has all its values exactly if everything that feeds it is done. -/
theorem Reached.unfed_eq_nil {done : List NodeId} {fed : List InputId} (h : Reached g done fed)
    {id : NodeId} : g.unfed fed id = [] ↔ g.isReady done id = true := by
  rw [Graph.unfed_eq_nil, isReady_iff]
  constructor
  · rintro hall a ⟨k, o, ho, rfl⟩
    obtain ⟨o', ho', hdone⟩ := (h _).1 (hall k o ho)
    cases ho.symm.trans ho'
    exact hdone
  · intro hall k o ho
    exact (h _).2 ⟨o, ho, hall o.node ⟨k, o, ho, rfl⟩⟩

namespace WellFormed

variable (hg : WellFormed g) {id : NodeId} {n : Node}
include hg

/-- The inputs that a node lists as its consumers are those that it feeds. -/
theorem mem_consumers (hn : g.nodes.get? id = some n) {i : InputId} :
    i ∈ n.consumers ↔ ∃ o, g.producer? i = some o ∧ o.node = id := by
  constructor
  · intro hi
    obtain ⟨k, p, hp, -⟩ := hg.inlet?_of_mem_consumers hn hi
    exact ⟨⟨id, k⟩, hp, rfl⟩
  · rintro ⟨o, ho, rfl⟩
    obtain ⟨q, hq, hi⟩ := hg.outlet?_of_producer? ho
    obtain ⟨m, hm, hk⟩ := get?_of_outlet? hq
    cases hn.symm.trans hm
    exact List.mem_flatMap.2 ⟨q, List.mem_of_getElem? hk, hi⟩

/-- No input is listed twice, at one output or at two. -/
theorem nodup_consumers (hn : g.nodes.get? id = some n) : n.consumers.Nodup := by
  have houtlet : ∀ k, g.outlet? ⟨id, k⟩ = n.outputs[k]? := fun k => by
    rw [outlet?, hn, Option.bind_some]
  unfold Node.consumers
  rw [List.nodup_flatMap]
  refine ⟨fun q hq => ?_, List.pairwise_iff_getElem.2 fun k k' hk hk' hlt i hi hi' => ?_⟩
  · obtain ⟨k, hk⟩ := List.mem_iff_getElem?.1 hq
    exact hg.nodup ⟨id, k⟩ q ((houtlet k).trans hk)
  · have hp := hg.producer?_of_mem ((houtlet k).trans (List.getElem?_eq_getElem hk)) hi
    have hp' := hg.producer?_of_mem ((houtlet k').trans (List.getElem?_eq_getElem hk')) hi'
    cases hp.symm.trans hp'
    exact Nat.lt_irrefl k hlt

/-- A ready node is emitted. -/
theorem emit_ok {nodes done : List NodeId} {fed : List InputId} {c : Countdown}
    (hnodes : ∀ x ∈ nodes, g.contains x) (h : Counts g nodes done fed c)
    (hfed : Reached g done fed) (hid : id ∈ c.ready) :
    ∃ c' fed', g.emit c id = .ok c' ∧ Counts g nodes (id :: done) fed' c' ∧
      Reached g (id :: done) fed' := by
  obtain ⟨hmem, hnot, hempty⟩ := (h.ready id).1 hid
  obtain ⟨n, hn⟩ := (Arena.contains_iff _ _).1 (hnodes id hmem)
  have hstart : Counts g nodes (id :: done) fed { c with ready := c.ready.erase id } := by
    refine ⟨h.waiting, h.nodup.erase id, fun x => ?_, fun x hx => ?_⟩
    · rw [h.nodup.mem_erase_iff, h.ready, List.mem_cons, not_or]
      constructor
      · rintro ⟨hne, hx, hdone, hfree⟩
        exact ⟨hx, ⟨hne, hdone⟩, hfree⟩
      · rintro ⟨hx, ⟨hne, hdone⟩, hfree⟩
        exact ⟨hne, hx, hdone, hfree⟩
    · rcases List.mem_cons.1 hx with rfl | hx
      · exact hempty
      · exact h.emitted x hx
  -- The node is emitted for the first time, so its value has reached no input yet.
  have hnew : ∀ i ∈ n.consumers, i ∉ fed := by
    intro i hi hin
    obtain ⟨o, ho, rfl⟩ := (hg.mem_consumers hn).1 hi
    obtain ⟨o', ho', hdone⟩ := (hfed i).1 hin
    cases ho.symm.trans ho'
    exact hnot hdone
  obtain ⟨c', hrun, hc'⟩ := hstart.foldlM_feed (hg.nodup_consumers hn)
    (fun i hi => ((hg.mem_consumers hn).1 hi).imp fun o ho => ho.1) hnew
  refine ⟨c', n.consumers.reverse ++ fed, ?_, hc', fun i => ?_⟩
  · unfold emit
    rw [nodeAt_eq_ok.2 hn]
    exact hrun
  · rw [List.mem_append, List.mem_reverse, hg.mem_consumers hn, hfed]
    constructor
    · rintro (⟨o, ho, hnode⟩ | ⟨o, ho, hdone⟩)
      · exact ⟨o, ho, hnode ▸ List.mem_cons_self ..⟩
      · exact ⟨o, ho, List.mem_cons_of_mem _ hdone⟩
    · rintro ⟨o, ho, hdone⟩
      rcases List.mem_cons.1 hdone with hnode | hdone
      · exact .inl ⟨o, ho, hnode⟩
      · exact .inr ⟨o, ho, hdone⟩

end WellFormed

/-! ## The whole loop -/

theorem drain_of_empty {c : Countdown} (h : c.ready = []) : g.drain c = .ok [] := by
  rw [drain]
  split
  · rfl
  · next id hid =>
    rw [h] at hid
    cases hid

theorem drain_of_emit {c c' : Countdown} {id : NodeId} (hid : c.ready.min? = some id)
    (hc : g.emit c id = .ok c') {rest : List NodeId} (hrest : g.drain c' = .ok rest) :
    g.drain c = .ok (id :: rest) := by
  rw [drain]
  split
  · next hnone => cases hid.symm.trans hnone
  · next x hx =>
    cases hid.symm.trans hx
    split
    · next e he => cases hc.symm.trans he
    · next d hd =>
      cases hc.symm.trans hd
      rw [hrest]
      rfl

/-- The first node of a sorted list that passes a test is the least that does. -/
theorem le_of_find?_eq_some {l : List NodeId} (hl : l.Pairwise (· < ·)) {p : NodeId → Bool}
    {id : NodeId} (h : l.find? p = some id) {x : NodeId} (hx : x ∈ l) (hp : p x) : id ≤ x := by
  obtain ⟨-, before, after, rfl, hbefore⟩ := List.find?_eq_some_iff_append.1 h
  rcases List.mem_append.1 hx with hx | hx
  · have hfail := hbefore x hx
    simp [hp] at hfail
  · rcases List.mem_cons.1 hx with rfl | hx
    · exact Nat.le_refl _
    · exact Nat.le_of_lt ((List.pairwise_cons.1 (List.pairwise_append.1 hl).2.1).1 x hx)

/-- **The counts put nodes in order.** The loop that counts emits the nodes of the schedule,
and no count is taken below zero on the way. -/
theorem WellFormed.drain_eq (hg : WellFormed g) {nodes : List NodeId}
    (hnodes : ∀ x ∈ nodes, g.contains x) {done pending : List NodeId} {fed : List InputId}
    {c : Countdown} (h : Counts g nodes done fed c) (hfed : Reached g done fed)
    (hsorted : pending.Pairwise (· < ·)) (hpending : ∀ x, x ∈ pending ↔ x ∈ nodes ∧ x ∉ done) :
    g.drain c = .ok (g.schedule done pending) := by
  have hready : ∀ (done pending : List NodeId) (fed : List InputId) (c : Countdown),
      Counts g nodes done fed c → Reached g done fed →
      (∀ x, x ∈ pending ↔ x ∈ nodes ∧ x ∉ done) →
      ∀ x, x ∈ c.ready ↔ x ∈ pending ∧ g.isReady done x = true := by
    intro done pending fed c h hfed hpending x
    rw [h.ready, hpending, ← hfed.unfed_eq_nil, and_assoc]
  -- Along the schedule. Its pending nodes are those that the loop has not emitted.
  fun_induction schedule g done pending generalizing fed c with
  | case1 done pending hnone =>
    refine drain_of_empty (List.eq_nil_iff_forall_not_mem.2 fun x hx => ?_)
    obtain ⟨hmem, hisReady⟩ := (hready done pending fed c h hfed hpending x).1 hx
    exact List.find?_eq_none.1 hnone x hmem hisReady
  | case2 done pending id hsome ih =>
    have hiff := hready done pending fed c h hfed hpending
    have hmem : id ∈ pending := List.mem_of_find?_eq_some hsome
    have hmin : c.ready.min? = some id := by
      refine List.min?_eq_some_iff.2 ⟨(hiff id).2 ⟨hmem, List.find?_some hsome⟩, fun x hx => ?_⟩
      exact le_of_find?_eq_some hsorted hsome ((hiff x).1 hx).1 ((hiff x).1 hx).2
    obtain ⟨c', fed', hemit, h', hfed'⟩ :=
      hg.emit_ok hnodes h hfed (List.min?_mem hmin)
    refine drain_of_emit hmin hemit (ih h' hfed' (hsorted.sublist List.erase_sublist) fun x => ?_)
    have hnodup : pending.Nodup := hsorted.imp fun hlt => Nat.ne_of_lt hlt
    rw [hnodup.mem_erase_iff, hpending, List.mem_cons, not_or]
    constructor
    · rintro ⟨hne, hx, hnot⟩
      exact ⟨hx, hne, hnot⟩
    · rintro ⟨hx, hne, hnot⟩
      exact ⟨hne, hx, hnot⟩

/-- At the start every connected input is waited for. -/
theorem countdown_ok {nodes : List NodeId} (hnodup : nodes.Nodup)
    (hnodes : ∀ x ∈ nodes, g.contains x) :
    ∃ c, g.countdown nodes = .ok c ∧ Counts g nodes [] [] c := by
  have hcount : ∀ id ∈ nodes, (do return (id, (← g.nodeAt id).producers.length) :
      Except GraphError (NodeId × Nat)) = .ok (id, (g.connected id).length) := by
    intro id hid
    obtain ⟨n, hn⟩ := (Arena.contains_iff _ _).1 (hnodes id hid)
    rw [nodeAt_eq_ok.2 hn, length_connected hn]
    rfl
  have hrun : g.countdown nodes = .ok
      ⟨nodes.map fun id => (id, (g.connected id).length),
        nodes.filter fun id => (g.connected id).length = 0⟩ := by
    unfold countdown
    rw [mapM_eq_ok hcount]
    simp [bind, Except.bind, pure, Except.pure, List.filter_map, Function.comp_def]
  refine ⟨_, hrun, fun x => ?waiting, hnodup.filter _, fun x => ?ready,
    fun x hx => absurd hx List.not_mem_nil⟩
  case waiting => rw [Calibration.lookup_map_pair fun id => (g.connected id).length, unfed_nil]
  case ready =>
    rw [unfed_nil, List.mem_filter]
    simp

/-- **The order as a schedule.** On a well-formed graph the order of the counts is the
schedule of the reachable nodes, if all of them are in it. -/
theorem WellFormed.topologicalOrder_eq (hg : WellFormed g) {live : List NodeId}
    (hlive : g.reachable = .ok live) :
    g.topologicalOrder =
      if (g.schedule [] live).length = live.length then .ok (g.schedule [] live)
      else .error (.cycle (g.schedule [] live).length live.length) := by
  obtain ⟨hsub, hmem⟩ := hg.reachable_eq_ok hlive
  have hnodes : ∀ x ∈ live, g.contains x := fun x hx => hg.contains_of_needed ((hmem x).1 hx)
  obtain ⟨c, hstart, hcounts⟩ := countdown_ok (hsub.nodup g.ids_nodup) hnodes
  have hreached : Reached g [] [] := fun i => by simp
  have hdrain : g.drain c = .ok (g.schedule [] live) :=
    hg.drain_eq hnodes hcounts hreached (g.ids_sorted.sublist hsub) fun x => by simp
  unfold topologicalOrder
  rw [hlive]
  simp only [bind, Except.bind, hstart, hdrain, ne_eq, ite_not]
  split
  · rfl
  · rfl

end FixedNet.Graph
