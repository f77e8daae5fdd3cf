/-
**The turns of a run.** The engine takes the nodes of a graph one after the other. It is
said here what it asks and what it changes at the turn of each node, for transforms of which
nothing is assumed: recognising may depend on everything and remember what it was asked,
and applying may change the graph in any way or fail.

A `Turn` records the questions about a node, with the match that each transform was handed
and what it answered, and the one change that followed, if any. `Served` says which records
are right. At the turn of a node one of three things happens:

* the node is gone, and nobody is asked;
* all transforms for its kind are asked in the order of the registry, and none matches;
* they are asked up to the first that matches, and this one is applied to what it captured.

A run is a sequence of turns, each of which starts where the one before it ended
(`Turns`). Since transforms may remember every call, the states that are passed on show that
no call was made beside the recorded ones.
-/
import FixedNet.Proofs.Order
import FixedNet.Proofs.Rewriting

set_option autoImplicit false

namespace FixedNet

open FixedNet.Graph

namespace Engine

variable {σ : Type}

/-! ## Records -/

/-- A transform was asked about a node: the match that it was handed, whether the node roots
its pattern, and the match as it left it. -/
structure Question (σ : Type) where
  transform : Transform σ
  context : Match
  matched : Bool
  captured : Match

/-- A transform was applied: the match that it was handed, the name of the node before, and how
it ended. -/
structure Change (σ : Type) where
  transform : Transform σ
  context : Match
  name : String
  outcome : EStateM.Result EngineError (EngineState σ) Unit

/-- The turn of a node: what the engine works on when it comes and when it is over, and the
calls in between. -/
structure Turn (σ : Type) where
  node : NodeId
  start : EngineState σ
  questions : List (Question σ)
  change : Option (Change σ)
  finish : EngineState σ

namespace Turn

/-- The node is there when its turn comes. -/
def live (t : Turn σ) : Bool := t.start.graph.contains t.node

/-- The error that ended the turn. -/
def error? (t : Turn σ) : Option EngineError := t.change.bind fun c => errorOf? c.outcome

/-- What a report says of the turn. -/
def application? (t : Turn σ) : Option Application :=
  t.change.map fun c => ⟨c.transform.name, c.name⟩

end Turn

/-! ## Right records -/

/-- Transforms were asked about a node one after the other and answered so. What they keep
beside the graph may change with each answer, and the graph does not. -/
inductive Answered (g : Graph) (id : NodeId) : σ → List (Question σ) → σ → Prop
  | nil (s : σ) : Answered g id s [] s
  | cons {s s' s'' : σ} {q : Question σ} {qs : List (Question σ)}
      (answer : (q.transform.recognize g id q.context).run s = ((q.matched, q.captured), s'))
      (rest : Answered g id s' qs s'') : Answered g id s (q :: qs) s''

/-- The line in the log that tells of a match. -/
def announcement (t : Transform σ) (id : NodeId) (n : Node) : LogLine :=
  ⟨.debug, t.name ++ ": matched " ++ Handle.text id ++ s!" '{n.name}'"⟩

/-- The turn of a node was one of three. -/
inductive Served (r : Registry σ) : Turn σ → Prop
  | gone {id : NodeId} {w : EngineState σ} (absent : w.graph.nodes.get? id = none) :
      Served r ⟨id, w, [], none, w⟩
  | unmatched {id : NodeId} {w : EngineState σ} {n : Node} {qs : List (Question σ)} {s : σ}
      (present : w.graph.nodes.get? id = some n)
      (answered : Answered w.graph id w.state qs s)
      (fresh : ∀ q ∈ qs, q.context = {})
      (refused : ∀ q ∈ qs, q.matched = false)
      (asked : qs.map (·.transform) = r.filter (n.kind ∈ ·.kinds)) :
      Served r ⟨id, w, qs, none, { w with state := s }⟩
  | changed {id : NodeId} {w : EngineState σ} {n : Node} {qs : List (Question σ)} {s : σ}
      {q : Question σ} {outcome : EStateM.Result EngineError (EngineState σ) Unit}
      (present : w.graph.nodes.get? id = some n)
      (answered : Answered w.graph id w.state (qs ++ [q]) s)
      (fresh : ∀ p ∈ qs ++ [q], p.context = {})
      (refused : ∀ p ∈ qs, p.matched = false)
      (matched : q.matched = true)
      (asked : (qs ++ [q]).map (·.transform) <+: r.filter (n.kind ∈ ·.kinds))
      (applied : (q.transform.apply q.captured).run
        { w with state := s, log := w.log ++ [announcement q.transform id n] } = outcome) :
      Served r ⟨id, w, qs ++ [q], some ⟨q.transform, q.captured, n.name, outcome⟩,
        finalState outcome⟩

/-- Turns that follow one another. -/
inductive Turns (r : Registry σ) : EngineState σ → List (Turn σ) → EngineState σ → Prop
  | nil (w : EngineState σ) : Turns r w [] w
  | cons {t : Turn σ} {ts : List (Turn σ)} {v : EngineState σ} (first : Served r t)
      (rest : Turns r t.finish ts v) : Turns r t.start (t :: ts) v

/-! ## One turn -/

theorem run_ask_eq {t : Transform σ} {id : NodeId} {w : EngineState σ} {matched : Bool}
    {captured : Match} {s : σ}
    (h : (t.recognize w.graph id {}).run w.state = ((matched, captured), s)) :
    (ask t id).run w = .ok (if matched then some captured else none) { w with state := s } := by
  unfold ask
  rw [run_get_bind, h]
  rfl

/-- A node that is there is offered to transforms: all of them are asked and none matches, or
they are asked up to the first that matches, and this one is applied. -/
theorem run_offer {id : NodeId} {n : Node} (ts : List (Transform σ)) {w : EngineState σ}
    (hn : w.graph.nodes.get? id = some n) :
    (∃ qs s, Answered w.graph id w.state qs s ∧ (∀ q ∈ qs, q.context = {}) ∧
      (∀ q ∈ qs, q.matched = false) ∧ qs.map (·.transform) = ts ∧
      (offer id ts).run w = .ok none { w with state := s }) ∨
    ∃ qs q s, Answered w.graph id w.state (qs ++ [q]) s ∧ (∀ p ∈ qs ++ [q], p.context = {}) ∧
      (∀ p ∈ qs, p.matched = false) ∧ q.matched = true ∧
      (qs ++ [q]).map (·.transform) <+: ts ∧
      (offer id ts).run w =
        (q.transform.apply q.captured >>= fun _ => pure (some ⟨q.transform.name, n.name⟩)).run
          { w with state := s, log := w.log ++ [announcement q.transform id n] } := by
  -- On the transforms, for every state: each question may change what they remember, and the
  -- next one is put in the state that it left.
  induction ts generalizing w with
  | nil =>
    have hnone : ∀ q : Question σ, q ∉ [] := fun _ => List.not_mem_nil
    exact .inl ⟨[], w.state, .nil _, fun q hq => absurd hq (hnone q),
      fun q hq => absurd hq (hnone q), rfl, rfl⟩
  | cons t ts ih =>
    obtain ⟨⟨⟨matched, captured⟩, s⟩, ha⟩ : ∃ a, (t.recognize w.graph id {}).run w.state = a :=
      ⟨_, rfl⟩
    cases matched with
    | true =>
      refine .inr ⟨[], ⟨t, {}, true, captured⟩, s, .cons ha (.nil _), ?_, ?_, rfl, ?_, ?_⟩
      · intro p hp
        rw [List.mem_singleton.1 hp]
      · exact fun p hp => absurd hp List.not_mem_nil
      · exact ⟨ts, rfl⟩
      · rw [offer, EStateM.run_bind, run_ask_eq ha, if_pos rfl]
        dsimp only
        rw [TransformM.run_query_bind (nodeAt_eq_ok.2 hn)]
        rfl
    | false =>
      have hnext : (offer id (t :: ts)).run w = (offer id ts).run { w with state := s } := by
        rw [offer, EStateM.run_bind, run_ask_eq ha]
        rfl
      rcases ih (w := { w with state := s }) hn with
        ⟨qs, s', hqs, hfresh, hrefused, hasked, hrun⟩ |
        ⟨qs, q, s', hqs, hfresh, hrefused, hmatched, hasked, hrun⟩
      · refine .inl ⟨⟨t, {}, false, captured⟩ :: qs, s', .cons ha hqs, ?_, ?_, ?_, ?_⟩
        · exact List.forall_mem_cons.2 ⟨rfl, hfresh⟩
        · exact List.forall_mem_cons.2 ⟨rfl, hrefused⟩
        · exact congrArg (t :: ·) hasked
        · rw [hnext, hrun]
      · refine .inr ⟨⟨t, {}, false, captured⟩ :: qs, q, s', .cons ha hqs, ?_, ?_, hmatched, ?_, ?_⟩
        · exact List.forall_mem_cons.2 ⟨rfl, hfresh⟩
        · exact List.forall_mem_cons.2 ⟨rfl, hrefused⟩
        · exact (List.prefix_cons_inj t).2 hasked
        · rw [hnext, hrun]

/-- The report after a turn. -/
def Report.after (report : Report) (t : Turn σ) : Report where
  applications := report.applications ++ t.application?.toList
  visited := report.visited + if t.live then 1 else 0
  notMatched := report.notMatched + if t.live ∧ t.change = none then 1 else 0

/-- A node of the snapshot is looked up, and offered if it is there. -/
theorem run_visit_eq (r : Registry σ) (report : Report) (id : NodeId) (w : EngineState σ) :
    (visit r report id).run w =
      match w.graph.nodes.get? id with
      | none => .ok report w
      | some n => (offer id (r.find n.kind) >>= fun a => pure <|
          match a with
          | some a => { report with
              visited := report.visited + 1, applications := report.applications ++ [a] }
          | none => { report with
              visited := report.visited + 1, notMatched := report.notMatched + 1 }).run w := by
  refine (run_get_bind _ w).trans ?_
  cases w.graph.nodes.get? id with
  | none => rfl
  | some n =>
    refine congrArg (fun k => (offer id (r.find n.kind) >>= k).run w) (funext fun a => ?_)
    cases a with
    | none => rfl
    | some a => rfl

/-- What the engine does with a node is a turn. -/
theorem run_visit (r : Registry σ) (report : Report) (id : NodeId) (w : EngineState σ) :
    ∃ t : Turn σ, t.node = id ∧ t.start = w ∧ Served r t ∧
      (visit r report id).run w =
        match t.error? with
        | none => .ok (report.after t) t.finish
        | some e => .error e t.finish := by
  have hlive : w.graph.contains id = (w.graph.nodes.get? id).isSome :=
    Arena.contains_eq_isSome ..
  rw [run_visit_eq]
  cases hn : w.graph.nodes.get? id with
  | none =>
    refine ⟨_, rfl, rfl, .gone hn, ?_⟩
    simp [Turn.error?, Report.after, Turn.live, Turn.application?, hlive, hn]
  | some n =>
    rcases run_offer (r.find n.kind) hn with
      ⟨qs, s, hqs, hfresh, hrefused, hasked, hrun⟩ |
      ⟨qs, q, s, hqs, hfresh, hrefused, hmatched, hasked, hrun⟩
    · refine ⟨_, rfl, rfl, .unmatched hn hqs hfresh hrefused hasked, ?_⟩
      dsimp only
      rw [EStateM.run_bind, hrun]
      simp [Turn.error?, Report.after, Turn.live, Turn.application?, hlive, hn]
    · refine ⟨_, rfl, rfl, .changed hn hqs hfresh hrefused hmatched hasked rfl, ?_⟩
      dsimp only
      rw [EStateM.run_bind, hrun, EStateM.run_bind]
      cases (q.transform.apply q.captured).run _ with
      | ok u w' =>
        simp [Turn.error?, errorOf?, Report.after, Turn.live, Turn.application?, hlive, hn,
          finalState]
      | error e w' => rfl

/-- A node that is there is counted as changed or as not matched. -/
theorem Served.count {r : Registry σ} {t : Turn σ} (h : Served r t) :
    (if t.live then 1 else 0) =
      t.application?.toList.length + if t.live ∧ t.change = none then 1 else 0 := by
  cases h with
  | gone absent => simp [Turn.live, Turn.application?, Graph.contains, Arena.contains_eq_isSome, absent]
  | unmatched present =>
    simp [Turn.live, Turn.application?, Graph.contains, Arena.contains_eq_isSome, present]
  | changed present =>
    simp [Turn.live, Turn.application?, Graph.contains, Arena.contains_eq_isSome, present]

/-- A turn keeps of the graph what the transforms keep. -/
theorem Served.keeps {r : Registry σ} {t : Turn σ} {P : Graph → Prop} (h : Served r t)
    (hr : ∀ t ∈ r, ∀ m, Keeps (OnGraph P) (t.apply m)) (hs : P t.start.graph) :
    P t.finish.graph := by
  cases h with
  | gone => exact hs
  | unmatched => exact hs
  | @changed id w n qs s q outcome present answered fresh refused matched asked applied =>
    have hmem : q.transform ∈ r := by
      have hlast : q.transform ∈ (qs ++ [q]).map (·.transform) := by simp
      exact (List.mem_filter.1 (asked.subset hlast)).1
    rw [← applied]
    exact hr q.transform hmem q.captured _ hs

/-! ## A run -/

/-- The engine takes the nodes of a list in turns, up to the end or to the first error. -/
theorem run_visits (r : Registry σ) (ids : List NodeId) (report : Report) (w : EngineState σ) :
    ∃ turns v, Turns r w turns v ∧
      ((turns.map (·.node) = ids ∧ (∀ t ∈ turns, t.error? = none) ∧
        (ids.foldlM (visit r) report).run w = .ok (turns.foldl Report.after report) v) ∨
      ∃ before last e, turns = before ++ [last] ∧ turns.map (·.node) <+: ids ∧
        (∀ t ∈ before, t.error? = none) ∧ last.error? = some e ∧
        (ids.foldlM (visit r) report).run w = .error e v) := by
  -- On the list, for every report and state: the turns of the rest start where that of the first
  -- node ended, unless it ended the run.
  induction ids generalizing report w with
  | nil => exact ⟨[], w, .nil w, .inl ⟨rfl, fun t ht => absurd ht List.not_mem_nil, rfl⟩⟩
  | cons id ids ih =>
    obtain ⟨t, rfl, rfl, hserved, hvisit⟩ := run_visit r report id w
    rw [List.foldlM_cons, EStateM.run_bind, hvisit]
    cases herror : t.error? with
    | some e =>
      refine ⟨[t], t.finish, .cons hserved (.nil _), .inr ⟨[], t, e, rfl, ?_, ?_, herror, rfl⟩⟩
      · exact ⟨ids, rfl⟩
      · exact fun t ht => absurd ht List.not_mem_nil
    | none =>
      obtain ⟨turns, v, hturns, ⟨hids, hnone, hrun⟩ |
        ⟨before, last, e, rfl, hids, hnone, hlast, hrun⟩⟩ := ih (report.after t) t.finish
      · refine ⟨t :: turns, v, .cons hserved hturns, .inl ⟨?_, ?_, hrun⟩⟩
        · exact congrArg (t.node :: ·) hids
        · exact List.forall_mem_cons.2 ⟨herror, hnone⟩
      · refine ⟨t :: (before ++ [last]), v, .cons hserved hturns,
          .inr ⟨t :: before, last, e, rfl, ?_, ?_, hlast, hrun⟩⟩
        · exact (List.prefix_cons_inj t.node).2 hids
        · exact List.forall_mem_cons.2 ⟨herror, hnone⟩

namespace Turns

variable {r : Registry σ} {w v : EngineState σ} {turns : List (Turn σ)}

theorem served (h : Turns r w turns v) : ∀ t ∈ turns, Served r t := by
  induction h with
  | nil => exact fun t ht => absurd ht List.not_mem_nil
  | cons first _ ih => exact List.forall_mem_cons.2 ⟨first, ih⟩

/-- Whatever the transforms keep of the graph holds at every turn. -/
theorem keeps {P : Graph → Prop} (h : Turns r w turns v)
    (hr : ∀ t ∈ r, ∀ m, Keeps (OnGraph P) (t.apply m)) (hw : P w.graph) :
    ∀ t ∈ turns, P t.start.graph := by
  induction h with
  | nil => exact fun t ht => absurd ht List.not_mem_nil
  | cons first _ ih => exact List.forall_mem_cons.2 ⟨hw, ih (first.keeps hr hw)⟩

end Turns

theorem visited_foldl_after (turns : List (Turn σ)) (report : Report) :
    (turns.foldl Report.after report).visited =
      report.visited + (turns.filter (·.live)).length := by
  induction turns generalizing report with
  | nil => rfl
  | cons t turns ih =>
    rw [List.foldl_cons, ih]
    cases hlive : t.live <;> simp [Report.after, hlive, Nat.add_assoc, Nat.add_comm]

theorem applications_foldl_after (turns : List (Turn σ)) (report : Report) :
    (turns.foldl Report.after report).applications =
      report.applications ++ turns.filterMap (·.application?) := by
  induction turns generalizing report with
  | nil => simp
  | cons t turns ih =>
    rw [List.foldl_cons, ih]
    cases ha : t.application? <;> simp [Report.after, ha]

/-- The numbers of a report add up. -/
theorem balanced_foldl_after {r : Registry σ} {turns : List (Turn σ)} {report : Report}
    (hturns : ∀ t ∈ turns, Served r t)
    (h : report.visited = report.applications.length + report.notMatched) :
    (turns.foldl Report.after report).visited =
      (turns.foldl Report.after report).applications.length +
        (turns.foldl Report.after report).notMatched := by
  induction turns generalizing report with
  | nil => exact h
  | cons t turns ih =>
    obtain ⟨ht, hturns⟩ := List.forall_mem_cons.1 hturns
    refine ih hturns ?_
    have hcount := ht.count
    simp only [Report.after, List.length_append]
    omega

end Engine

/-- The transform changes graphs by their operations only: it keeps whatever these keep. -/
def Transform.Operates {σ : Type} (t : Transform σ) : Prop :=
  ∀ P, Persists P → ∀ m, Keeps (OnGraph P) (t.apply m)

/-- **What the engine asks and what it changes.** For any graph and any transforms, a run is a
sequence of turns, each of them as `Served` says. They follow the nodes that are there at the
start, in the order of their places; every place comes at most once.

* If the run ends with a report, every node had its turn, and no change failed. The report
  counts the nodes that were there when their turns came; it lists the changes in order, with
  the name that the node had before; and each node that was counted was changed or
  matched by nobody.
* If the run ends with an error, this is the error of the change at the last turn, and no
  earlier change failed.

Where transforms change graphs by their operations, a node whose turn comes is the one that
was there at the start, and no new one in its place. -/
theorem engine_takes_turns {σ : Type} (r : Registry σ) (w : EngineState σ) :
    ∃ turns v, Engine.Turns r w turns v ∧
      turns.map (·.node) <+: w.graph.ids ∧ (turns.map (·.node)).Pairwise (· < ·) ∧
      (∀ id, id ∈ w.graph.ids ↔ w.graph.contains id) ∧
      (w.graph.WellFormed → (∀ t ∈ r, t.Operates) → ∀ t ∈ turns, t.live →
        t.start.graph.declaration? t.node = w.graph.declaration? t.node) ∧
      match (Engine.run r).run w with
      | .ok report w' =>
        turns.map (·.node) = w.graph.ids ∧ (∀ t ∈ turns, t.error? = none) ∧
        report.visited = (turns.filter (·.live)).length ∧
        report.applications = turns.filterMap (·.application?) ∧
        report.visited = report.applications.length + report.notMatched ∧
        w'.graph = v.graph ∧ w'.state = v.state
      | .error e w' =>
        w' = v ∧ ∃ before last, turns = before ++ [last] ∧
          (∀ t ∈ before, t.error? = none) ∧ last.error? = some e := by
  obtain ⟨turns, v, hturns, hend⟩ := Engine.run_visits r w.graph.ids {} w
  have hids : turns.map (·.node) <+: w.graph.ids := by
    rcases hend with ⟨hids, -⟩ | ⟨before, last, e, -, hids, -⟩
    · exact ⟨[], by rw [List.append_nil, hids]⟩
    · exact hids
  refine ⟨turns, v, hturns, hids, w.graph.ids_sorted.sublist hids.sublist,
    fun id => Arena.mem_handles, ?_, ?_⟩
  · intro hw hr t ht hlive
    have hfollows := hturns.keeps (fun t' ht' => hr t' ht' _ (persists_follows w.graph))
      (.refl hw) t ht
    have hmem : t.node ∈ w.graph.ids := hids.subset (List.mem_map.2 ⟨t, ht, rfl⟩)
    -- What was there at the start is there unchanged or gone for good, and it is not gone.
    obtain ⟨d, hd⟩ := contains_iff.1 (Arena.mem_handles.1 hmem)
    obtain ⟨d', hd'⟩ := contains_iff.1 hlive
    rcases hfollows.evolves.kept t.node d hd with hsame | ⟨hnone, -⟩
    · rw [hsame, hd]
    · cases hd'.symm.trans hnone
  · rcases hend with ⟨hids, hnone, hfold⟩ | ⟨before, last, e, rfl, -, hnone, hlast, hfold⟩
    · rw [Engine.run, run_get_bind, EStateM.run_bind, hfold]
      refine ⟨hids, hnone, ?_, ?_, Engine.balanced_foldl_after hturns.served rfl, rfl, rfl⟩
      · rw [Engine.visited_foldl_after, Nat.zero_add]
      · rw [Engine.applications_foldl_after, List.nil_append]
    · rw [Engine.run, run_get_bind, EStateM.run_bind, hfold]
      exact ⟨rfl, before, last, rfl, hnone, hlast⟩

theorem FixedPoint.operates_transform (config : CodeLimits) :
    (FixedPoint.transform config).Operates :=
  fun _ hP m => hP.apply config m

/-- Replacing the convolutions of a chain adds nodes to the graph, and none of them has a
turn. -/
theorem engine_takes_turns_reversedChain : ∃ report w' turns v,
    (Engine.run [FixedPoint.transform {}]).run
      ⟨build FixedPoint.reversedChain, FixedPoint.chainRanges, []⟩ = .ok report w' ∧
    Engine.Turns [FixedPoint.transform {}]
      ⟨build FixedPoint.reversedChain, FixedPoint.chainRanges, []⟩ turns v ∧
    report.applications = turns.filterMap (·.application?) ∧
    ∀ t ∈ turns, t.live → t.start.graph.declaration? t.node =
      (build FixedPoint.reversedChain).declaration? t.node := by
  obtain ⟨report, w', hrun⟩ := FixedPoint.run_reversedChain
  -- Named, the state is not unfolded when the two sides of the run are compared.
  obtain ⟨w, hw⟩ : ∃ w : EngineState Calibration,
      w = ⟨build FixedPoint.reversedChain, FixedPoint.chainRanges, []⟩ := ⟨_, rfl⟩
  have hgraph : w.graph = build FixedPoint.reversedChain := by rw [hw]
  rw [← hw] at hrun ⊢
  obtain ⟨turns, v, hturns, -, -, -, hold, hend⟩ := engine_takes_turns [FixedPoint.transform {}] w
  rw [hrun] at hend
  rw [hgraph] at hold
  obtain ⟨-, -, -, happlied, -⟩ := hend
  have hoperates : ∀ t ∈ [FixedPoint.transform {}], t.Operates := by
    intro t ht
    rw [List.mem_singleton.1 ht]
    exact FixedPoint.operates_transform {}
  exact ⟨report, w', turns, v, hrun, hturns, happlied, hold (wellFormed_build _) hoperates⟩

end FixedNet
