/-
**The edges of a graph as one list.** An edge is stored at both its ends, in two nodes.
Seen from outside, a graph keeps a single list of edges in the order they were made:

* an edge that is made goes to the end of the list, in place of the one that led to the
  same input before; an edge that is there already stays where it is;
* detaching an input takes its edge out of the list, and removing a node takes all edges
  out that touch it.

`replay` runs a sequence of operations on the graph and on this list side by side. What an
output lists as its consumers is what the list says of it, in the order of the list,
and an input names the output of its one edge (`Listed`). Each operation keeps this. The
operations that make and cut edges do so by `Edits`, and there the two stores change
together.

Passes and transforms are covered as well: whatever they make of a graph is made by further
operations of this kind.
-/
import FixedNet.Proofs.Rewriting

set_option autoImplicit false

namespace FixedNet

open FixedNet.Graph

/-! ## The list -/

/-- An edge: an input, and the output that feeds it. -/
abbrev Edge := InputId × OutputId

/-- What an output feeds, in the order of the list. -/
def fedBy (es : List Edge) (o : OutputId) : List InputId := (es.filter (·.2 = o)).map (·.1)

theorem mem_fedBy {es : List Edge} {o : OutputId} {i : InputId} :
    i ∈ fedBy es o ↔ (i, o) ∈ es := by
  simp [fedBy]

theorem fedBy_append (es es' : List Edge) (o : OutputId) :
    fedBy (es ++ es') o = fedBy es o ++ fedBy es' o := by
  simp [fedBy]

/-- Edges are taken out of the list by their inputs. -/
theorem fedBy_filter (es : List Edge) (keep : InputId → Bool) (o : OutputId) :
    fedBy (es.filter fun e => keep e.1) o = (fedBy es o).filter keep := by
  unfold fedBy
  rw [List.filter_map, List.filter_filter, List.filter_filter]
  refine congrArg (List.map _) (List.filter_congr fun e _ => ?_)
  exact Bool.and_comm _ _

/-- The only edge of an input. -/
theorem filter_eq_singleton {es : List Edge} (hes : (es.map (·.1)).Nodup) {i : InputId}
    {o : OutputId} (h : (i, o) ∈ es) : es.filter (·.1 = i) = [(i, o)] := by
  induction es with
  | nil => exact absurd h List.not_mem_nil
  | cons e es ih =>
    obtain ⟨hhead, htail⟩ := List.nodup_cons.1 hes
    -- The edge is the head, or it is further back and the head leads to another input.
    rcases List.mem_cons.1 h with rfl | h
    · have hnone : es.filter (·.1 = i) = [] := by
        rw [List.filter_eq_nil_iff]
        intro e' he' hi
        exact hhead (List.mem_map.2 ⟨e', he', of_decide_eq_true hi⟩)
      rw [List.filter_cons_of_pos (by simp), hnone]
    · have hne : e.1 ≠ i := fun heq => hhead (List.mem_map.2 ⟨(i, o), h, heq.symm⟩)
      rw [List.filter_cons_of_neg (by simpa using hne), ih htail h]

/-! ## Graph and list -/

/-- The list holds exactly the edges that the graph stores. -/
structure Listed (g : Graph) (es : List Edge) : Prop where
  wellFormed : g.WellFormed
  producer : ∀ i o, (i, o) ∈ es ↔ g.producer? i = some o
  single : (es.map (·.1)).Nodup
  consumers : ∀ o q, g.outlet? o = some q → q.consumers = fedBy es o

namespace Listed

variable {g : Graph} {es : List Edge}

theorem empty : Listed {} [] where
  wellFormed := .empty
  producer i o := ⟨fun h => absurd h List.not_mem_nil, fun h => by cases h⟩
  single := List.nodup_nil
  consumers o q h := by cases h

variable (h : Listed g es)
include h

/-- Both ends of a listed edge exist. -/
theorem ends {e : Edge} (he : e ∈ es) :
    (∃ p, g.inlet? e.1 = some p) ∧ ∃ q, g.outlet? e.2 = some q := by
  have hp := (h.producer e.1 e.2).1 he
  obtain ⟨p, hi, -⟩ := producer?_eq_some.1 hp
  obtain ⟨q, ho, -⟩ := h.wellFormed.outlet?_of_producer? hp
  exact ⟨⟨p, hi⟩, ⟨q, ho⟩⟩

/-- The edges of an input: one if it has a producer, none otherwise. -/
theorem filter_eq {i : InputId} :
    es.filter (·.1 = i) = (g.producer? i).toList.map fun o => (i, o) := by
  cases hp : g.producer? i with
  | some o => exact filter_eq_singleton h.single ((h.producer i o).2 hp)
  | none =>
    refine List.filter_eq_nil_iff.2 ?_
    rintro ⟨j, o⟩ he hj
    obtain rfl : j = i := of_decide_eq_true hj
    rw [(h.producer j o).1 he] at hp
    cases hp

/-! ### Making and cutting edges -/

theorem cut (i : InputId) : Listed (g.cut i) (es.filter (·.1 ≠ i)) where
  wellFormed := h.wellFormed.cut i
  producer j o := by
    rw [List.mem_filter, h.producer, producer?_cut]
    by_cases hij : i = j
    · simp [hij]
    · simp [hij, Ne.symm hij]
  single := h.single.sublist (List.filter_sublist.map _)
  consumers o q hq := by
    -- Cutting writes to the producer only, and no other output lists the input.
    rw [h.wellFormed.outlet?_cut] at hq
    obtain ⟨q', hq', rfl⟩ := Option.map_eq_some_iff.1 hq
    rw [fedBy_filter es (fun j => j ≠ i), ← h.consumers o q' hq']

theorem foldl_cut (l : List InputId) : Listed (l.foldl Graph.cut g) (es.filter (·.1 ∉ l)) := by
  induction l generalizing g es with
  | nil =>
    have hall : es.filter (·.1 ∉ ([] : List InputId)) = es := by simp
    rw [hall]
    exact h
  | cons i l ih =>
    have hrest := ih (h.cut i)
    rw [List.filter_filter] at hrest
    have hsame : es.filter (fun e => decide (e.1 ∉ l) && decide (e.1 ≠ i)) =
        es.filter (·.1 ∉ i :: l) := by
      refine List.filter_congr fun e _ => ?_
      simp [Bool.and_comm]
    rw [← hsame]
    exact hrest

theorem plug {i : InputId} {o : OutputId} {p : Inlet} {q : Outlet} (hi : g.inlet? i = some p)
    (ho : g.outlet? o = some q) (ht : q.type = p.type) (hfree : g.producer? i = none) :
    Listed (g.plug i o) (es ++ [(i, o)]) := by
  have hnew : ∀ r, (i, r) ∉ es := by
    intro r hr
    rw [(h.producer i r).1 hr] at hfree
    cases hfree
  constructor
  case wellFormed => exact h.wellFormed.plug hi ho ht hfree
  case producer =>
    intro j r
    rw [List.mem_append, List.mem_singleton, h.producer, producer?_plug hi]
    by_cases hij : i = j
    · subst hij
      rw [if_pos rfl, hfree]
      simp [eq_comm]
    · rw [if_neg hij]
      simp [Ne.symm hij]
  case single =>
    rw [List.map_append, List.nodup_append]
    refine ⟨h.single, List.pairwise_singleton _ _, ?_⟩
    rintro j hj _ hmem rfl
    obtain ⟨⟨j', r⟩, he, rfl⟩ := List.mem_map.1 hj
    cases List.mem_singleton.1 hmem
    exact hnew r he
  case consumers =>
    intro r s hs
    rw [outlet?_plug] at hs
    rw [fedBy_append]
    by_cases hor : o = r
    · subst hor
      rw [if_pos rfl] at hs
      obtain ⟨s', hs', rfl⟩ := Option.map_eq_some_iff.1 hs
      rw [h.consumers o s' hs']
      simp [fedBy]
    · rw [if_neg hor] at hs
      rw [h.consumers r s hs]
      simp [fedBy, hor]

/-- Feeding an input from an output: an edge that is there stays in its place, any other goes
to the end. -/
theorem wire {i : InputId} {o : OutputId} {p : Inlet} {q : Outlet} (hi : g.inlet? i = some p)
    (ho : g.outlet? o = some q) (ht : q.type = p.type) :
    Listed (g.wire i o) (if (i, o) ∈ es then es else es.filter (·.1 ≠ i) ++ [(i, o)]) := by
  unfold Graph.wire
  by_cases hp : g.producer? i = some o
  · rw [if_pos hp, if_pos ((h.producer i o).2 hp)]
    exact h
  · rw [if_neg hp, if_neg (mt (h.producer i o).1 hp)]
    obtain ⟨p', hp', htp⟩ := (Rewired.cut g i).inlet?_eq_some hi
    obtain ⟨q', hq', htq, -⟩ := (Rewired.cut g i).outlet?_eq_some ho
    refine (h.cut i).plug hp' hq' (by rw [htq, htp, ht]) ?_
    rw [producer?_cut, if_pos rfl]

/-! ### Nodes that come and go -/

theorem append (name : String) {op : Op} {t : TensorType} {s : Signature}
    (hs : op.signature t = .ok s) : Listed (g.append name op s) es where
  wellFormed := h.wellFormed.append name hs
  producer i o := by rw [h.producer, producer?_append]
  single := h.single
  consumers o q hq := by
    rw [outlet?_append] at hq
    split at hq
    · next hnode =>
      obtain ⟨t, -, rfl⟩ := Option.map_eq_some_iff.1 hq
      -- No listed edge starts at a place that is handed out only now.
      symm
      rw [List.eq_nil_iff_forall_not_mem]
      intro i hi
      obtain ⟨-, q, hold⟩ := h.ends (mem_fedBy.1 hi)
      exact absurd (lt_capacity_of_outlet? hold) (Nat.not_lt.2 (Nat.le_of_eq hnode.symm))
    · exact h.consumers o q hq

/-- Removing a node: the edges that are cut are those that touch it. -/
theorem remove {id : NodeId} {n : Node} (hn : g.nodes.get? id = some n) (hin : id ∉ g.inputs)
    (hout : id ∉ g.outputs) : Listed ((g.isolate id n).dropNode id)
      (es.filter fun e => e.1.node ≠ id ∧ e.2.node ≠ id) := by
  have hcut : Listed (g.isolate id n) (es.filter fun e => e.1.node ≠ id ∧ e.2.node ≠ id) := by
    -- The graph goes by the inputs at either end of the node, the list by the node itself.
    have hsame : es.filter (fun e => e.1.node ≠ id ∧ e.2.node ≠ id) =
        es.filter (·.1 ∉ touching id n) := by
      refine List.filter_congr fun e he => ?_
      simp [h.wellFormed.mem_touching hn ((h.producer e.1 e.2).1 he)]
    rw [hsame]
    exact h.foldl_cut _
  -- What is dropped is a node without edges.
  have hends : ∀ i o, (g.isolate id n).producer? i = some o → i.node ≠ id ∧ o.node ≠ id := by
    intro i o hp
    simpa using (List.mem_filter.1 ((hcut.producer i o).2 hp)).2
  constructor
  case wellFormed => exact h.wellFormed.remove hn hin hout
  case producer =>
    intro i o
    rw [hcut.producer]
    unfold producer?
    rw [inlet?_dropNode]
    by_cases hid : id = i.node
    · rw [if_pos hid]
      constructor
      · intro hp
        exact absurd hid.symm (hends i o hp).1
      · intro hp
        cases hp
    · rw [if_neg hid]
  case single => exact hcut.single
  case consumers =>
    intro o q hq
    rw [outlet?_dropNode] at hq
    split at hq
    · cases hq
    · exact hcut.consumers o q hq

/-! ### Flags -/

/-- A write after which every connector has its old edges. -/
theorem of_same_edges {g' : Graph} (hg' : g'.WellFormed) (hi : ∀ i, g'.inlet? i = g.inlet? i)
    (ho : ∀ o, (g'.outlet? o).map (·.consumers) = (g.outlet? o).map (·.consumers)) :
    Listed g' es where
  wellFormed := hg'
  producer i o := by rw [h.producer, producer?, producer?, hi]
  single := h.single
  consumers o q hq := by
    have hold := ho o
    rw [hq] at hold
    obtain ⟨q', hq', heq⟩ := Option.map_eq_some_iff.1 hold.symm
    rw [← h.consumers o q' hq', heq]

theorem flagNode (id : NodeId) (f : Attributes → Attributes) :
    Listed (g.modifyNode id fun n => { n with attributes := f n.attributes }) es := by
  refine h.of_same_edges (h.wellFormed.flagNode id f) (fun i => ?_) fun o => ?_
  · rw [inlet?_modifyNode]
    exact fun _ => rfl
  · rw [outlet?_modifyNode]
    exact fun _ => rfl

theorem flagOutput (o : OutputId) (f : Attributes → Attributes) :
    Listed (g.modifyOutput o fun q => { q with attributes := f q.attributes }) es := by
  refine h.of_same_edges (h.wellFormed.flagOutput o f) (fun i => inlet?_modifyOutput g o _ i) ?_
  intro r
  rw [outlet?_modifyOutput]
  split
  · rw [Option.map_map]
    rfl
  · rfl

end Listed

/-! ## Graph and list side by side -/

/-- An operation that is not made of others, with its arguments. -/
inductive Edit where
  | addNode (name : String) (op : Op) (type : TensorType)
  | addInput (name : String) (type : TensorType)
  | addOutput (name : String) (source : OutputId)
  | connect (i : InputId) (o : OutputId)
  | disconnect (i : InputId)
  | removeNode (id : NodeId)
  | setNodeAttributes (id : NodeId) (a : Attributes)
  | setOutputAttributes (o : OutputId) (a : Attributes)

namespace Edit

/-- The operation among all operations. -/
def command : Edit → Command
  | .addNode name op t => .addNode name op t
  | .addInput name t => .addInput name t
  | .addOutput name source => .addOutput name source
  | .connect i o => .connect i o
  | .disconnect i => .disconnect i
  | .removeNode id => .removeNode id
  | .setNodeAttributes id a => .setNodeAttributes id a
  | .setOutputAttributes o a => .setOutputAttributes o a

/-- The list after an operation: a refused one leaves it alone. -/
def onSuccess {α : Type} (es : List Edge) (change : α → List Edge) :
    EStateM.Result GraphError Graph α → List Edge
  | .ok a _ => change a
  | .error _ _ => es

/-- What an operation on a graph does to the list of its edges. -/
def edges (g : Graph) (es : List Edge) : Edit → List Edge
  | .addOutput name source =>
    -- A graph output has one input.
    onSuccess es (fun id => es ++ [(⟨id, 0⟩, source)]) ((Graph.addOutput name source).run g)
  | .connect i o =>
    onSuccess es (fun _ => if (i, o) ∈ es then es else es.filter (·.1 ≠ i) ++ [(i, o)])
      ((Graph.connect i o).run g)
  | .disconnect i =>
    onSuccess es (fun _ => es.filter (·.1 ≠ i)) ((Graph.disconnect i).run g)
  | .removeNode id =>
    onSuccess es (fun _ => es.filter fun e => e.1.node ≠ id ∧ e.2.node ≠ id)
      ((Graph.removeNode id).run g)
  -- New nodes are unconnected, and flags are no edges.
  | _ => es

/-- One operation on a graph and on the list of its edges. -/
def step (e : Edit) (s : Graph × List Edge) : Graph × List Edge :=
  (e.command.run s.1, e.edges s.1 s.2)

end Edit

/-- The graph after a sequence of operations on the empty graph, and the list of its edges. -/
def replay (es : List Edit) : Graph × List Edge := es.foldl (fun s e => e.step s) ({}, [])

theorem replay_append_singleton (es : List Edit) (e : Edit) :
    replay (es ++ [e]) = e.step (replay es) := by
  unfold replay
  rw [List.foldl_append]
  rfl

namespace Listed

variable {g : Graph} {es : List Edge} (h : Listed g es)
include h

/-- A graph output comes with its edge, and the input of that edge is new. -/
theorem addOutput (name : String) {source : OutputId} {q : Outlet}
    (ho : g.outlet? source = some q) :
    Listed ((g.append name .output ⟨[q.type], []⟩).wire ⟨g.nodes.capacity, 0⟩ source)
      (es ++ [(⟨g.nodes.capacity, 0⟩, source)]) := by
  have hs : Op.output.signature q.type = .ok ⟨[q.type], []⟩ := rfl
  have hnew := inlet?_append_output g name q.type
  have hold := outlet?_append_of_some ho name .output ⟨[q.type], []⟩
  have hfresh : ∀ e ∈ es, e.1 ≠ ⟨g.nodes.capacity, 0⟩ := by
    intro e he heq
    obtain ⟨⟨p, hp⟩, -⟩ := h.ends he
    have hlt := lt_capacity_of_inlet? hp
    rw [heq] at hlt
    exact Nat.lt_irrefl _ hlt
  have hwired := (h.append name hs).wire hnew hold rfl
  have hkept : es.filter (·.1 ≠ ⟨g.nodes.capacity, 0⟩) = es := by
    rw [List.filter_eq_self]
    intro e he
    exact decide_eq_true (hfresh e he)
  -- The new input has no edge yet, so there is none to take out.
  rw [if_neg fun he => hfresh _ he rfl, hkept] at hwired
  exact hwired

/-- What an operation does to the list is known if it is done, and nothing if it is refused. -/
theorem onSuccess {α : Type} {r : EStateM.Result GraphError Graph α} {change : α → List Edge}
    (hok : ∀ a g', r = .ok a g' → Listed g' (change a))
    (herror : ∀ e g', r = .error e g' → g' = g) :
    Listed (finalState r) (Edit.onSuccess es change r) := by
  cases r with
  | ok a g' => exact hok a g' rfl
  | error e g' =>
    obtain rfl := herror e g' rfl
    exact h

/-- One operation, done or refused, keeps graph and list together. -/
theorem step (e : Edit) : Listed (e.command.run g) (e.edges g es) := by
  cases e with
  | addNode name op t =>
    change Listed (finalState ((Graph.addNode name op t).run g)) es
    cases hr : (Graph.addNode name op t).run g with
    | ok id g' =>
      obtain ⟨s, hs, -, rfl⟩ := run_addNode_eq_ok.1 hr
      exact h.append name hs
    | error x g' =>
      obtain ⟨rfl, -⟩ := run_addNode_eq_error.1 hr
      exact h
  | addInput name t =>
    have hs : Op.input.signature t = .ok ⟨[], [t]⟩ := rfl
    exact h.append name hs
  | addOutput name source =>
    refine h.onSuccess (fun id g' hr => ?_) fun x g' hr => (run_addOutput_eq_error.1 hr).1
    cases ho : g.outlet? source with
    | some q =>
      rw [run_addOutput name ho] at hr
      cases hr
      exact h.addOutput name ho
    | none =>
      rw [run_addOutput_eq_error.2 ⟨rfl, output_of_none ho⟩] at hr
      cases hr
  | connect i o =>
    refine h.onSuccess (fun u g' hr => ?_) fun x g' hr => (run_connect_eq_error.1 hr).1
    obtain ⟨p, q, hi, ho, ht, rfl⟩ := run_connect_eq_ok.1 hr
    exact h.wire hi ho ht
  | disconnect i =>
    refine h.onSuccess (fun u g' hr => ?_) fun x g' hr => (run_disconnect_eq_error.1 hr).1
    obtain ⟨p, -, -, rfl⟩ := run_disconnect_eq_ok.1 hr
    exact h.cut i
  | removeNode id =>
    refine h.onSuccess (fun u g' hr => ?_) fun x g' hr => ?_
    all_goals
      rcases h.wellFormed.run_removeNode_cases id with ⟨y, hr'⟩ | ⟨n, hn, hin, hout, hr'⟩
      all_goals cases hr.symm.trans hr'
    · exact h.remove hn hin hout
    · rfl
  | setNodeAttributes id a =>
    have hkeep : Keeps (Listed · es) (Graph.setNodeAttributes id a) :=
      .bind (.query _ _) fun _ _ hg => hg.flagNode id fun _ => a
    exact hkeep g h
  | setOutputAttributes o a =>
    have hkeep : Keeps (Listed · es) (Graph.setOutputAttributes o a) :=
      .bind (.query _ _) fun _ _ hg => hg.flagOutput o fun _ => a
    exact hkeep g h

end Listed

/-- A sequence of operations keeps graph and list together. -/
theorem listed_replay (es : List Edit) : Listed (replay es).1 (replay es).2 := by
  have hrun : ∀ (es : List Edit) (s : Graph × List Edge), Listed s.1 s.2 →
      Listed (es.foldl (fun s e => e.step s) s).1 (es.foldl (fun s e => e.step s) s).2 := by
    intro es
    induction es with
    | nil => exact fun s h => h
    | cons e es ih => exact fun s h => ih (e.step s) (h.step e)
  exact hrun es ({}, []) .empty

/-! ## Passes and transforms -/

/-- The graphs that further operations lead to: every operation leads from one of them to
another. -/
theorem persists_continued (es : List Edit) :
    Persists fun g => ∃ more, (replay (es ++ more)).1 = g := by
  have hstep : ∀ (e : Edit) (g : Graph), (∃ more, (replay (es ++ more)).1 = g) →
      ∃ more, (replay (es ++ more)).1 = e.command.run g := by
    rintro e g ⟨more, rfl⟩
    refine ⟨more ++ [e], ?_⟩
    rw [← List.append_assoc, replay_append_singleton]
    rfl
  constructor
  case addNode => exact fun name op t => hstep (.addNode name op t)
  case addInput => exact fun name t => hstep (.addInput name t)
  case connect => exact fun i o => hstep (.connect i o)
  case disconnect => exact fun i => hstep (.disconnect i)
  case removeNode => exact fun id => hstep (.removeNode id)
  case setNodeAttributes => exact fun id a => hstep (.setNodeAttributes id a)
  case setOutputAttributes => exact fun o a => hstep (.setOutputAttributes o a)

/-- **The two ends of the edges are one ordered list.** After any sequence of operations,
done or refused, the list of edges and the graph agree:

* an output that exists lists as its consumers what the list says of it, in the order of the
  list;
* an input that exists has as its producer that of its one edge in the list, and none if there
  is no such edge;
* an edge is in the list exactly if both its ends store it.

A pass or a transform continues the sequence: the graph that it leaves, also when it stops
halfway, is the graph after some further operations. -/
theorem replay_lists_edges (es : List Edit) :
    (∀ o l, (replay es).1.consumers o = .ok l ↔
      (∃ q, (replay es).1.output o = .ok q) ∧ l = fedBy (replay es).2 o) ∧
    (∀ i x, (replay es).1.producer i = .ok x ↔ (∃ p, (replay es).1.input i = .ok p) ∧
      (replay es).2.filter (·.1 = i) = x.toList.map fun o => (i, o)) ∧
    (∀ i o, (i, o) ∈ (replay es).2 ↔ (replay es).1.producer i = .ok (some o) ∧
      ∃ l, (replay es).1.consumers o = .ok l ∧ i ∈ l) ∧
    ∀ c : Command, ∃ more, (replay (es ++ more)).1 = c.run (replay es).1 := by
  have h := listed_replay es
  refine ⟨fun o l => ?_, fun i x => ?_, fun i o => ?_, fun c => ?_⟩
  · rw [consumers_eq_ok]
    constructor
    · rintro ⟨q, hq, rfl⟩
      exact ⟨⟨q, output_eq_ok.2 hq⟩, h.consumers o q hq⟩
    · rintro ⟨⟨q, hq⟩, rfl⟩
      exact ⟨q, output_eq_ok.1 hq, h.consumers o q (output_eq_ok.1 hq)⟩
  · rw [producer_eq_ok, h.filter_eq]
    constructor
    · rintro ⟨p, hp, rfl⟩
      refine ⟨⟨p, input_eq_ok.2 hp⟩, ?_⟩
      rw [producer?, hp, Option.bind_some]
    · rintro ⟨⟨p, hp⟩, heq⟩
      have hp := input_eq_ok.1 hp
      rw [producer?, hp, Option.bind_some] at heq
      have hinj : ∀ y : Option OutputId,
          (y.toList.map fun o => (i, o)) = x.toList.map (fun o => (i, o)) → y = x := by
        intro y
        cases x <;> cases y <;> simp
      exact ⟨p, hp, hinj _ heq⟩
  · rw [producer_eq_ok_some, ← h.producer]
    constructor
    · intro he
      obtain ⟨-, q, hq⟩ := h.ends he
      refine ⟨he, q.consumers, consumers_eq_ok.2 ⟨q, hq, rfl⟩, ?_⟩
      rw [h.consumers o q hq]
      exact mem_fedBy.2 he
    · exact fun he => he.1
  · refine (persists_continued es).run c ⟨[], ?_⟩
    rw [List.append_nil]

end FixedNet
