/-
**What each edit does.** Every operation on a graph either is refused and leaves
the graph as it was, or ends in a graph that is a plain function of the one
before. These functions are written down here, together with the equation between
the operation and its function.

* `cut`: an input is detached from what feeds it.
* `wire`: an input is fed from an output, in place of what fed it before.
* `isolate`: a node loses all its edges.

An edge is written at both its ends, so `cut` and `wire` are two writes each; what
they do to the map of connectors is `producer?_cut`, `outlet?_cut` and so on.
-/
import FixedNet.Proofs.Connectors

set_option autoImplicit false

namespace FixedNet.Graph

variable {g : Graph}

/-! ## The functions -/

/-- Takes the edge from `o` to `i` away. -/
def unplug (g : Graph) (i : InputId) (o : OutputId) : Graph :=
  (g.modifyOutput o fun q => { q with consumers := q.consumers.filter (· ≠ i) }).modifyInput i
    fun p => { p with producer := none }

/-- Adds the edge from `o` to `i`. -/
def plug (g : Graph) (i : InputId) (o : OutputId) : Graph :=
  (g.modifyOutput o fun q => { q with consumers := q.consumers ++ [i] }).modifyInput i
    fun p => { p with producer := some o }

/-- Detaches an input from what feeds it. -/
def cut (g : Graph) (i : InputId) : Graph :=
  match g.producer? i with
  | none => g
  | some o => g.unplug i o

/-- Feeds an input from an output. An edge that is there already stays. -/
def wire (g : Graph) (i : InputId) (o : OutputId) : Graph :=
  if g.producer? i = some o then g else (g.cut i).plug i o

/-- The inputs whose edges touch a node: its own, and those it feeds. -/
def touching (id : NodeId) (n : Node) : List InputId :=
  (List.range n.inputs.length).map (InputId.mk id) ++ n.consumers

/-- Takes all edges of a node away. -/
def isolate (g : Graph) (id : NodeId) (n : Node) : Graph := (touching id n).foldl cut g

/-! ## What they do to connectors -/

theorem producer?_unplug (g : Graph) (i : InputId) (o : OutputId) (j : InputId) :
    (g.unplug i o).producer? j = if i = j then none else g.producer? j := by
  unfold unplug producer?
  rw [inlet?_modifyInput, inlet?_modifyOutput]
  by_cases h : i = j
  · rw [if_pos h, if_pos h]
    cases g.inlet? j <;> rfl
  · rw [if_neg h, if_neg h]

theorem outlet?_unplug (g : Graph) (i : InputId) (o r : OutputId) :
    (g.unplug i o).outlet? r =
      if o = r then
        (g.outlet? r).map fun q => { q with consumers := q.consumers.filter (· ≠ i) }
      else g.outlet? r := by
  unfold unplug
  rw [outlet?_modifyInput, outlet?_modifyOutput]

theorem producer?_plug {i : InputId} {p : Inlet} (hi : g.inlet? i = some p) (o : OutputId)
    (j : InputId) : (g.plug i o).producer? j = if i = j then some o else g.producer? j := by
  unfold plug producer?
  rw [inlet?_modifyInput, inlet?_modifyOutput]
  by_cases h : i = j
  · rw [if_pos h, if_pos h, ← h, hi]
    rfl
  · rw [if_neg h, if_neg h]

theorem outlet?_plug (g : Graph) (i : InputId) (o r : OutputId) :
    (g.plug i o).outlet? r =
      if o = r then (g.outlet? r).map fun q => { q with consumers := q.consumers ++ [i] }
      else g.outlet? r := by
  unfold plug
  rw [outlet?_modifyInput, outlet?_modifyOutput]

theorem producer?_cut (g : Graph) (i j : InputId) :
    (g.cut i).producer? j = if i = j then none else g.producer? j := by
  unfold cut
  cases h : g.producer? i with
  | none =>
    by_cases hij : i = j
    · rw [if_pos hij, ← hij]
      exact h
    · rw [if_neg hij]
  | some o => exact producer?_unplug g i o j

/-! ## What they leave alone -/

/-- The second graph differs from the first in its edges at most: it has the same
nodes with the same connectors and flags. -/
structure Rewired (g g' : Graph) : Prop where
  capacity : g'.nodes.capacity = g.nodes.capacity
  declaration : ∀ id, g'.declaration? id = g.declaration? id
  nodeFlags : ∀ id, (g'.nodes.get? id).map (·.attributes) = (g.nodes.get? id).map (·.attributes)
  flags : ∀ o, (g'.outlet? o).map (·.attributes) = (g.outlet? o).map (·.attributes)
  inputs : g'.inputs = g.inputs
  outputs : g'.outputs = g.outputs

namespace Rewired

theorem refl (g : Graph) : Rewired g g :=
  ⟨rfl, fun _ => rfl, fun _ => rfl, fun _ => rfl, rfl, rfl⟩

theorem trans {g₁ g₂ g₃ : Graph} (h : Rewired g₁ g₂) (h' : Rewired g₂ g₃) : Rewired g₁ g₃ where
  capacity := h'.capacity.trans h.capacity
  declaration id := (h'.declaration id).trans (h.declaration id)
  nodeFlags id := (h'.nodeFlags id).trans (h.nodeFlags id)
  flags o := (h'.flags o).trans (h.flags o)
  inputs := h'.inputs.trans h.inputs
  outputs := h'.outputs.trans h.outputs

theorem modifyInput (g : Graph) (i : InputId) {f : Inlet → Inlet}
    (hf : ∀ p, (f p).type = p.type) : Rewired g (g.modifyInput i f) where
  capacity := capacity_modifyInput g i f
  declaration := declaration?_modifyInput g i hf
  nodeFlags id := by
    unfold Graph.modifyInput
    rw [get?_modifyNode]
    split
    · simp [Function.comp_def]
    · rfl
  flags o := by rw [outlet?_modifyInput]
  inputs := rfl
  outputs := rfl

theorem modifyOutput (g : Graph) (o : OutputId) {f : Outlet → Outlet}
    (hf : ∀ q, (f q).type = q.type) (ha : ∀ q, (f q).attributes = q.attributes) :
    Rewired g (g.modifyOutput o f) where
  capacity := capacity_modifyOutput g o f
  declaration := declaration?_modifyOutput g o hf
  nodeFlags id := by
    unfold Graph.modifyOutput
    rw [get?_modifyNode]
    split
    · simp [Function.comp_def]
    · rfl
  flags r := by
    rw [outlet?_modifyOutput]
    split
    · simp [Function.comp_def, ha]
    · rfl
  inputs := rfl
  outputs := rfl

/-- Writing the two ends of an edge. -/
theorem ends (g : Graph) (i : InputId) (o : OutputId) (f : List InputId → List InputId)
    (x : Option OutputId) :
    Rewired g ((g.modifyOutput o fun q => { q with consumers := f q.consumers }).modifyInput i
      fun p => { p with producer := x }) := by
  refine trans (modifyOutput g o ?_ ?_) (modifyInput _ i ?_)
  · intro q
    rfl
  · intro q
    rfl
  · intro p
    rfl

theorem unplug (g : Graph) (i : InputId) (o : OutputId) : Rewired g (g.unplug i o) :=
  ends g i o (·.filter (· ≠ i)) none

theorem plug (g : Graph) (i : InputId) (o : OutputId) : Rewired g (g.plug i o) :=
  ends g i o (· ++ [i]) (some o)

theorem cut (g : Graph) (i : InputId) : Rewired g (g.cut i) := by
  unfold Graph.cut
  cases g.producer? i with
  | none => exact refl g
  | some o => exact unplug g i o

theorem wire (g : Graph) (i : InputId) (o : OutputId) : Rewired g (g.wire i o) := by
  unfold Graph.wire
  split
  · exact refl g
  · exact (cut g i).trans (plug _ i o)

theorem foldl_cut (g : Graph) (l : List InputId) : Rewired g (l.foldl Graph.cut g) := by
  induction l generalizing g with
  | nil => exact refl g
  | cons i l ih => exact (cut g i).trans (ih _)

variable {g' : Graph} (h : Rewired g g')
include h

theorem inlet?_eq_some {i : InputId} {p : Inlet} (hi : g.inlet? i = some p) :
    ∃ p', g'.inlet? i = some p' ∧ p'.type = p.type := by
  have ht := inlet?_type (g := g') i
  rw [h.declaration, ← inlet?_type, hi, Option.map_some, Option.map_eq_some_iff] at ht
  exact ht

theorem outlet?_eq_some {o : OutputId} {q : Outlet} (ho : g.outlet? o = some q) :
    ∃ q', g'.outlet? o = some q' ∧ q'.type = q.type ∧ q'.attributes = q.attributes := by
  have ht := outlet?_type (g := g') o
  rw [h.declaration, ← outlet?_type, ho, Option.map_some, Option.map_eq_some_iff] at ht
  obtain ⟨q', hq', htype⟩ := ht
  have ha := h.flags o
  rw [hq', ho] at ha
  exact ⟨q', hq', htype, Option.some.inj ha⟩

end Rewired

theorem producer?_wire {i : InputId} {p : Inlet} (hi : g.inlet? i = some p) (o : OutputId)
    (j : InputId) : (g.wire i o).producer? j = if i = j then some o else g.producer? j := by
  unfold wire
  split
  · next h =>
    by_cases hij : i = j
    · rw [if_pos hij, ← hij]
      exact h
    · rw [if_neg hij]
  · obtain ⟨p', hp', -⟩ := (Rewired.cut g i).inlet?_eq_some hi
    rw [producer?_plug hp', producer?_cut]
    by_cases hij : i = j
    · rw [if_pos hij, if_pos hij]
    · rw [if_neg hij, if_neg hij, if_neg hij]

/-! ## The operations -/

theorem run_setOutputAttributes {o : OutputId} {q : Outlet} (h : g.outlet? o = some q)
    (a : Attributes) :
    (setOutputAttributes o a).run g =
      .ok () (g.modifyOutput o fun q => { q with attributes := a }) := by
  unfold setOutputAttributes
  rw [EStateM.run_bind, GraphM.run_query, output_eq_ok.2 h]
  rfl

theorem run_setProducer {i : InputId} {p : Inlet} (h : g.inlet? i = some p)
    (x : Option OutputId) :
    (setProducer i x).run g = .ok () (g.modifyInput i fun q => { q with producer := x }) := by
  obtain ⟨n, hn, -⟩ := get?_of_inlet? h
  unfold setProducer
  rw [EStateM.run_bind, GraphM.run_query, nodeAt_eq_ok.2 hn]
  rfl

theorem run_disconnect {i : InputId} {p : Inlet} (h : g.inlet? i = some p) :
    (disconnect i).run g = .ok p.producer (g.cut i) := by
  unfold disconnect cut producer?
  rw [EStateM.run_bind, GraphM.run_query, input_eq_ok.2 h, h]
  dsimp only [Option.bind]
  cases hp : p.producer with
  | none => rfl
  | some o =>
    dsimp only
    rw [EStateM.run_bind, EStateM.run_modify]
    dsimp only
    rw [EStateM.run_bind, run_setProducer (p := p) (by rw [inlet?_modifyOutput, h])]
    rfl

/-- An input is detached exactly when it exists. -/
theorem run_disconnect_eq_ok {i : InputId} {x : Option OutputId} {g' : Graph} :
    (disconnect i).run g = .ok x g' ↔
      ∃ p, g.inlet? i = some p ∧ x = p.producer ∧ g' = g.cut i := by
  constructor
  · intro h
    have hparts := h
    unfold disconnect at hparts
    obtain ⟨p, g₁, hin, -⟩ := run_bind_eq_ok.1 hparts
    obtain ⟨hp, rfl⟩ := GraphM.run_query_eq_ok.1 hin
    rw [input_eq_ok] at hp
    rw [run_disconnect hp] at h
    cases h
    exact ⟨p, hp, rfl, rfl⟩
  · rintro ⟨p, hp, rfl, rfl⟩
    exact run_disconnect hp

theorem run_disconnect_eq_error {i : InputId} {e : GraphError} {g' : Graph} :
    (disconnect i).run g = .error e g' ↔ g' = g ∧ g.input i = .error e := by
  cases hi : g.input i with
  | error e' =>
    have hrun : (disconnect i).run g = .error e' g := by
      unfold disconnect
      rw [EStateM.run_bind, GraphM.run_query, hi]
    rw [hrun]
    simp [eq_comm, and_comm]
  | ok p =>
    rw [run_disconnect (input_eq_ok.1 hi)]
    simp

theorem run_connect {i : InputId} {o : OutputId} {p : Inlet} {q : Outlet}
    (hi : g.inlet? i = some p) (ho : g.outlet? o = some q) :
    (connect i o).run g =
      if q.type = p.type then .ok () (g.wire i o)
      else .error (.typeMismatch q.type p.type) g := by
  have hp : g.producer? i = p.producer := by rw [producer?, hi]; rfl
  unfold connect wire
  rw [EStateM.run_bind, GraphM.run_query, output_eq_ok.2 ho]
  dsimp only
  rw [EStateM.run_bind, GraphM.run_query, input_eq_ok.2 hi, hp]
  dsimp only
  by_cases ht : q.type = p.type
  · rw [if_pos ht, if_neg (fun h => h ht)]
    by_cases hpo : p.producer = some o
    · rw [if_pos hpo, if_pos hpo]
      rfl
    · -- Detaching leaves every connector in its place, so both ends are found again.
      obtain ⟨p', hp', -⟩ := (Rewired.cut g i).inlet?_eq_some hi
      obtain ⟨q', hq', -⟩ := (Rewired.cut g i).outlet?_eq_some ho
      rw [if_neg hpo, if_neg hpo, EStateM.run_bind, run_disconnect hi]
      dsimp only
      rw [EStateM.run_bind, GraphM.run_query, output_eq_ok.2 hq']
      dsimp only
      rw [EStateM.run_bind, EStateM.run_modify]
      dsimp only
      rw [run_setProducer (p := p') (by rw [inlet?_modifyOutput, hp'])]
      rfl
  · rw [if_neg ht, if_pos ht]
    rfl

/-- An edge is made exactly when both connectors exist and their types are equal. -/
theorem run_connect_eq_ok {i : InputId} {o : OutputId} {g' : Graph} {u : Unit} :
    (connect i o).run g = .ok u g' ↔
      ∃ p q, g.inlet? i = some p ∧ g.outlet? o = some q ∧ q.type = p.type ∧
        g' = g.wire i o := by
  constructor
  · intro h
    have hparts := h
    unfold connect at hparts
    obtain ⟨q, g₁, hout, hrest⟩ := run_bind_eq_ok.1 hparts
    obtain ⟨hq, rfl⟩ := GraphM.run_query_eq_ok.1 hout
    obtain ⟨p, g₂, hin, -⟩ := run_bind_eq_ok.1 hrest
    obtain ⟨hp, rfl⟩ := GraphM.run_query_eq_ok.1 hin
    rw [output_eq_ok] at hq
    rw [input_eq_ok] at hp
    rw [run_connect hp hq] at h
    by_cases ht : q.type = p.type
    · rw [if_pos ht] at h
      cases h
      exact ⟨p, q, hp, hq, ht, rfl⟩
    · rw [if_neg ht] at h
      cases h
  · rintro ⟨p, q, hp, hq, ht, rfl⟩
    rw [run_connect hp hq, if_pos ht]

/-- Why an edge from `o` to `i` is refused: an end is missing, where the output is looked
up first, or the ends differ in type. -/
inductive EdgeRefused (g : Graph) (i : InputId) (o : OutputId) : GraphError → Prop
  | output {e : GraphError} (ho : g.output o = .error e) : EdgeRefused g i o e
  | input {q : Outlet} {e : GraphError} (ho : g.output o = .ok q) (hi : g.input i = .error e) :
      EdgeRefused g i o e
  | type {q : Outlet} {p : Inlet} (ho : g.output o = .ok q) (hi : g.input i = .ok p)
      (hne : q.type ≠ p.type) : EdgeRefused g i o (.typeMismatch q.type p.type)

/-- A refused edge leaves the graph alone. -/
theorem run_connect_eq_error {i : InputId} {o : OutputId} {e : GraphError} {g' : Graph} :
    (connect i o).run g = .error e g' ↔ g' = g ∧ EdgeRefused g i o e := by
  cases ho : g.output o with
  | error e' =>
    have hrun : (connect i o).run g = .error e' g := by
      unfold connect
      rw [EStateM.run_bind, GraphM.run_query, ho]
    rw [hrun]
    constructor
    · intro h
      cases h
      exact ⟨rfl, .output ho⟩
    · rintro ⟨rfl, hrefused⟩
      cases hrefused with
      | output ho' => rw [Except.error.inj (ho.symm.trans ho')]
      | input ho' => cases ho.symm.trans ho'
      | type ho' => cases ho.symm.trans ho'
  | ok q =>
    cases hi : g.input i with
    | error e' =>
      have hrun : (connect i o).run g = .error e' g := by
        unfold connect
        rw [EStateM.run_bind, GraphM.run_query, ho]
        dsimp only
        rw [EStateM.run_bind, GraphM.run_query, hi]
      rw [hrun]
      constructor
      · intro h
        cases h
        exact ⟨rfl, .input ho hi⟩
      · rintro ⟨rfl, hrefused⟩
        cases hrefused with
        | output ho' => cases ho.symm.trans ho'
        | input ho' hi' => rw [Except.error.inj (hi.symm.trans hi')]
        | type ho' hi' => cases hi.symm.trans hi'
    | ok p =>
      rw [run_connect (input_eq_ok.1 hi) (output_eq_ok.1 ho)]
      constructor
      · intro h
        split at h
        · cases h
        · next hne =>
          cases h
          exact ⟨rfl, .type ho hi hne⟩
      · rintro ⟨rfl, hrefused⟩
        cases hrefused with
        | output ho' => cases ho.symm.trans ho'
        | input ho' hi' => cases hi.symm.trans hi'
        | type ho' hi' hne =>
          cases ho.symm.trans ho'
          cases hi.symm.trans hi'
          rw [if_neg hne]

theorem run_addNode_eq_ok {name : String} {op : Op} {t : TensorType} {id : NodeId} {g' : Graph} :
    (addNode name op t).run g = .ok id g' ↔
      ∃ s, op.signature t = .ok s ∧ id = g.nodes.capacity ∧ g' = g.append name op s := by
  unfold addNode
  rw [EStateM.run_bind, GraphM.run_query]
  cases op.signature t with
  | error e => simp
  | ok s =>
    simp only [EStateM.run_modifyGet, EStateM.Result.ok.injEq, Except.ok.injEq, exists_eq_left']
    exact ⟨fun h => ⟨h.1.symm, h.2.symm⟩, fun h => ⟨h.1.symm, h.2.symm⟩⟩

theorem run_addNode_eq_error {name : String} {op : Op} {t : TensorType} {e : GraphError}
    {g' : Graph} :
    (addNode name op t).run g = .error e g' ↔ g' = g ∧ op.signature t = .error e := by
  unfold addNode
  rw [EStateM.run_bind, GraphM.run_query]
  cases op.signature t with
  | error e' => simp [eq_comm, and_comm]
  | ok s => simp

/-- A graph output is added together with its edge. -/
theorem run_addOutput (name : String) {source : OutputId} {q : Outlet}
    (ho : g.outlet? source = some q) :
    (addOutput name source).run g = .ok g.nodes.capacity
      ((g.append name .output ⟨[q.type], []⟩).wire ⟨g.nodes.capacity, 0⟩ source) := by
  have hnode : (addNode name .output q.type).run g =
      .ok g.nodes.capacity (g.append name .output ⟨[q.type], []⟩) :=
    run_addNode_eq_ok.2 ⟨_, rfl, rfl, rfl⟩
  have hnew := inlet?_append_output g name q.type
  have hold := outlet?_append_of_some ho name .output ⟨[q.type], []⟩
  unfold addOutput
  rw [EStateM.run_bind, GraphM.run_query, output_eq_ok.2 ho]
  dsimp only
  rw [EStateM.run_bind, hnode]
  dsimp only
  rw [EStateM.run_bind, run_connect hnew hold, if_pos rfl]
  rfl

/-- A graph output is refused for want of its source only. Its own input is new and has the
type of the source, so the edge is made. -/
theorem run_addOutput_eq_error {name : String} {source : OutputId} {e : GraphError}
    {g' : Graph} :
    (addOutput name source).run g = .error e g' ↔ g' = g ∧ g.output source = .error e := by
  cases ho : g.output source with
  | error e' =>
    have hrun : (addOutput name source).run g = .error e' g := by
      unfold addOutput
      rw [EStateM.run_bind, GraphM.run_query, ho]
    rw [hrun]
    simp [eq_comm, and_comm]
  | ok q =>
    rw [run_addOutput name (output_eq_ok.1 ho)]
    simp

/-- Detaching a list of inputs that all exist. -/
theorem run_forM_disconnect (l : List InputId) (hl : ∀ i ∈ l, ∃ p, g.inlet? i = some p) :
    (l.forM fun i => discard (disconnect i)).run g = .ok () (l.foldl cut g) := by
  induction l generalizing g with
  | nil => rfl
  | cons i l ih =>
    obtain ⟨p, hp⟩ := hl i (List.mem_cons_self ..)
    have hrun : (discard (disconnect i) : GraphM Unit).run g = .ok () (g.cut i) := by
      have h := run_disconnect hp
      unfold EStateM.run at h ⊢
      show EStateM.map _ (disconnect i) g = _
      simp only [EStateM.map, h]
    have hrest : ∀ j ∈ l, ∃ p, (g.cut i).inlet? j = some p := by
      intro j hj
      obtain ⟨pj, hpj⟩ := hl j (List.mem_cons_of_mem _ hj)
      obtain ⟨p', hp', -⟩ := (Rewired.cut g i).inlet?_eq_some hpj
      exact ⟨p', hp'⟩
    show (discard (disconnect i) >>= fun _ => l.forM fun i => discard (disconnect i)).run g = _
    rw [EStateM.run_bind, hrun]
    exact ih hrest

/-- Removing a node that is not designated takes its edges away and then the node,
if the inputs that it lists as its consumers exist. -/
theorem run_removeNode {id : NodeId} {n : Node} (hn : g.nodes.get? id = some n)
    (hin : id ∉ g.inputs) (hout : id ∉ g.outputs)
    (hc : ∀ i ∈ n.consumers, ∃ p, g.inlet? i = some p) :
    (removeNode id).run g = .ok () ((g.isolate id n).dropNode id) := by
  have htouch : ∀ i ∈ touching id n, ∃ p, g.inlet? i = some p := by
    intro i hi
    rcases List.mem_append.1 hi with h | h
    · obtain ⟨k, hk, rfl⟩ := List.mem_map.1 h
      rw [List.mem_range] at hk
      exact ⟨n.inputs[k], by simp [inlet?, hn, List.getElem?_eq_getElem hk]⟩
    · exact hc i h
  unfold removeNode
  rw [EStateM.run_bind, GraphM.run_query, node_eq_ok.2 hn]
  dsimp only
  rw [EStateM.run_bind, EStateM.run_get]
  dsimp only
  have hloop := run_forM_disconnect _ htouch
  unfold touching at hloop
  rw [if_neg (by simp [hin, hout]), EStateM.run_bind, hloop]
  rfl

theorem run_removeNode_of_missing {id : NodeId} {e : GraphError} (hn : g.node id = .error e) :
    (removeNode id).run g = .error e g := by
  unfold removeNode
  rw [EStateM.run_bind, GraphM.run_query, hn]

theorem run_removeNode_of_designated {id : NodeId} {n : Node} (hn : g.node id = .ok n)
    (hd : id ∈ g.inputs ∨ id ∈ g.outputs) :
    (removeNode id).run g = .error (.designatedNode n.name) g := by
  unfold removeNode
  rw [EStateM.run_bind, GraphM.run_query, hn]
  dsimp only
  rw [run_get_bind, if_pos hd]
  rfl

end FixedNet.Graph
