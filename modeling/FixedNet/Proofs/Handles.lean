/-
**No operation uses the handle of a node that is gone.** A node that the caller names is
looked up with `node`, and it may be missing. A node that the graph itself refers to is
looked up with `nodeAt`, and the error `stale` would say that it is missing all the same.
This never happens, whatever the operations are given.

* `Free` and `Avoids`: a computation does not end in an error of a certain kind. For a
  sequence of computations it is enough that each step does not, started where the steps
  before it ended.
* The operations on graphs look an input up before they write to it, so they avoid stale
  handles on every graph, well formed or not.
* The others follow edges, and on a well-formed graph edges lead to nodes that exist.
-/
import FixedNet.Graph.Dump
import FixedNet.Proofs.Rewriting
import FixedNet.Proofs.Sweeping

set_option autoImplicit false

namespace FixedNet

/-! ## Stale handles -/

/-- The graph refers to a node that is gone. -/
def GraphError.isStale : GraphError → Bool
  | .stale _ => true
  | _ => false

/-- The graph that a transform works on refers to a node that is gone. -/
def EngineError.isStale : EngineError → Bool
  | .graph cause => cause.isStale
  | _ => false

/-- The graph that is evaluated refers to a node that is gone. -/
def EvalError.isStale : EvalError → Bool
  | .graph cause => cause.isStale
  | _ => false

/-! ## Computations that avoid an error -/

section Avoids

variable {ε ε' σ α β : Type} {bad : ε → Bool}

/-- The result is not an error of the kind `bad`. -/
def Free (bad : ε → Bool) (m : Except ε α) : Prop := ∀ e, m = .error e → bad e = false

theorem Free.ok (a : α) : Free bad (.ok a) := nofun

theorem Free.error {e : ε} (he : bad e = false) : Free bad (.error e : Except ε α) := by
  intro e' h
  cases h
  exact he

theorem Free.bind {m : Except ε α} {f : α → Except ε β} (hm : Free bad m)
    (hf : ∀ a, m = .ok a → Free bad (f a)) : Free bad (m >>= f) := by
  intro e h
  rcases except_bind_eq_error.1 h with h | ⟨a, ha, h⟩
  · exact hm e h
  · exact hf a ha e h

theorem Free.mapError {bad' : ε' → Bool} {m : Except ε α} {f : ε → ε'} (hm : Free bad m)
    (hf : ∀ e, bad e = false → bad' (f e) = false) : Free bad' (m.mapError f) := by
  intro e h
  cases m with
  | ok a => cases h
  | error e' =>
    cases h
    exact hf e' (hm e' rfl)

theorem Free.mapError_of_forall {bad' : ε' → Bool} (m : Except ε α) {f : ε → ε'}
    (hf : ∀ e, bad' (f e) = false) : Free bad' (m.mapError f) := by
  have hm : Free (fun _ => false) m := fun _ _ => rfl
  exact hm.mapError fun e _ => hf e

/-- Started in the state `s`, the computation does not stop at an error of the kind
`bad`. -/
def Avoids (bad : ε → Bool) (m : EStateM ε σ α) (s : σ) : Prop :=
  ∀ e s', m.run s = .error e s' → bad e = false

variable {m : EStateM ε σ α} {s : σ}

theorem Avoids.pure (a : α) : Avoids bad (Pure.pure a : EStateM ε σ α) s := nofun

theorem Avoids.throw {e : ε} (he : bad e = false) :
    Avoids bad (throw e : EStateM ε σ α) s := by
  intro e' s' h
  cases h
  exact he

theorem Avoids.modifyGet (f : σ → α × σ) : Avoids bad (modifyGet f : EStateM ε σ α) s := nofun

theorem Avoids.set (s' : σ) : Avoids bad (set s' : EStateM ε σ PUnit) s := nofun

theorem Avoids.bind {f : α → EStateM ε σ β} (hm : Avoids bad m s)
    (hf : ∀ a s', m.run s = .ok a s' → Avoids bad (f a) s') : Avoids bad (m >>= f) s := by
  intro e s'' h
  rcases run_bind_eq_error.1 h with h | ⟨a, s', ha, h⟩
  · exact hm e s'' h
  · exact hf a s' ha e s'' h

theorem Avoids.get_bind {f : σ → EStateM ε σ α} (hf : Avoids bad (f s) s) :
    Avoids bad (get >>= f) s := hf

theorem Avoids.discard (hm : Avoids bad m s) : Avoids bad (discard m) s := by
  intro e s' h
  have hmap : EStateM.map (Function.const α PUnit.unit) m s = .error e s' := h
  unfold EStateM.map at hmap
  split at hmap
  · cases hmap
  · next e' s₁ hrun =>
    cases hmap
    exact hm e s' hrun

/-- A loop avoids what its body avoids, if the body keeps what it needs for that. -/
theorem Avoids.forM {P : σ → Prop} {f : α → EStateM ε σ PUnit} (hkeeps : ∀ a, Keeps P (f a))
    (hf : ∀ a s, P s → Avoids bad (f a) s) (l : List α) (hs : P s) :
    Avoids bad (l.forM f) s := by
  induction l generalizing s with
  | nil => exact Avoids.pure _
  | cons a l ih => exact Avoids.bind (hf a s hs) fun _ s' hrun => ih ((hkeeps a).of_ok hs hrun)

theorem Avoids.foldlM {P : σ → Prop} {f : β → α → EStateM ε σ β}
    (hkeeps : ∀ b a, Keeps P (f b a)) (hf : ∀ b a s, P s → Avoids bad (f b a) s) (l : List α)
    (b : β) (hs : P s) : Avoids bad (l.foldlM f b) s := by
  induction l generalizing b s with
  | nil => exact Avoids.pure b
  | cons a l ih =>
    rw [List.foldlM_cons]
    exact Avoids.bind (hf b a s hs) fun b' s' hrun => ih b' ((hkeeps b a).of_ok hs hrun)

end Avoids

/-! ## Looking up -/

namespace Graph

variable (g : Graph)

theorem free_node (id : NodeId) : Free GraphError.isStale (g.node id) := by
  unfold node
  cases g.nodes.get? id with
  | none => exact .error rfl
  | some n => exact .ok n

theorem free_input (i : InputId) : Free GraphError.isStale (g.input i) := by
  refine .bind (g.free_node i.node) fun n _ => ?_
  cases n.inputs[i.index]? with
  | none => exact .error rfl
  | some p => exact .ok p

theorem free_output (o : OutputId) : Free GraphError.isStale (g.output o) := by
  refine .bind (g.free_node o.node) fun n _ => ?_
  cases n.outputs[o.index]? with
  | none => exact .error rfl
  | some q => exact .ok q

theorem free_producer (i : InputId) : Free GraphError.isStale (g.producer i) :=
  .bind (g.free_input i) fun _ _ => .ok _

theorem free_consumers (o : OutputId) : Free GraphError.isStale (g.consumers o) :=
  .bind (g.free_output o) fun _ _ => .ok _

theorem free_nodeAt {g : Graph} {id : NodeId} (h : g.contains id) :
    Free GraphError.isStale (g.nodeAt id) := by
  obtain ⟨n, hn⟩ := (Arena.contains_iff _ _).1 h
  rw [nodeAt_eq_ok.2 hn]
  exact .ok n

/-- Only a cycle keeps the needed nodes from being put in order. -/
theorem WellFormed.topologicalOrder_eq_error {g : Graph} (hg : g.WellFormed) {e : GraphError}
    (h : g.topologicalOrder = .error e) : ∃ visited total, e = .cycle visited total := by
  obtain ⟨live, hlive, -⟩ := hg.reachable_ok
  rw [hg.topologicalOrder_eq hlive] at h
  split at h
  · cases h
  · cases h
    exact ⟨_, _, rfl⟩

end Graph

theorem Convolution.free_resultType {ω β : Type} (c : Convolution ω β) (t : TensorType) :
    Free GraphError.isStale (c.resultType t) := by
  unfold Convolution.resultType
  cases Extents.ofShape? t.shape with
  | none => exact .error rfl
  | some e => exact .ok _

theorem Op.free_signature (op : Op) (t : TensorType) :
    Free GraphError.isStale (op.signature t) := by
  cases op with
  | conv2d c => exact .bind (c.free_resultType t) fun _ _ => .ok _
  | quantizedConv2d c => exact .bind (c.free_resultType t) fun _ _ => .ok _
  | _ => exact .ok _

/-! ## Operations on graphs -/

theorem GraphM.avoids_query {α : Type} {f : Graph → Except GraphError α} {g : Graph}
    (h : Free GraphError.isStale (f g)) : Avoids GraphError.isStale (GraphM.query f) g := by
  intro e g' hrun
  rw [GraphM.run_query] at hrun
  cases hf : f g with
  | ok a =>
    rw [hf] at hrun
    cases hrun
  | error e' =>
    rw [hf] at hrun
    cases hrun
    exact h e hf

namespace Graph

variable (g : Graph)

theorem avoids_disconnect (i : InputId) : Avoids GraphError.isStale (disconnect i) g := by
  cases hi : g.inlet? i with
  | some p =>
    intro e g' h
    rw [run_disconnect hi] at h
    cases h
  | none =>
    refine .bind (GraphM.avoids_query (g.free_input i)) fun p g' hrun => ?_
    obtain ⟨hp, -⟩ := GraphM.run_query_eq_ok.1 hrun
    rw [input_eq_ok, hi] at hp
    cases hp

theorem avoids_connect (i : InputId) (o : OutputId) :
    Avoids GraphError.isStale (connect i o) g := by
  cases ho : g.outlet? o with
  | none =>
    refine .bind (GraphM.avoids_query (g.free_output o)) fun q g' hrun => ?_
    obtain ⟨hq, -⟩ := GraphM.run_query_eq_ok.1 hrun
    rw [output_eq_ok, ho] at hq
    cases hq
  | some q =>
    cases hi : g.inlet? i with
    | none =>
      refine .bind (GraphM.avoids_query (g.free_output o)) fun q g' hrun => ?_
      obtain ⟨-, rfl⟩ := GraphM.run_query_eq_ok.1 hrun
      refine .bind (GraphM.avoids_query (g'.free_input i)) fun p g₁ hrun => ?_
      obtain ⟨hp, -⟩ := GraphM.run_query_eq_ok.1 hrun
      rw [input_eq_ok, hi] at hp
      cases hp
    | some p =>
      -- Both ends are there, and only their types can be a reason to refuse.
      intro e g' h
      rw [run_connect hi ho] at h
      split at h
      · cases h
      · cases h
        rfl

theorem avoids_addNode (name : String) (op : Op) (t : TensorType) :
    Avoids GraphError.isStale (addNode name op t) g :=
  .bind (GraphM.avoids_query (op.free_signature t)) fun _ _ _ => .modifyGet _

theorem avoids_addOutput (name : String) (source : OutputId) :
    Avoids GraphError.isStale (addOutput name source) g :=
  .bind (GraphM.avoids_query (g.free_output source)) fun _ g₁ _ =>
    .bind (g₁.avoids_addNode _ _ _) fun _ g₂ _ =>
      .bind (g₂.avoids_connect _ _) fun _ _ _ => .pure _

theorem avoids_setOutputAttributes (o : OutputId) (a : Attributes) :
    Avoids GraphError.isStale (setOutputAttributes o a) g :=
  .bind (GraphM.avoids_query (g.free_output o)) fun _ _ _ => .modifyGet _

theorem avoids_removeNode (id : NodeId) : Avoids GraphError.isStale (removeNode id) g := by
  refine .bind (GraphM.avoids_query (g.free_node id)) fun n g₁ _ => .get_bind ?_
  dsimp only
  split
  · exact .throw rfl
  · have hloop : ∀ l : List InputId,
        Avoids GraphError.isStale (l.forM fun i => discard (disconnect i)) g₁ := fun l =>
      .forM (P := fun _ => True) (fun _ _ _ => trivial)
        (fun i g _ => .discard (g.avoids_disconnect i)) l trivial
    exact .bind (hloop _) fun _ _ _ => .modifyGet _

end Graph

/-! ## Transforms -/

open FixedNet.Graph

theorem TransformM.avoids_edit {σ α : Type} {m : GraphM α} {w : EngineState σ}
    (h : Avoids GraphError.isStale m w.graph) :
    Avoids EngineError.isStale (TransformM.edit m : TransformM σ α) w := by
  intro e w' hrun
  have hedit : TransformM.edit m w = .error e w' := hrun
  unfold TransformM.edit at hedit
  split at hedit
  · cases hedit
  · next cause g hm =>
    cases hedit
    exact h cause g hm

theorem TransformM.avoids_query {σ α : Type} {f : Graph → Except GraphError α} {w : EngineState σ}
    (h : Free GraphError.isStale (f w.graph)) :
    Avoids EngineError.isStale (TransformM.query f : TransformM σ α) w :=
  avoids_edit (GraphM.avoids_query h)

/-- The output whose properties are carried over has been looked up when its node is. -/
theorem avoids_carryOver (old new : OutputId) (calibrated : Bool) (w : EngineState Calibration) :
    Avoids EngineError.isStale (carryOver old new calibrated) w := by
  refine .bind (TransformM.avoids_query (w.graph.free_output old)) fun q w₁ hq => ?_
  obtain ⟨hq, rfl⟩ := TransformM.run_query_eq_ok.1 hq
  refine .bind (TransformM.avoids_query (w₁.graph.free_output new)) fun q' w₂ hq' => ?_
  obtain ⟨hq', rfl⟩ := TransformM.run_query_eq_ok.1 hq'
  refine .bind (TransformM.avoids_edit (avoids_setOutputAttributes _ _ _)) fun _ w₃ hset => ?_
  obtain ⟨g₃, hg₃, rfl⟩ := TransformM.run_edit_eq_ok.1 hset
  rw [run_setOutputAttributes (output_eq_ok.1 hq')] at hg₃
  cases hg₃
  cases calibrated with
  | false => exact .pure _
  | true =>
    refine .get_bind ?_
    dsimp only
    cases w₂.state.copy old new with
    | ok c => exact .set _
    | error e =>
      have hold : (w₂.graph.modifyOutput new fun r =>
          { r with attributes := q'.attributes.union q.attributes }).contains old.node := by
        rw [Graph.contains_iff, declaration?_modifyOutput w₂.graph new fun _ => by rfl]
        exact Graph.contains_iff.1 (contains_of_outlet? (output_eq_ok.1 hq))
      exact .bind (TransformM.avoids_query (free_nodeAt hold)) fun _ _ _ => .throw rfl

namespace FixedPoint

theorem free_resultType {g : Graph} {id : NodeId} (h : g.contains id) :
    Free GraphError.isStale (resultType g id) := by
  refine .bind (free_nodeAt h) fun n _ => ?_
  cases n.outputs[0]? with
  | none => exact .error rfl
  | some q => exact .ok _

theorem free_plan (config : CodeLimits) (m : Match) {g : Graph} (hg : g.WellFormed)
    (c : Calibration) : Free EngineError.isStale (plan config m g c) := by
  unfold plan
  split
  · refine .bind (.mapError (g.free_node _) fun _ he => he) fun n _ => ?_
    split
    · refine .bind (.mapError (g.free_producer _) fun _ he => he) fun source hsource => ?_
      cases source with
      | none => exact .error rfl
      | some source =>
        -- An edge leads to an output that exists, so to a node that does.
        obtain ⟨q, hq, -⟩ :=
          hg.outlet?_of_producer? (producer_eq_ok_some.1 (mapError_eq_ok.1 hsource))
        have hfeeder := free_nodeAt (contains_of_outlet? hq)
        refine .bind (.mapError hfeeder fun _ he => he) fun feeder _ => ?_
        exact .bind (.mapError_of_forall _ fun _ => rfl) fun _ _ => .ok _
    · exact .error rfl
  · exact .error rfl

theorem avoids_splice (p : Plan) (w : EngineState Calibration) :
    Avoids EngineError.isStale (splice p) w := by
  refine .bind (TransformM.avoids_query (w.graph.free_output p.source)) fun q w₁ _ => ?_
  refine .bind (TransformM.avoids_edit (avoids_addNode _ _ _ _)) fun quantize w₂ _ => ?_
  refine .bind (TransformM.avoids_edit (avoids_addNode _ _ _ _)) fun conv w₃ hconv => ?_
  -- The node whose type is read has just been added.
  have hnew : w₃.graph.contains conv := by
    obtain ⟨g₃, hg₃, rfl⟩ := TransformM.run_edit_eq_ok.1 hconv
    obtain ⟨s, -, rfl, rfl⟩ := run_addNode_eq_ok.1 hg₃
    exact (Arena.contains_iff _ _).2 ⟨_, (get?_append ..).trans (if_pos rfl)⟩
  refine .bind (TransformM.avoids_query (free_resultType hnew)) fun t w₄ _ => ?_
  refine .bind (TransformM.avoids_edit (avoids_addNode _ _ _ _)) fun dequantize w₅ _ => ?_
  refine .bind (avoids_carryOver _ _ _ w₅) fun _ w₆ _ => ?_
  refine .bind (TransformM.avoids_query (w₆.graph.free_consumers _)) fun consumers w₇ _ => ?_
  have hedges : ∀ l : List (InputId × OutputId), Avoids EngineError.isStale
      (l.forM fun e => (TransformM.edit (connect e.1 e.2) : TransformM Calibration Unit)) w₇ :=
    fun l => .forM (P := fun _ => True) (fun _ _ _ => trivial)
      (fun e w _ => TransformM.avoids_edit (w.graph.avoids_connect e.1 e.2)) l trivial
  exact .bind (hedges _) fun _ _ _ => .modifyGet _

/-- A replacement avoids stale handles for any match. -/
theorem avoids_apply (config : CodeLimits) (m : Match) {w : EngineState Calibration}
    (hg : w.graph.WellFormed) : Avoids EngineError.isStale (apply config m) w := by
  refine .get_bind ?_
  have hplan := free_plan config m hg w.state
  cases hp : plan config m w.graph w.state with
  | error e => exact .throw (hplan e hp)
  | ok p => exact .bind (.modifyGet _) fun _ w₁ _ => avoids_splice p w₁

theorem avoids_visit (config : CodeLimits) (report : Engine.Report) (id : NodeId)
    {w : EngineState Calibration} (hg : w.graph.WellFormed) :
    Avoids EngineError.isStale (Engine.visit [transform config] report id) w := by
  cases hn : w.graph.nodes.get? id with
  | none =>
    refine .get_bind ?_
    rw [hn]
    exact .pure _
  | some n =>
    intro e w' h
    cases hm : recognize w.graph id with
    | none =>
      rw [run_visit_of_none report hn hm] at h
      cases h
    | some m =>
      obtain ⟨log, hvisit⟩ := run_visit_of_some config report hn hm
      rw [hvisit] at h
      have happly := avoids_apply config m (w := ⟨w.graph, w.state, log⟩) hg
      exact Avoids.bind happly (fun _ _ _ => .pure _) e w' h

theorem avoids_lower (config : CodeLimits) {w : EngineState Calibration}
    (hg : w.graph.WellFormed) : Avoids EngineError.isStale (lower config) w := by
  have hkeeps : ∀ t ∈ [transform config], ∀ m, Keeps (OnGraph (Follows w.graph)) (t.apply m) := by
    intro t ht
    cases List.mem_singleton.1 ht
    exact (persists_follows _).apply config
  have hstart : Follows w.graph w.graph := .refl hg
  have hvisits : Avoids EngineError.isStale
      (w.graph.ids.foldlM (Engine.visit [transform config]) {}) w :=
    .foldlM (keeps_visit hkeeps)
      (fun report id w hw => avoids_visit config report id (Follows.wellFormed hw)) _ _ hstart
  refine .bind (.get_bind (.bind hvisits fun _ _ _ =>
    .bind (.modifyGet _) fun _ _ _ => .pure _)) fun report w₁ hrun => .get_bind ?_
  have hafter : Follows w.graph w₁.graph := (keeps_run hkeeps).of_ok hstart hrun
  obtain ⟨s, hs, -⟩ := hafter.wellFormed.sweep_ok
  dsimp only
  rw [hs]
  exact .bind (.set _) fun _ _ _ => .pure _

end FixedPoint

/-! ## Evaluation -/

theorem Value.free_check (v : Value) (node : String) (t : TensorType) :
    Free EvalError.isStale (v.check node t) := by
  unfold Value.check
  split
  · exact .ok _
  · exact .error rfl

theorem Value.free_asNumbers (v : Value) (node : String) :
    Free EvalError.isStale (v.asNumbers node) := by
  cases v with
  | numbers t => exact .ok t
  | codes t => exact .error rfl

theorem Value.free_asCodes (v : Value) (node : String) :
    Free EvalError.isStale (v.asCodes node) := by
  cases v with
  | numbers t => exact .error rfl
  | codes t => exact .ok t

theorem Tensor.free_asRankFour {α : Type} (t : Tensor α) (node : String) (scalar : Scalar) :
    Free EvalError.isStale (t.asRankFour node scalar) := by
  unfold Tensor.asRankFour
  cases Tensor4.ofTensor? t with
  | none => exact .error rfl
  | some x => exact .ok x

theorem Op.free_evaluate (op : Op) (node : String) (v : Value) :
    Free EvalError.isStale (op.evaluate node v) := by
  cases op with
  | input => exact .ok v
  | output => exact .ok v
  | conv2d c =>
    exact .bind (v.free_asNumbers node) fun t _ => .bind (t.free_asRankFour node .f32) fun _ _ =>
      .bind (.mapError_of_forall _ fun _ => rfl) fun _ _ => .ok _
  | quantizedConv2d c =>
    exact .bind (v.free_asCodes node) fun t _ => .bind (t.free_asRankFour node .u8) fun _ _ =>
      .bind (.mapError_of_forall _ fun _ => rfl) fun _ _ => .ok _
  | quantize code => exact .bind (v.free_asNumbers node) fun _ _ => .ok _
  | dequantize code => exact .bind (v.free_asCodes node) fun _ _ => .ok _

namespace Evaluation

variable {g : Graph} (feed : Feed) (e : Evaluation)

theorem free_operand (id : NodeId) (n : Node) :
    Free EvalError.isStale (e.operand g id n) := by
  refine .bind (.mapError (g.free_input ⟨id, 0⟩) fun _ he => he) fun p _ => ?_
  cases p.producer.bind e.value? with
  | none => exact .error rfl
  | some v => exact .bind (v.free_check n.name p.type) fun _ _ => .ok _

theorem free_entering (id : NodeId) (n : Node) :
    Free EvalError.isStale (e.entering g feed id n) := by
  unfold entering
  split
  · split
    · exact .ok _
    · exact .error rfl
  · exact e.free_operand id n

/-- A step at a node that exists avoids stale handles, whatever was computed before. -/
theorem free_step {id : NodeId} (hid : g.contains id) :
    Free EvalError.isStale (e.step g feed id) := by
  refine .bind (.mapError (free_nodeAt hid) fun _ he => he) fun n _ => ?_
  refine .bind (e.free_entering feed id n) fun x _ => ?_
  split
  · exact .ok _
  · refine .bind (n.op.free_evaluate n.name x) fun y _ => ?_
    refine .bind (.mapError (g.free_output ⟨id, 0⟩) fun _ he => he) fun q _ => ?_
    exact .bind (y.free_check n.name q.type) fun _ _ => .ok _

theorem free_along {ids : List NodeId} (hids : ∀ id ∈ ids, g.contains id) {err : EvalError}
    (h : (along g feed e ids).error = some err) : err.isStale = false := by
  induction ids generalizing e with
  | nil => cases h
  | cons id ids ih =>
    obtain ⟨hid, hrest⟩ := List.forall_mem_cons.1 hids
    unfold along at h
    cases hstep : e.step g feed id with
    | ok e' =>
      rw [hstep] at h
      exact ih e' hrest h
    | error err' =>
      rw [hstep] at h
      cases h
      exact e.free_step feed hid err hstep

end Evaluation

theorem Graph.WellFormed.free_trace {g : Graph} (hg : g.WellFormed) (feed : Feed) :
    Free EvalError.isStale (g.trace feed) := by
  have hprogress : ∀ err, (g.progress feed).error = some err → err.isStale = false := by
    intro err h
    unfold progress at h
    cases horder : g.topologicalOrder with
    | error e =>
      rw [horder] at h
      obtain ⟨visited, total, rfl⟩ := hg.topologicalOrder_eq_error horder
      cases h
      rfl
    | ok order =>
      rw [horder] at h
      obtain ⟨-, -, hneeded⟩ := hg.topologicalOrder_eq_ok horder
      have hids : ∀ id ∈ order, g.contains id := fun id hid =>
        hg.contains_of_needed ((hneeded id).1 hid)
      exact Evaluation.free_along feed {} hids h
  intro err h
  unfold trace at h
  split at h
  · cases h
  · next hp =>
    cases h
    exact hprogress err (by rw [hp])

/-! ## Handles in any graph that is ever built -/

/-- What a region is marked around exists. -/
theorem Region.outlet?_of_surroundings (r : Region) {g : Graph} (hg : g.WellFormed)
    {o : OutputId} (h : o ∈ r.surroundings g) : ∃ q, g.outlet? o = some q := by
  obtain ⟨⟨id, n⟩, hmem, ho⟩ := List.mem_flatMap.1 h
  have hn : g.nodes.get? id = some n := Arena.mem_entries.1 (List.mem_of_mem_filter hmem)
  rcases List.mem_append.1 ho with ho | ho
  · obtain ⟨k, hk⟩ := (mem_producers hn).1 ho
    obtain ⟨q, hq, -⟩ := hg.outlet?_of_producer? hk
    exact ⟨q, hq⟩
  · obtain ⟨k, hk, rfl⟩ := List.mem_map.1 ho
    obtain ⟨q, hq⟩ : ∃ q, n.outputs[k]? = some q :=
      ⟨_, List.getElem?_eq_getElem (List.mem_range.1 hk)⟩
    refine ⟨q, ?_⟩
    rw [outlet?, hn]
    exact hq

/-- A dump finds the node behind every edge. -/
theorem Graph.WellFormed.producerText_eq {g : Graph} (hg : g.WellFormed) {id : NodeId} {n : Node}
    (hn : g.nodes.get? id = some n) {p : Inlet} (hp : p ∈ n.inputs) {o : OutputId}
    (ho : p.producer = some o) :
    ∃ m, g.nodes.get? o.node = some m ∧ g.producerText p = s!"{o} (\"{m.name}\")" := by
  obtain ⟨k, hk⟩ := List.mem_iff_getElem?.1 hp
  have hproducer : g.producer? ⟨id, k⟩ = some o := by
    rw [producer?, inlet?, hn, Option.bind_some, hk, Option.bind_some, ho]
  obtain ⟨q, hq, -⟩ := hg.outlet?_of_producer? hproducer
  obtain ⟨m, hm, -⟩ := get?_of_outlet? hq
  refine ⟨m, hm, ?_⟩
  rw [producerText, ho]
  dsimp only
  rw [hm]

/-- **Handles stay valid.** The operations on graphs never refer to a node that is gone,
whatever graph and arguments they are given. This includes the removals of a sweep, which
passes over those that are refused. In a graph built by any sequence of operations, moreover:
* the nodes that are found reachable and those that are put in order are all there, and only
  a cycle prevents an order;
* recognition looks connectors up without relying on them, though the output that feeds an
  input is always there, and so is all that a region is marked around;
* a dump writes the name of the node behind each edge, and never that it is removed;
* a sweep succeeds;
* a replacement of any match, a lowering and an evaluation may fail, with any limits, table
  and tensors, but never at a node that is gone. -/
theorem handles_valid (cs : List Command) :
    (∀ g i, Avoids GraphError.isStale (disconnect i) g) ∧
    (∀ g i o, Avoids GraphError.isStale (connect i o) g) ∧
    (∀ g id, Avoids GraphError.isStale (removeNode id) g) ∧
    (∀ g name o, Avoids GraphError.isStale (addOutput name o) g) ∧
    (∀ w old new calibrated, Avoids EngineError.isStale (carryOver old new calibrated) w) ∧
    (∃ live, (build cs).reachable = .ok live ∧ (∀ id ∈ live, (build cs).contains id) ∧
      ∀ id ∈ (build cs).schedule [] live, (build cs).contains id) ∧
    (∀ e, (build cs).topologicalOrder = .error e → ∃ visited total, e = .cycle visited total) ∧
    (∀ i, Free GraphError.isStale ((build cs).producer i)) ∧
    (∀ o, Free GraphError.isStale ((build cs).output o)) ∧
    (∀ i o, (build cs).producer i = .ok (some o) → ∃ q, (build cs).output o = .ok q) ∧
    (∀ r : Region, ∀ o ∈ r.surroundings (build cs), ∃ q, (build cs).output o = .ok q) ∧
    (∀ id n p o, (id, n) ∈ (build cs).nodes.entries → p ∈ n.inputs → p.producer = some o →
      ∃ m, (build cs).node o.node = .ok m ∧
        (build cs).producerText p = s!"{o} (\"{m.name}\")") ∧
    (∃ s, DeadNodes.sweep (build cs) = .ok s) ∧
    (∀ config m c log,
      Avoids EngineError.isStale (FixedPoint.apply config m) ⟨build cs, c, log⟩) ∧
    (∀ config c log, Avoids EngineError.isStale (FixedPoint.lower config) ⟨build cs, c, log⟩) ∧
    ∀ feed, Free EvalError.isStale ((build cs).trace feed) := by
  have hg := wellFormed_build cs
  obtain ⟨live, hlive, hsub, hneeded⟩ := hg.reachable_ok
  have hthere : ∀ id ∈ live, (build cs).contains id := fun id hid =>
    hg.contains_of_needed ((hneeded id).1 hid)
  obtain ⟨-, -, hpending, -⟩ := schedule_spec (build cs) [] live (hsub.nodup (ids_nodup _))
  obtain ⟨s, hs, -⟩ := hg.sweep_ok
  refine ⟨avoids_disconnect, avoids_connect, avoids_removeNode, avoids_addOutput,
    fun w old new calibrated => avoids_carryOver old new calibrated w,
    ⟨live, hlive, hthere, fun id hid => hthere id (hpending id hid)⟩,
    fun e => hg.topologicalOrder_eq_error, free_producer _, free_output _, fun i o ho => ?_,
    fun r o ho => ?_, fun id n p o hn hp ho => ?_, ⟨s, hs⟩, fun config m c log => ?_,
    fun config c log => ?_, hg.free_trace⟩
  · obtain ⟨q, hq, -⟩ := hg.outlet?_of_producer? (producer_eq_ok_some.1 ho)
    exact ⟨q, output_eq_ok.2 hq⟩
  · obtain ⟨q, hq⟩ := r.outlet?_of_surroundings hg ho
    exact ⟨q, output_eq_ok.2 hq⟩
  · obtain ⟨m, hm, htext⟩ := hg.producerText_eq (Arena.mem_entries.1 hn) hp ho
    exact ⟨m, node_eq_ok.2 hm, htext⟩
  · exact FixedPoint.avoids_apply config m (w := ⟨build cs, c, log⟩) hg
  · exact FixedPoint.avoids_lower config (w := ⟨build cs, c, log⟩) hg

/-- A convolution fed by a node that never was. No sequence of operations builds it. -/
def danglingEdge : Graph where
  nodes := ({} : Arena Node).push
    { name := "conv"
      op := .conv2d FixedPoint.increment
      inputs := [{ type := ⟨.f32, [1, 1, 1, 1]⟩, producer := some ⟨7, 0⟩ }]
      outputs := [{ type := ⟨.f32, [1, 1, 1, 1]⟩ }] }

example : ∃ w, (FixedPoint.apply {} ⟨[0], [⟨0, 0⟩], [⟨0, 0⟩]⟩).run ⟨danglingEdge, {}, []⟩ =
    .error (.graph (.stale ⟨7⟩)) w := ⟨_, rfl⟩

end FixedNet
