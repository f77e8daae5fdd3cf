/-
**What a graph computes.** `Carries` says which tensor leaves an output connector, by
recursion along the edges and with no reference to an order of evaluation: a graph
input carries what it is fed, every other node what it makes of the tensor that its
producer carries. The evaluator goes through the nodes in topological order instead,
and keeps what it has computed in a list.

* `Node.Runnable` is all that one node needs, said of its declaration and its edge
  alone. A step of the evaluator succeeds exactly on runnable nodes (`step_ok_iff`):
  the type checks at the edges never fail, since an edge of a well-formed graph joins
  connectors of one type and an operator's result has the type of its signature.
* `Computed` is the invariant along the order: there is one tensor for each node done
  but the graph outputs, it is the one that the connector carries, and it has the
  declared type. One step keeps it (`Computed.step`), so the whole run does.
-/
import FixedNet.Proofs.History
import FixedNet.Proofs.Order

set_option autoImplicit false

namespace FixedNet

/-! ## The tensors on the edges -/

/-- What the nodes make of their operands. -/
abbrev Semantics := NodeId → Declaration → Value → Value → Prop

/-- Every node applies its own operator. -/
def Semantics.operators : Semantics := fun _ d x y => d.op.evaluate d.name x = .ok y

/-- The tensor that leaves an output connector, by recursion along the edges. -/
inductive Graph.Carries (g : Graph) (feed : Feed) (sem : Semantics) : OutputId → Value → Prop
  | fed {id : NodeId} {d : Declaration} {t : Tensor Single} (hd : g.declaration? id = some d)
      (hop : d.op = .input) (ht : feed d.name = some t) :
      Carries g feed sem ⟨id, 0⟩ (.numbers t)
  | computed {id : NodeId} {d : Declaration} {o : OutputId} {x y : Value}
      (hd : g.declaration? id = some d) (hin : d.op ≠ .input) (hout : d.op ≠ .output)
      (ho : g.producer? ⟨id, 0⟩ = some o) (hx : Carries g feed sem o x) (hy : sem id d x y) :
      Carries g feed sem ⟨id, 0⟩ y

/-- A connector carries one tensor if the nodes compute functions. -/
theorem Graph.Carries.unique {g : Graph} {feed : Feed} {sem : Semantics}
    (hsem : ∀ id d x y z, sem id d x y → sem id d x z → y = z) {o : OutputId} {v w : Value}
    (hv : g.Carries feed sem o v) (hw : g.Carries feed sem o w) : v = w := by
  induction hv generalizing w with
  | fed hd hop ht =>
    cases hw with
    | fed hd' _ ht' =>
      cases hd.symm.trans hd'
      cases ht.symm.trans ht'
      rfl
    | computed hd' hin =>
      cases hd.symm.trans hd'
      exact absurd hop hin
  | computed hd hin hout ho hx hy ih =>
    cases hw with
    | fed hd' hop =>
      cases hd.symm.trans hd'
      exact absurd hop hin
    | computed hd' _ _ ho' hx' hy' =>
      cases hd.symm.trans hd'
      cases ho.symm.trans ho'
      cases ih hx'
      exact hsem _ _ _ _ _ hy hy'

/-- What a node that is not a graph input made its tensor from. -/
theorem Graph.Carries.of_operator {g : Graph} {feed : Feed} {sem : Semantics} {id : NodeId}
    {d : Declaration} {y : Value} (h : g.Carries feed sem ⟨id, 0⟩ y)
    (hd : g.declaration? id = some d) (hin : d.op ≠ .input) :
    ∃ o x, g.producer? ⟨id, 0⟩ = some o ∧ g.Carries feed sem o x ∧ sem id d x y := by
  cases h with
  | fed hd' hop =>
    cases hd.symm.trans hd'
    exact absurd hop hin
  | computed hd' _ _ ho hx hy =>
    cases hd.symm.trans hd'
    exact ⟨_, _, ho, hx, hy⟩

/-! ## What a node needs -/

/-- What the evaluation of a node needs: a graph input is fed numbers of its declared
shape, and every input has a producer and a type that the operator accepts. -/
structure Node.Runnable (n : Node) (feed : Feed) : Prop where
  fed : n.op = .input → ∀ q ∈ n.outputs,
    q.type.scalar = .f32 ∧ ∃ t, feed n.name = some t ∧ t.shape = q.type.shape
  connected : ∀ p ∈ n.inputs, p.producer.isSome
  accepted : ∀ p ∈ n.inputs, n.op.Accepts p.type

namespace Evaluation

variable {g : Graph} {feed : Feed} {e e' : Evaluation} {id : NodeId} {n : Node}

/-! ## One step -/

theorem operand_eq_ok {v : Value} :
    e.operand g id n = .ok v ↔ ∃ p o, g.inlet? ⟨id, 0⟩ = some p ∧ p.producer = some o ∧
      e.value? o = some v ∧ v.type = p.type := by
  unfold operand
  simp only [except_bind_eq_ok, mapError_eq_ok, Graph.input_eq_ok]
  constructor
  · rintro ⟨p, hp, h⟩
    split at h
    · next w hw =>
      obtain ⟨o, ho, hv⟩ := Option.bind_eq_some_iff.1 hw
      obtain ⟨u, hu, h⟩ := except_bind_eq_ok.1 h
      cases h
      exact ⟨p, o, hp, ho, hv, Value.check_eq_ok.1 hu⟩
    · cases h
  · rintro ⟨p, o, hp, ho, hv, htype⟩
    refine ⟨p, hp, ?_⟩
    rw [ho, Option.bind_some, hv]
    exact except_bind_eq_ok.2 ⟨(), Value.check_eq_ok.2 htype, rfl⟩

theorem step_input (hn : g.nodes.get? id = some n) (hop : n.op = .input) :
    e.step g feed id = .ok e' ↔ ∃ t q, feed n.name = some t ∧ g.outlet? ⟨id, 0⟩ = some q ∧
      (Value.numbers t).type = q.type ∧
      e' = { e with values := e.values ++ [(⟨id, 0⟩, .numbers t)] } := by
  unfold step
  simp only [except_bind_eq_ok, mapError_eq_ok, Graph.nodeAt_eq_ok, hn, Option.some.injEq,
    exists_eq_left', entering, hop, Op.evaluate, Graph.output_eq_ok, Value.check_eq_ok]
  cases feed n.name with
  | none => simp
  | some t =>
    constructor
    · rintro ⟨x, hx, y, hy, q, hq, -, htype, h⟩
      cases hx
      cases hy
      cases h
      exact ⟨t, q, rfl, hq, htype, rfl⟩
    · rintro ⟨t', q, ht, hq, htype, rfl⟩
      cases ht
      exact ⟨_, rfl, _, rfl, q, hq, (), htype, rfl⟩

theorem step_output (hn : g.nodes.get? id = some n) (hop : n.op = .output) :
    e.step g feed id = .ok e' ↔
      ∃ v, e.operand g id n = .ok v ∧ e' = e.setOutput n.name v.toNumbers := by
  unfold step
  simp only [except_bind_eq_ok, mapError_eq_ok, Graph.nodeAt_eq_ok, hn, Option.some.injEq,
    exists_eq_left', entering, hop]
  constructor
  · rintro ⟨v, hv, h⟩
    cases h
    exact ⟨v, hv, rfl⟩
  · rintro ⟨v, hv, rfl⟩
    exact ⟨v, hv, rfl⟩

theorem step_operator (hn : g.nodes.get? id = some n) (hin : n.op ≠ .input)
    (hout : n.op ≠ .output) :
    e.step g feed id = .ok e' ↔ ∃ x y q, e.operand g id n = .ok x ∧
      n.op.evaluate n.name x = .ok y ∧ g.outlet? ⟨id, 0⟩ = some q ∧ y.type = q.type ∧
      e' = { e with values := e.values ++ [(⟨id, 0⟩, y)] } := by
  have henter : e.entering g feed id n = e.operand g id n := by
    unfold entering
    split
    · next h => exact absurd h hin
    · rfl
  unfold step
  simp only [except_bind_eq_ok, mapError_eq_ok, Graph.nodeAt_eq_ok, hn, Option.some.injEq,
    exists_eq_left', henter, Graph.output_eq_ok, Value.check_eq_ok]
  constructor
  · rintro ⟨x, hx, y, hy, q, hq, -, htype, h⟩
    cases h
    exact ⟨x, y, q, hx, hy, hq, htype, rfl⟩
  · rintro ⟨x, y, q, hx, hy, hq, htype, rfl⟩
    exact ⟨x, hx, y, hy, q, hq, (), htype, rfl⟩

/-- Evaluating a node reads its declaration and its edge, and nothing else of the graph. -/
theorem step_congr {g' : Graph} (hd : g'.declaration? id = g.declaration? id)
    (hp : g'.producer? ⟨id, 0⟩ = g.producer? ⟨id, 0⟩) (e : Evaluation) (feed : Feed) :
    e.step g' feed id = e.step g feed id := by
  have hinput : g'.input ⟨id, 0⟩ = g.input ⟨id, 0⟩ := Graph.input_congr hd hp
  have htype := Graph.output_type_congr (o := ⟨id, 0⟩) hd
  cases hn : g.nodes.get? id with
  | none =>
    have hn' : g'.nodes.get? id = none := by
      rw [Graph.declaration?, Graph.declaration?, hn] at hd
      exact Option.map_eq_none_iff.1 hd
    unfold step Graph.nodeAt Arena.get
    rw [hn, hn']
    rfl
  | some n =>
    obtain ⟨n', hn', hdecl⟩ :=
      Graph.declaration?_eq_some.1 (hd.trans (Graph.declaration?_of_get? hn))
    have hop : n'.op = n.op := congrArg Declaration.op hdecl
    have hname : n'.name = n.name := congrArg Declaration.name hdecl
    have henter : e.entering g' feed id n' = e.entering g feed id n := by
      unfold entering operand
      rw [hop, hname, hinput]
    -- The check of a result reads the type of the connector only.
    have hcheck : ∀ k : TensorType → Except EvalError Evaluation,
        ((g'.output ⟨id, 0⟩).mapError .graph >>= fun q => k q.type) =
          (g.output ⟨id, 0⟩).mapError .graph >>= fun q => k q.type := by
      intro k
      have hbind : ∀ m : Except GraphError Outlet, (m.mapError .graph >>= fun q => k q.type) =
          (m.map (·.type)).mapError .graph >>= k := by
        intro m
        cases m with
        | error err => rfl
        | ok q => rfl
      rw [hbind, hbind, htype]
    unfold step
    rw [Graph.nodeAt_eq_ok.2 hn, Graph.nodeAt_eq_ok.2 hn', mapError_ok, mapError_ok]
    show (e.entering g' feed id n' >>= _) = (e.entering g feed id n >>= _)
    rw [henter, hop, hname]
    refine bind_congr fun x => ?_
    split
    · rfl
    · refine bind_congr fun y => hcheck fun t => do
        y.check n.name t
        return { e with values := e.values ++ [(⟨id, 0⟩, y)] }

theorem along_congr {g' : Graph} {ids : List NodeId}
    (h : ∀ id ∈ ids, g'.declaration? id = g.declaration? id ∧
      g'.producer? ⟨id, 0⟩ = g.producer? ⟨id, 0⟩) (feed : Feed) (e : Evaluation) :
    along g' feed e ids = along g feed e ids := by
  induction ids generalizing e with
  | nil => rfl
  | cons id rest ih =>
    obtain ⟨⟨hd, hp⟩, hrest⟩ := List.forall_mem_cons.1 h
    unfold along
    rw [step_congr hd hp e feed]
    cases e.step g feed id with
    | error err => rfl
    | ok e' => exact ih hrest e'

/-! ## The invariant

Graph outputs leave no tensor on a connector. Their tensors are kept by name, and of
two graph outputs of one name the later one counts. -/

theorem lookup_filter_ne (l : List (String × Tensor Single)) (name other : String) :
    (l.filter (·.1 ≠ name)).lookup other = if other = name then none else l.lookup other := by
  induction l with
  | nil => simp
  | cons a l ih =>
    obtain ⟨key, t⟩ := a
    by_cases hkey : key = name
    · rw [List.filter_cons_of_neg (by simp [hkey]), ih, Calibration.lookup_cons_eq, hkey]
      split
      · rfl
      · rfl
    · rw [List.filter_cons_of_pos (by simp [hkey]), Calibration.lookup_cons_eq,
        Calibration.lookup_cons_eq, ih]
      by_cases ho : other = key
      · rw [if_pos ho, if_pos ho, if_neg (ho ▸ hkey)]
      · rw [if_neg ho, if_neg ho]

theorem output?_setOutput (e : Evaluation) (name other : String) (t : Tensor Single) :
    (e.setOutput name t).output? other = if other = name then some t else e.output? other := by
  unfold setOutput output?
  rw [List.lookup_append, lookup_filter_ne, Calibration.lookup_cons_eq]
  by_cases h : other = name
  · simp [h]
  · simp [h]

end Evaluation

namespace Graph

/-- A node leaves its tensor on a connector unless it is a graph output. -/
def emits (g : Graph) (id : NodeId) : Bool := (g.declaration? id).any (·.op.kind ≠ .output)

/-- The node is a graph output of the given name. -/
def delivers (g : Graph) (name : String) (id : NodeId) : Bool :=
  (g.declaration? id).any fun d => d.op.kind = .output ∧ d.name = name

theorem emits_iff {g : Graph} {id : NodeId} {d : Declaration} (hd : g.declaration? id = some d) :
    g.emits id ↔ d.op ≠ .output := by
  simp only [emits, hd, Option.any_some, ne_eq, decide_not, Bool.not_eq_eq_eq_not, Bool.not_true,
    decide_eq_false_iff_not]
  exact not_congr ⟨Op.eq_output_of_kind, fun h => h ▸ rfl⟩

theorem delivers_iff {g : Graph} {id : NodeId} {d : Declaration} {name : String}
    (hd : g.declaration? id = some d) :
    g.delivers name id ↔ d.op = .output ∧ d.name = name := by
  simp only [delivers, hd, Option.any_some, decide_eq_true_eq]
  exact and_congr_left' ⟨Op.eq_output_of_kind, fun h => h ▸ rfl⟩

theorem delivers_iff_node {g : Graph} {id : NodeId} {name : String} :
    g.delivers name id ↔ ∃ n, g.node id = .ok n ∧ n.op = .output ∧ n.name = name := by
  constructor
  · intro h
    obtain ⟨d, hd, -⟩ := (Option.any_eq_true _ _).1 h
    obtain ⟨n, hn, rfl⟩ := declaration?_eq_some.1 hd
    exact ⟨n, node_eq_ok.2 hn, (delivers_iff hd).1 h⟩
  · rintro ⟨n, hn, h⟩
    exact (delivers_iff (declaration?_of_get? (node_eq_ok.1 hn))).2 h

/-- The last graph output of the given name among the nodes of `done`. -/
def deliverer? (g : Graph) (done : List NodeId) (name : String) : Option NodeId :=
  done.reverse.find? (g.delivers name)

theorem deliverer?_append (g : Graph) (done : List NodeId) (id : NodeId) (name : String) :
    g.deliverer? (done ++ [id]) name =
      if g.delivers name id then some id else g.deliverer? done name := by
  unfold deliverer?
  rw [List.reverse_append, List.reverse_singleton, List.singleton_append, List.find?_cons]
  cases g.delivers name id with
  | true => rfl
  | false => rfl

theorem mem_of_deliverer? {g : Graph} {done : List NodeId} {name : String} {id : NodeId}
    (h : g.deliverer? done name = some id) : id ∈ done ∧ g.delivers name id :=
  ⟨List.mem_reverse.1 (List.mem_of_find?_eq_some h), List.find?_some h⟩

theorem deliverer?_of_mem {g : Graph} {done : List NodeId} {name : String} {id : NodeId}
    (hid : id ∈ done) (h : g.delivers name id) : ∃ x, g.deliverer? done name = some x :=
  Option.isSome_iff_exists.1 (List.find?_isSome.2 ⟨id, List.mem_reverse.2 hid, h⟩)

/-- The tensor that an output connector carries, which has the connector's type. -/
def Yields (g : Graph) (feed : Feed) (o : OutputId) (v : Value) : Prop :=
  g.Carries feed .operators o v ∧ ∃ q, g.outlet? o = some q ∧ v.type = q.type

end Graph

namespace Evaluation

/-- What an evaluation holds once the nodes of `done` are evaluated in that order. -/
structure Computed (g : Graph) (feed : Feed) (done : List NodeId) (e : Evaluation) : Prop where
  keys : e.values.map (·.1) = (done.filter g.emits).map fun id => ⟨id, 0⟩
  values : ∀ o v, (o, v) ∈ e.values → g.Yields feed o v
  delivered : ∀ name id, g.deliverer? done name = some id →
    ∃ o v, g.producer? ⟨id, 0⟩ = some o ∧ g.Yields feed o v ∧
      e.output? name = some v.toNumbers
  undelivered : ∀ name, g.deliverer? done name = none → e.output? name = none

variable {g : Graph} {feed : Feed} {e e' : Evaluation} {done : List NodeId} {id : NodeId}
  {n : Node}

theorem Computed.empty : Computed g feed [] {} where
  keys := rfl
  values _ _ h := absurd h List.not_mem_nil
  delivered _ _ h := by cases h
  undelivered _ _ := rfl

theorem Computed.yields_of_value? (hc : Computed g feed done e) {o : OutputId} {v : Value}
    (h : e.value? o = some v) : g.Yields feed o v := by
  obtain ⟨l, r, hl, -⟩ := List.lookup_eq_some_iff.1 h
  exact hc.values o v (by simp [hl])

/-- The tensor of a node done is at hand. -/
theorem Computed.value?_of_done (hc : Computed g feed done e) (hid : id ∈ done)
    (hemits : g.emits id) : ∃ v, e.value? ⟨id, 0⟩ = some v := by
  have hkey : (⟨id, 0⟩ : OutputId) ∈ e.values.map (·.1) := by
    rw [hc.keys]
    exact List.mem_map.2 ⟨id, List.mem_filter.2 ⟨hid, hemits⟩, rfl⟩
  obtain ⟨⟨o, w⟩, hmem, rfl⟩ := List.mem_map.1 hkey
  exact Option.isSome_iff_exists.1 (List.lookup_isSome_iff.2 ⟨_, hmem, beq_self_eq_true _⟩)

/-! ## When one step succeeds -/

section StepOk

variable (hg : g.WellFormed) (hn : g.nodes.get? id = some n)
include hg hn

/-- A node that is not a graph input finds its operand exactly if its inputs are
connected, once everything that feeds it is done. The type check is never the reason
for a failure: a producer has the type of the inputs it feeds. -/
theorem Computed.operand_ok_iff (hc : Computed g feed done e) (hin : n.op ≠ .input)
    (hready : ∀ a, g.Feeds a id → a ∈ done) :
    (∃ v, e.operand g id n = .ok v) ↔ ∀ p ∈ n.inputs, p.producer.isSome := by
  obtain ⟨p, hp⟩ := hg.inlet?_zero (Graph.declaration?_of_get? hn) hin
  constructor
  · rintro ⟨v, hv⟩ p' hp'
    obtain ⟨p₀, o, hp₀, ho, -⟩ := operand_eq_ok.1 hv
    cases hp₀.symm.trans ((hg.mem_inputs hn).1 hp')
    rw [ho]
    rfl
  · intro hconnected
    obtain ⟨o, ho⟩ := Option.isSome_iff_exists.1 (hconnected p ((hg.mem_inputs hn).2 hp))
    have hprod : g.producer? ⟨id, 0⟩ = some o := Graph.producer?_eq_some.2 ⟨p, hp, ho⟩
    obtain ⟨q, hq, -⟩ := hg.outlet?_of_producer? hprod
    obtain ⟨m, hm, -⟩ := Graph.get?_of_outlet? hq
    have hd := Graph.declaration?_of_get? hm
    obtain ⟨hzero, hop, -⟩ := hg.index_of_outlet? hq hd
    obtain ⟨node, index⟩ := o
    cases hzero
    -- The producer's node is done, so its tensor is at hand, and of the type of the edge.
    obtain ⟨v, hv⟩ := hc.value?_of_done (hready node ⟨0, _, hprod, rfl⟩)
      ((Graph.emits_iff hd).2 hop)
    obtain ⟨-, q', hq', htype⟩ := hc.yields_of_value? hv
    cases hq.symm.trans hq'
    exact ⟨v, operand_eq_ok.2 ⟨p, _, hp, ho, hv, htype.trans (hg.same_type _ p _ q hp ho hq)⟩⟩

theorem step_input_ok_iff (hin : n.op = .input) :
    (∃ e', e.step g feed id = .ok e') ↔ ∀ q ∈ n.outputs,
      q.type.scalar = .f32 ∧ ∃ t, feed n.name = some t ∧ t.shape = q.type.shape := by
  constructor
  · rintro ⟨e', h⟩ q' hq'
    obtain ⟨t, q, ht, hq, htype, -⟩ := (step_input hn hin).1 h
    cases hq.symm.trans ((hg.mem_outputs hn).1 hq')
    rw [← htype]
    exact ⟨rfl, t, ht, rfl⟩
  · intro hfed
    obtain ⟨q, hq⟩ := hg.outlet?_zero (Graph.declaration?_of_get? hn)
      (fun h => nomatch hin.symm.trans h)
    obtain ⟨hscalar, t, ht, hshape⟩ := hfed q ((hg.mem_outputs hn).2 hq)
    refine ⟨_, (step_input hn hin).2 ⟨t, q, ht, hq, ?_, rfl⟩⟩
    rw [Value.type, hshape, ← hscalar]

/-- An operator's step succeeds exactly if it accepts its operand. The check of the
result is never the reason for a failure: a result has the type of the signature. -/
theorem step_operator_ok_iff (hin : n.op ≠ .input) (hout : n.op ≠ .output) :
    (∃ e', e.step g feed id = .ok e') ↔
      (∃ x, e.operand g id n = .ok x) ∧ ∀ x, e.operand g id n = .ok x → n.op.Accepts x.type := by
  have hd := Graph.declaration?_of_get? hn
  have hsig : ∀ x, e.operand g id n = .ok x → n.op.signature x.type = .ok n.signature := by
    intro x hx
    obtain ⟨p, o, hp, -, -, htype⟩ := operand_eq_ok.1 hx
    rw [htype]
    exact (hg.index_of_inlet? hp hd).2.2
  constructor
  · rintro ⟨e', h⟩
    obtain ⟨x, y, q, hx, hy, -⟩ := (step_operator hn hin hout).1 h
    refine ⟨⟨x, hx⟩, fun x' hx' => ?_⟩
    cases hx.symm.trans hx'
    exact (Op.evaluate_ok_iff (hsig x hx) n.name).1 ⟨y, hy⟩
  · rintro ⟨⟨x, hx⟩, haccepts⟩
    obtain ⟨y, hy⟩ := (Op.evaluate_ok_iff (hsig x hx) n.name).2 (haccepts x hx)
    obtain ⟨q, hq⟩ := hg.outlet?_zero hd hout
    have hresult : y.type = q.type := by
      have h := (Op.evaluate_type hy hin hout).symm.trans (hsig x hx)
      obtain ⟨-, -, houts⟩ := hg.index_of_outlet? hq hd
      rw [show n.declaration.signature = _ from (Except.ok.inj h).symm] at houts
      exact List.singleton_inj.1 houts
    exact ⟨_, (step_operator hn hin hout).2 ⟨x, y, q, hx, hy, hq, hresult, rfl⟩⟩

/-- A step succeeds exactly on runnable nodes. -/
theorem Computed.step_ok_iff (hc : Computed g feed done e)
    (hready : ∀ a, g.Feeds a id → a ∈ done) :
    (∃ e', e.step g feed id = .ok e') ↔ n.Runnable feed := by
  by_cases hin : n.op = .input
  · -- A graph input has no input connectors, so what it is fed is all that counts.
    have hnone : ∀ p, p ∉ n.inputs := fun p hp =>
      (hg.index_of_inlet? ((hg.mem_inputs hn).1 hp) (Graph.declaration?_of_get? hn)).2.1 hin
    rw [step_input_ok_iff hg hn hin]
    exact ⟨fun h => ⟨fun _ => h, fun p hp => absurd hp (hnone p), fun p hp => absurd hp (hnone p)⟩,
      fun h => h.fed hin⟩
  · have hoperand := hc.operand_ok_iff hg hn hin hready
    by_cases hout : n.op = .output
    · have hstep : (∃ e', e.step g feed id = .ok e') ↔ ∃ v, e.operand g id n = .ok v :=
        ⟨fun ⟨_, h⟩ => ((step_output hn hout).1 h).imp fun _ hv => hv.1,
          fun ⟨v, hv⟩ => ⟨_, (step_output hn hout).2 ⟨v, hv, rfl⟩⟩⟩
      rw [hstep, hoperand]
      exact ⟨fun h => ⟨fun hop => absurd hop hin, h, fun p _ => by rw [hout]; trivial⟩,
        fun h => h.connected⟩
    · rw [step_operator_ok_iff hg hn hin hout, hoperand]
      constructor
      · rintro ⟨hconnected, haccepts⟩
        refine ⟨fun hop => absurd hop hin, hconnected, fun p hp => ?_⟩
        obtain ⟨x, hx⟩ := hoperand.2 hconnected
        obtain ⟨p', -, hp', -, -, htype⟩ := operand_eq_ok.1 hx
        cases hp'.symm.trans ((hg.mem_inputs hn).1 hp)
        rw [← htype]
        exact haccepts x hx
      · intro hrun
        refine ⟨hrun.connected, fun x hx => ?_⟩
        obtain ⟨p, -, hp, -, -, htype⟩ := operand_eq_ok.1 hx
        rw [htype]
        exact hrun.accepted p ((hg.mem_inputs hn).2 hp)

end StepOk

/-! ## What one step does -/

/-- One node more that leaves its tensor on a connector. -/
theorem Computed.extend (hc : Computed g feed done e) (hn : g.nodes.get? id = some n)
    (hop : n.op ≠ .output) {v : Value} (hv : g.Yields feed ⟨id, 0⟩ v) :
    Computed g feed (done ++ [id]) { e with values := e.values ++ [(⟨id, 0⟩, v)] } := by
  have hd := Graph.declaration?_of_get? hn
  have hemits : g.emits id := (Graph.emits_iff hd).2 hop
  have hother : ∀ name, ¬ g.delivers name id := fun name h =>
    hop ((Graph.delivers_iff hd).1 h).1
  constructor
  case keys =>
    simp [hc.keys, hemits]
  case values =>
    intro o w hw
    rcases List.mem_append.1 hw with hw | hw
    · exact hc.values o w hw
    · cases List.mem_singleton.1 hw
      exact hv
  case delivered =>
    intro name x hx
    rw [Graph.deliverer?_append, if_neg (hother name)] at hx
    exact hc.delivered name x hx
  case undelivered =>
    intro name hx
    rw [Graph.deliverer?_append, if_neg (hother name)] at hx
    exact hc.undelivered name hx

/-- One graph output more. -/
theorem Computed.deliver (hc : Computed g feed done e) (hn : g.nodes.get? id = some n)
    (hop : n.op = .output) {o : OutputId} {v : Value} (ho : g.producer? ⟨id, 0⟩ = some o)
    (hv : g.Yields feed o v) :
    Computed g feed (done ++ [id]) (e.setOutput n.name v.toNumbers) := by
  have hd := Graph.declaration?_of_get? hn
  have hemits : ¬ g.emits id := fun h => (Graph.emits_iff hd).1 h hop
  have hname : ∀ name, g.delivers name id ↔ n.name = name := fun name =>
    (Graph.delivers_iff hd).trans ⟨And.right, fun h => ⟨hop, h⟩⟩
  refine ⟨?keys, fun o w hw => hc.values o w hw, ?delivered, ?undelivered⟩
  case keys =>
    rw [List.filter_append, List.filter_cons_of_neg hemits, List.filter_nil, List.append_nil]
    exact hc.keys
  case delivered =>
    intro name x hx
    rw [Graph.deliverer?_append] at hx
    rw [output?_setOutput]
    by_cases hnm : n.name = name
    · rw [if_pos ((hname name).2 hnm)] at hx
      cases hx
      exact ⟨o, v, ho, hv, if_pos hnm.symm⟩
    · rw [if_neg (fun h => hnm ((hname name).1 h))] at hx
      rw [if_neg (Ne.symm hnm)]
      exact hc.delivered name x hx
  case undelivered =>
    intro name hx
    rw [Graph.deliverer?_append] at hx
    rw [output?_setOutput]
    by_cases hnm : n.name = name
    · rw [if_pos ((hname name).2 hnm)] at hx
      cases hx
    · rw [if_neg (fun h => hnm ((hname name).1 h))] at hx
      rw [if_neg (Ne.symm hnm)]
      exact hc.undelivered name hx

/-- A step keeps the invariant. -/
theorem Computed.step (hc : Computed g feed done e) (hn : g.nodes.get? id = some n)
    (h : e.step g feed id = .ok e') : Computed g feed (done ++ [id]) e' := by
  have hd := Graph.declaration?_of_get? hn
  by_cases hin : n.op = .input
  · obtain ⟨t, q, ht, hq, htype, rfl⟩ := (step_input hn hin).1 h
    exact hc.extend hn (by rw [hin]; nofun) ⟨.fed hd hin ht, q, hq, htype⟩
  · by_cases hout : n.op = .output
    · obtain ⟨v, hv, rfl⟩ := (step_output hn hout).1 h
      obtain ⟨p, o, hp, ho, hval, -⟩ := operand_eq_ok.1 hv
      exact hc.deliver hn hout (Graph.producer?_eq_some.2 ⟨p, hp, ho⟩) (hc.yields_of_value? hval)
    · obtain ⟨x, y, q, hx, hy, hq, htype, rfl⟩ := (step_operator hn hin hout).1 h
      obtain ⟨p, o, hp, ho, hval, -⟩ := operand_eq_ok.1 hx
      have hcarried := (hc.yields_of_value? hval).1
      exact hc.extend hn hout
        ⟨.computed hd hin hout (Graph.producer?_eq_some.2 ⟨p, hp, ho⟩) hcarried hy, q, hq, htype⟩

/-! ## The whole run -/

/-- Nodes in order are evaluated to the end exactly if they are all runnable, and then
the invariant holds of them all. -/
theorem Computed.along (hc : Computed g feed done e) (hg : g.WellFormed) {ids : List NodeId}
    (hids : ∀ id ∈ ids, g.contains id) (hord : g.Ordered done.reverse ids) :
    ((along g feed e ids).error = none ↔
      ∀ id ∈ ids, ∀ n, g.nodes.get? id = some n → n.Runnable feed) ∧
    ((along g feed e ids).error = none →
      Computed g feed (done ++ ids) (along g feed e ids).reached) := by
  induction ids generalizing done e with
  | nil => simpa [Evaluation.along] using hc
  | cons id rest ih =>
    obtain ⟨n, hn⟩ := (Arena.contains_iff _ _).1 (hids id (List.mem_cons_self ..))
    obtain ⟨hready, hrest⟩ := hord
    -- `Ordered` lists what is done with the latest first, the evaluation with the latest last.
    have hiff := hc.step_ok_iff hg hn fun a ha => List.mem_reverse.1 (hready a ha)
    unfold Evaluation.along
    cases hstep : e.step g feed id with
    | error err =>
      refine ⟨⟨fun h => (by cases h), fun h => ?_⟩, fun h => (by cases h)⟩
      obtain ⟨e', he'⟩ := hiff.2 (h id (List.mem_cons_self ..) n hn)
      rw [hstep] at he'
      cases he'
    | ok e' =>
      have hrun := hiff.1 ⟨e', hstep⟩
      have hnext : g.Ordered (done ++ [id]).reverse rest := by
        rw [List.reverse_append]
        exact hrest
      obtain ⟨hall, hcomputed⟩ := ih (hc.step hn hstep)
        (fun x hx => hids x (List.mem_cons_of_mem _ hx)) hnext
      rw [List.append_assoc, List.singleton_append] at hcomputed
      refine ⟨hall.trans ⟨fun h x hx m hm => ?_, fun h x hx => h x (List.mem_cons_of_mem _ hx)⟩,
        hcomputed⟩
      rcases List.mem_cons.1 hx with rfl | hx
      · cases hn.symm.trans hm
        exact hrun
      · exact h x hx m hm

end Evaluation

/-! ## What a finished run holds -/

theorem Value.shape_toNumbers (v : Value) : v.toNumbers.shape = v.type.shape := by
  cases v with
  | numbers t => rfl
  | codes t => rfl

namespace Evaluation

variable {g : Graph} {feed : Feed} {e : Evaluation} {done : List NodeId}

theorem Computed.nodup_keys (hc : Computed g feed done e) (hnodup : done.Nodup) :
    (e.values.map (·.1)).Nodup := by
  rw [hc.keys]
  refine List.pairwise_map.2 ((hnodup.filter _).imp fun hne heq => hne ?_)
  exact congrArg OutputId.node heq

/-- There are tensors for the output connectors of the nodes done, and for no other. -/
theorem Computed.mem_keys (hg : g.WellFormed) (hc : Computed g feed done e) {o : OutputId} :
    o ∈ e.values.map (·.1) ↔ o.node ∈ done ∧ ∃ q, g.outlet? o = some q := by
  constructor
  · intro ho
    obtain ⟨⟨o, v⟩, hv, rfl⟩ := List.mem_map.1 ho
    obtain ⟨-, q, hq, -⟩ := hc.values o v hv
    rw [hc.keys] at ho
    obtain ⟨id, hid, rfl⟩ := List.mem_map.1 ho
    exact ⟨(List.mem_filter.1 hid).1, q, hq⟩
  · rintro ⟨hdone, q, hq⟩
    obtain ⟨n, hn, -⟩ := Graph.get?_of_outlet? hq
    have hd := Graph.declaration?_of_get? hn
    obtain ⟨hzero, hop, -⟩ := hg.index_of_outlet? hq hd
    obtain ⟨node, index⟩ := o
    cases hzero
    rw [hc.keys]
    exact List.mem_map.2 ⟨node, List.mem_filter.2 ⟨hdone, (Graph.emits_iff hd).2 hop⟩, rfl⟩

/-- There are tensors for the names of the graph outputs done, and for no other. -/
theorem Computed.output?_ok_iff (hc : Computed g feed done e) {name : String} :
    (∃ t, e.output? name = some t) ↔ ∃ id ∈ done, g.delivers name id := by
  cases h : g.deliverer? done name with
  | none =>
    rw [hc.undelivered name h]
    refine ⟨fun ⟨t, ht⟩ => (by cases ht), fun ⟨id, hid, hname⟩ => ?_⟩
    obtain ⟨x, hx⟩ := Graph.deliverer?_of_mem hid hname
    rw [h] at hx
    cases hx
  | some id =>
    obtain ⟨o, v, -, -, hout⟩ := hc.delivered name id h
    exact ⟨fun _ => ⟨id, Graph.mem_of_deliverer? h⟩, fun _ => ⟨_, hout⟩⟩

/-- The tensor of a graph output is what its producer carries. -/
theorem Computed.delivered_of_output? (hc : Computed g feed done e) {name : String}
    {t : Tensor Single} (h : e.output? name = some t) :
    ∃ id ∈ done, g.delivers name id ∧ ∃ o v, g.producer? ⟨id, 0⟩ = some o ∧
      g.Yields feed o v ∧ t = v.toNumbers := by
  cases hid : g.deliverer? done name with
  | none =>
    rw [hc.undelivered name hid] at h
    cases h
  | some id =>
    obtain ⟨o, v, ho, hv, hout⟩ := hc.delivered name id hid
    obtain ⟨hdone, hname⟩ := Graph.mem_of_deliverer? hid
    exact ⟨id, hdone, hname, o, v, ho, hv, Option.some.inj (h.symm.trans hout)⟩

/-- The tensor of a graph output has the shape that the output declares. -/
theorem Computed.shape_of_output? (hg : g.WellFormed) (hc : Computed g feed done e)
    {name : String} {t : Tensor Single} (h : e.output? name = some t) :
    ∃ id ∈ done, g.delivers name id ∧ ∃ p, g.inlet? ⟨id, 0⟩ = some p ∧
      t.shape = p.type.shape := by
  obtain ⟨id, hdone, hname, o, v, ho, ⟨-, q, hq, htype⟩, rfl⟩ := hc.delivered_of_output? h
  obtain ⟨p, hp, -⟩ := Graph.producer?_eq_some.1 ho
  refine ⟨id, hdone, hname, p, hp, ?_⟩
  rw [v.shape_toNumbers, htype, hg.type_eq_of_producer? ho hp hq]

end Evaluation

theorem Graph.trace_eq_ok {g : Graph} {feed : Feed} {e : Evaluation} :
    g.trace feed = .ok e ↔ ∃ order, g.topologicalOrder = .ok order ∧
      (Evaluation.along g feed {} order).error = none ∧
      (Evaluation.along g feed {} order).reached = e := by
  unfold trace progress
  cases g.topologicalOrder with
  | error err => simp
  | ok order =>
    simp only [Except.ok.injEq, exists_eq_left']
    obtain ⟨reached, error⟩ := Evaluation.along g feed {} order
    cases error with
    | none => simp
    | some err => simp

namespace Graph.WellFormed

variable {g : Graph} {feed : Feed} (hg : g.WellFormed)
include hg

theorem along_order {order : List NodeId} (horder : g.topologicalOrder = .ok order) :
    ((Evaluation.along g feed {} order).error = none ↔
      ∀ id n, g.Needed id → g.nodes.get? id = some n → n.Runnable feed) ∧
    ((Evaluation.along g feed {} order).error = none →
      Evaluation.Computed g feed order (Evaluation.along g feed {} order).reached) := by
  obtain ⟨hord, -, hmem⟩ := hg.topologicalOrder_eq_ok horder
  have hempty : Evaluation.Computed g feed [] {} := .empty
  have h := hempty.along hg (fun id hid => hg.contains_of_needed ((hmem id).1 hid)) hord
  refine ⟨h.1.trans ⟨fun hall id n hid => ?_, fun hall id hid n => ?_⟩, h.2⟩
  · exact hall id ((hmem id).2 hid) n
  · exact hall id n ((hmem id).1 hid)

/-- Graphs with the same order whose needed nodes agree evaluate alike. -/
theorem trace_congr {g' : Graph} (horder : g'.topologicalOrder = g.topologicalOrder)
    (h : ∀ id, g.Needed id → g'.declaration? id = g.declaration? id ∧
      g'.producer? ⟨id, 0⟩ = g.producer? ⟨id, 0⟩) (feed : Feed) :
    g'.trace feed = g.trace feed := by
  have hprogress : g'.progress feed = g.progress feed := by
    unfold progress
    rw [horder]
    cases hok : g.topologicalOrder with
    | error err => rfl
    | ok order =>
      have hneeded := (hg.topologicalOrder_eq_ok hok).2.2
      exact Evaluation.along_congr (fun id hid => h id ((hneeded id).1 hid)) feed {}
  unfold trace
  rw [hprogress]

/-- An evaluation succeeds exactly if there is an order and every needed node is
runnable. -/
theorem trace_ok_iff :
    (∃ e, g.trace feed = .ok e) ↔ (∃ order, g.topologicalOrder = .ok order) ∧
      ∀ id n, g.Needed id → g.nodes.get? id = some n → n.Runnable feed := by
  constructor
  · rintro ⟨e, he⟩
    obtain ⟨order, horder, herr, -⟩ := trace_eq_ok.1 he
    exact ⟨⟨order, horder⟩, (hg.along_order horder).1.1 herr⟩
  · rintro ⟨⟨order, horder⟩, hrun⟩
    exact ⟨_, trace_eq_ok.2 ⟨order, horder, (hg.along_order horder).1.2 hrun, rfl⟩⟩

/-- A successful evaluation has computed the nodes of the topological order. -/
theorem computed_of_trace {e : Evaluation} (h : g.trace feed = .ok e) :
    ∃ order, g.topologicalOrder = .ok order ∧ Evaluation.Computed g feed order e := by
  obtain ⟨order, horder, herr, rfl⟩ := trace_eq_ok.1 h
  exact ⟨order, horder, (hg.along_order horder).2 herr⟩

end Graph.WellFormed

/-! ## When a graph evaluates

Whether a graph evaluates is a matter of the declarations of its needed nodes and of
the edges between them. -/

/-- What the evaluation of a node needs of its declaration. -/
structure Declaration.Runnable (d : Declaration) (feed : Feed) : Prop where
  fed : d.op = .input → ∀ t ∈ d.signature.outputs,
    t.scalar = .f32 ∧ ∃ x, feed d.name = some x ∧ x.shape = t.shape
  accepted : ∀ t ∈ d.signature.inputs, d.op.Accepts t

/-- No needed node lies on a cycle or behind one, and all can run and are connected. -/
structure Graph.Evaluable (g : Graph) (feed : Feed) : Prop where
  acyclic : ∀ id, g.Needed id → Acc g.Feeds id
  runnable : ∀ id d, g.Needed id → g.declaration? id = some d → d.Runnable feed
  connected : ∀ id d, g.Needed id → g.declaration? id = some d → d.op ≠ .input →
    ∃ o, g.producer? ⟨id, 0⟩ = some o

namespace Graph.WellFormed

variable {g : Graph} {feed : Feed} (hg : g.WellFormed)
include hg

theorem runnable_iff {id : NodeId} {n : Node} (hn : g.nodes.get? id = some n) :
    n.Runnable feed ↔ n.declaration.Runnable feed ∧
      (n.op ≠ .input → ∃ o, g.producer? ⟨id, 0⟩ = some o) := by
  have hd := declaration?_of_get? hn
  constructor
  · intro h
    refine ⟨⟨fun hop t ht => ?_, fun t ht => ?_⟩, fun hop => ?_⟩
    · obtain ⟨q, hq, rfl⟩ := List.mem_map.1 ht
      exact h.fed hop q hq
    · obtain ⟨p, hp, rfl⟩ := List.mem_map.1 ht
      exact h.accepted p hp
    · obtain ⟨p, hp⟩ := hg.inlet?_zero hd hop
      obtain ⟨o, ho⟩ := Option.isSome_iff_exists.1 (h.connected p ((hg.mem_inputs hn).2 hp))
      exact ⟨o, producer?_eq_some.2 ⟨p, hp, ho⟩⟩
  · rintro ⟨h, hconnected⟩
    refine ⟨fun hop q hq => h.fed hop _ (List.mem_map.2 ⟨q, hq, rfl⟩), fun p hp => ?_,
      fun p hp => h.accepted _ (List.mem_map.2 ⟨p, hp, rfl⟩)⟩
    have hp' := (hg.mem_inputs hn).1 hp
    obtain ⟨o, ho⟩ := hconnected (hg.index_of_inlet? hp' hd).2.1
    obtain ⟨p'', hp'', hprod⟩ := producer?_eq_some.1 ho
    cases hp'.symm.trans hp''
    rw [hprod]
    rfl

/-- Every graph output is needed. -/
theorem needed_of_delivers {name : String} {id : NodeId} (h : g.delivers name id) :
    id ∈ g.outputs ∧ g.Needed id := by
  obtain ⟨d, hd, hop⟩ := (Option.any_eq_true _ _).1 h
  obtain ⟨n, hn, rfl⟩ := declaration?_eq_some.1 hd
  have hmem : id ∈ g.outputs := by
    rw [hg.outputs_eq]
    exact mem_ofKind.2 ⟨n, hn, (of_decide_eq_true hop).1⟩
  exact ⟨hmem, .output hmem ((Arena.contains_iff _ _).2 ⟨n, hn⟩)⟩

/-- The tensor of a graph output that shares its name with no other. -/
theorem output?_of_delivers {e : Evaluation} (he : g.trace feed = .ok e) {name : String}
    {id : NodeId} (hid : g.delivers name id) (honly : ∀ x, g.delivers name x → x = id) :
    ∃ o v, g.producer? ⟨id, 0⟩ = some o ∧ g.Yields feed o v ∧
      e.output? name = some v.toNumbers := by
  obtain ⟨order, horder, hc⟩ := hg.computed_of_trace he
  obtain ⟨-, -, hmem⟩ := hg.topologicalOrder_eq_ok horder
  obtain ⟨t, ht⟩ := hc.output?_ok_iff.2 ⟨id, (hmem id).2 (hg.needed_of_delivers hid).2, hid⟩
  obtain ⟨x, -, hx, o, v, ho, hv, rfl⟩ := hc.delivered_of_output? ht
  cases honly x hx
  exact ⟨o, v, ho, hv, ht⟩

theorem output?_of_not_delivers {e : Evaluation} (he : g.trace feed = .ok e) {name : String}
    (hnone : ∀ id, ¬ g.delivers name id) : e.output? name = none := by
  obtain ⟨order, -, hc⟩ := hg.computed_of_trace he
  cases ht : e.output? name with
  | none => rfl
  | some t =>
    obtain ⟨id, -, hid⟩ := hc.output?_ok_iff.1 ⟨t, ht⟩
    exact absurd hid (hnone id)

theorem trace_ok_iff_evaluable : (∃ e, g.trace feed = .ok e) ↔ g.Evaluable feed := by
  rw [hg.trace_ok_iff, hg.topologicalOrder_ok_iff]
  constructor
  · rintro ⟨hacc, hrun⟩
    refine ⟨hacc, fun id d hid hd => ?_, fun id d hid hd hop => ?_⟩
    · obtain ⟨n, hn, rfl⟩ := declaration?_eq_some.1 hd
      exact ((hg.runnable_iff hn).1 (hrun id n hid hn)).1
    · obtain ⟨n, hn, rfl⟩ := declaration?_eq_some.1 hd
      exact ((hg.runnable_iff hn).1 (hrun id n hid hn)).2 hop
  · intro h
    refine ⟨h.acyclic, fun id n hid hn => ?_⟩
    have hd := declaration?_of_get? hn
    exact (hg.runnable_iff hn).2 ⟨h.runnable id _ hid hd, h.connected id _ hid hd⟩

end Graph.WellFormed

theorem Graph.run_eq_ok {g : Graph} {feed : Feed} {outs : List (String × Tensor Single)} :
    g.run feed = .ok outs ↔ ∃ e, g.trace feed = .ok e ∧ e.outputs = outs := by
  unfold Graph.run
  rw [except_bind_eq_ok]
  constructor
  · rintro ⟨e, he, h⟩
    cases h
    exact ⟨e, he, rfl⟩
  · rintro ⟨e, he, rfl⟩
    exact ⟨e, he, rfl⟩

/-- **Type soundness.** A graph built by any sequence of operations evaluates exactly if
it has an order and every reachable node is runnable, a condition on declarations,
edges and fed tensors only. An evaluation that succeeds holds one tensor for each
output connector of a reachable node and no other, each of its connector's type, and
a tensor of the declared shape for the name of each reachable graph output. -/
theorem type_soundness (cs : List Command) (feed : Feed) :
    ∃ l, (build cs).reachable = .ok l ∧
      ((∃ e, (build cs).trace feed = .ok e) ↔
        (∃ order, (build cs).topologicalOrder = .ok order) ∧
        ∀ id ∈ l, ∀ n, (build cs).node id = .ok n → n.Runnable feed) ∧
      ∀ e, (build cs).trace feed = .ok e →
        (e.values.map (·.1)).Nodup ∧
        (∀ o, o ∈ e.values.map (·.1) ↔ o.node ∈ l ∧ ∃ q, (build cs).output o = .ok q) ∧
        (∀ o v q, (o, v) ∈ e.values → (build cs).output o = .ok q → v.type = q.type) ∧
        (∀ name, (∃ t, e.output? name = some t) ↔
          ∃ id ∈ l, ∃ n, (build cs).node id = .ok n ∧ n.op = .output ∧ n.name = name) ∧
        ∀ name t, e.output? name = some t →
          ∃ id ∈ l, ∃ n, (build cs).node id = .ok n ∧ n.op = .output ∧ n.name = name ∧
            ∀ p ∈ n.inputs, t.shape = p.type.shape := by
  have hg := wellFormed_build cs
  obtain ⟨l, hl, -, hmem⟩ := hg.reachable_ok
  refine ⟨l, hl, ?_, fun e he => ?_⟩
  · rw [hg.trace_ok_iff]
    refine and_congr_right fun _ => ⟨fun h id hid n hn => ?_, fun h id n hid hn => ?_⟩
    · exact h id n ((hmem id).1 hid) (Graph.node_eq_ok.1 hn)
    · exact h id ((hmem id).2 hid) n (Graph.node_eq_ok.2 hn)
  · obtain ⟨order, horder, hc⟩ := hg.computed_of_trace he
    obtain ⟨-, hnodup, hneeded⟩ := hg.topologicalOrder_eq_ok horder
    have hin : ∀ id, id ∈ order ↔ id ∈ l := fun id => (hneeded id).trans (hmem id).symm
    refine ⟨hc.nodup_keys hnodup, fun o => ?_, fun o v q hv hq => ?_, fun name => ?_,
      fun name t ht => ?_⟩
    · rw [hc.mem_keys hg, hin]
      simp only [Graph.output_eq_ok]
    · obtain ⟨-, q', hq', htype⟩ := hc.values o v hv
      cases (Graph.output_eq_ok.1 hq).symm.trans hq'
      exact htype
    · simp only [hc.output?_ok_iff, hin, Graph.delivers_iff_node]
    · obtain ⟨id, hid, hname, p, hp, hshape⟩ := hc.shape_of_output? hg ht
      obtain ⟨n, hn, hop, hnm⟩ := Graph.delivers_iff_node.1 hname
      refine ⟨id, (hin id).1 hid, n, hn, hop, hnm, fun p' hp' => ?_⟩
      cases hp.symm.trans ((hg.mem_inputs (Graph.node_eq_ok.1 hn)).1 hp')
      exact hshape

end FixedNet
