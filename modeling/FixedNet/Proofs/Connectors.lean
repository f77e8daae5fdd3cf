/-
**A graph by its connectors.** The operations of a graph look up and change single
connectors, while the data of a connector sits two lists deep inside an arena.
This file takes a graph as a partial map from connectors to their data, beside the
declarations of its nodes, and says once for each kind of write how that map
changes. No later proof opens the arena or the lists again.

* `inlet?`, `outlet?`: the data of an input or an output connector.
* `producer?`: what feeds an input connector.
* `declaration?`: what a node was created with, its name, its operator and the
  types of its connectors. No write to an edge or to a flag changes it.
-/
import FixedNet.Proofs.Computation

set_option autoImplicit false

namespace FixedNet

/-! ## The view -/

/-- The types of a node's connectors. -/
def Node.signature (n : Node) : Signature := ⟨n.inputs.map (·.type), n.outputs.map (·.type)⟩

/-- What a node is created with. -/
structure Declaration where
  name : String
  op : Op
  signature : Signature
deriving DecidableEq

/-- What the node was created with. -/
def Node.declaration (n : Node) : Declaration := ⟨n.name, n.op, n.signature⟩

namespace Graph

/-- The data of an input connector. -/
def inlet? (g : Graph) (i : InputId) : Option Inlet :=
  (g.nodes.get? i.node).bind fun n => n.inputs[i.index]?

/-- The data of an output connector. -/
def outlet? (g : Graph) (o : OutputId) : Option Outlet :=
  (g.nodes.get? o.node).bind fun n => n.outputs[o.index]?

/-- The output that feeds an input. -/
def producer? (g : Graph) (i : InputId) : Option OutputId := (g.inlet? i).bind (·.producer)

/-- What a node was created with. -/
def declaration? (g : Graph) (id : NodeId) : Option Declaration :=
  (g.nodes.get? id).map Node.declaration

variable {g : Graph}

/-! ### Lookups through the view -/

theorem node_eq_ok {id : NodeId} {n : Node} :
    g.node id = .ok n ↔ g.nodes.get? id = some n := by
  unfold node
  cases g.nodes.get? id with
  | none => simp
  | some m => simp

theorem input_eq_ok {i : InputId} {p : Inlet} : g.input i = .ok p ↔ g.inlet? i = some p := by
  unfold input inlet? node
  cases g.nodes.get? i.node with
  | none => simp [bind, Except.bind]
  | some n =>
    simp only [bind, Except.bind, Option.bind]
    cases n.inputs[i.index]? with
    | none => simp [throw, throwThe, MonadExceptOf.throw]
    | some q => simp [pure, Except.pure]

theorem output_eq_ok {o : OutputId} {q : Outlet} :
    g.output o = .ok q ↔ g.outlet? o = some q := by
  unfold output outlet? node
  cases g.nodes.get? o.node with
  | none => simp [bind, Except.bind]
  | some n =>
    simp only [bind, Except.bind, Option.bind]
    cases n.outputs[o.index]? with
    | none => simp [throw, throwThe, MonadExceptOf.throw]
    | some q => simp [pure, Except.pure]

/-- An input connector is missing for want of its node or of a connector of this number. -/
theorem input_of_none {i : InputId} (h : g.inlet? i = none) :
    g.input i = .error (if (g.declaration? i.node).isSome then .badConnector i.node .input i.index
      else .badHandle i.node) := by
  unfold inlet? at h
  unfold input node declaration?
  cases hn : g.nodes.get? i.node with
  | none => rfl
  | some n =>
    rw [hn, Option.bind_some] at h
    simp only [bind, Except.bind, h]
    rfl

theorem output_of_none {o : OutputId} (h : g.outlet? o = none) :
    g.output o = .error (if (g.declaration? o.node).isSome then .badConnector o.node .output o.index
      else .badHandle o.node) := by
  unfold outlet? at h
  unfold output node declaration?
  cases hn : g.nodes.get? o.node with
  | none => rfl
  | some n =>
    rw [hn, Option.bind_some] at h
    simp only [bind, Except.bind, h]
    rfl

theorem producer_eq_ok {i : InputId} {x : Option OutputId} :
    g.producer i = .ok x ↔ ∃ p, g.inlet? i = some p ∧ p.producer = x := by
  simp only [producer, except_bind_eq_ok, input_eq_ok, pure, Except.pure, Except.ok.injEq]

theorem producer_eq_ok_some {i : InputId} {o : OutputId} :
    g.producer i = .ok (some o) ↔ g.producer? i = some o := by
  rw [producer_eq_ok, producer?, Option.bind_eq_some_iff]

theorem consumers_eq_ok {o : OutputId} {l : List InputId} :
    g.consumers o = .ok l ↔ ∃ q, g.outlet? o = some q ∧ q.consumers = l := by
  simp only [consumers, except_bind_eq_ok, output_eq_ok, pure, Except.pure, Except.ok.injEq]

/-! ### The view and the node -/

theorem declaration?_eq_some {id : NodeId} {d : Declaration} :
    g.declaration? id = some d ↔ ∃ n, g.nodes.get? id = some n ∧ n.declaration = d := by
  rw [declaration?, Option.map_eq_some_iff]

theorem declaration?_of_get? {id : NodeId} {n : Node} (hn : g.nodes.get? id = some n) :
    g.declaration? id = some n.declaration := declaration?_eq_some.2 ⟨n, hn, rfl⟩

theorem contains_iff {id : NodeId} : g.contains id ↔ ∃ d, g.declaration? id = some d := by
  rw [contains, Arena.contains_iff]
  constructor
  · rintro ⟨n, hn⟩
    exact ⟨_, declaration?_of_get? hn⟩
  · rintro ⟨d, hd⟩
    obtain ⟨n, hn, -⟩ := declaration?_eq_some.1 hd
    exact ⟨n, hn⟩

/-- The type of an input connector is declared. -/
theorem inlet?_type (i : InputId) :
    (g.inlet? i).map (·.type) =
      (g.declaration? i.node).bind (·.signature.inputs[i.index]?) := by
  unfold inlet? declaration?
  cases g.nodes.get? i.node with
  | none => rfl
  | some n => simp [Node.declaration, Node.signature]

/-- The type of an output connector is declared. -/
theorem outlet?_type (o : OutputId) :
    (g.outlet? o).map (·.type) =
      (g.declaration? o.node).bind (·.signature.outputs[o.index]?) := by
  unfold outlet? declaration?
  cases g.nodes.get? o.node with
  | none => rfl
  | some n => simp [Node.declaration, Node.signature]

section OfDeclaration

variable {d : Declaration} {t : TensorType}

theorem type_of_inlet? {i : InputId} {p : Inlet} (hi : g.inlet? i = some p)
    (hd : g.declaration? i.node = some d) : d.signature.inputs[i.index]? = some p.type := by
  have h := inlet?_type (g := g) i
  rw [hi, hd] at h
  exact h.symm

theorem type_of_outlet? {o : OutputId} {q : Outlet} (ho : g.outlet? o = some q)
    (hd : g.declaration? o.node = some d) : d.signature.outputs[o.index]? = some q.type := by
  have h := outlet?_type (g := g) o
  rw [ho, hd] at h
  exact h.symm

theorem inlet?_of_type {i : InputId} (hd : g.declaration? i.node = some d)
    (ht : d.signature.inputs[i.index]? = some t) :
    ∃ p, g.inlet? i = some p ∧ p.type = t := by
  have h := inlet?_type (g := g) i
  rw [hd, Option.bind_some, ht] at h
  exact Option.map_eq_some_iff.1 h

theorem outlet?_of_type {o : OutputId} (hd : g.declaration? o.node = some d)
    (ht : d.signature.outputs[o.index]? = some t) :
    ∃ q, g.outlet? o = some q ∧ q.type = t := by
  have h := outlet?_type (g := g) o
  rw [hd, Option.bind_some, ht] at h
  exact Option.map_eq_some_iff.1 h

end OfDeclaration

/-- A connector sits on a node. -/
theorem get?_of_inlet? {i : InputId} {p : Inlet} (h : g.inlet? i = some p) :
    ∃ n, g.nodes.get? i.node = some n ∧ n.inputs[i.index]? = some p := by
  rwa [inlet?, Option.bind_eq_some_iff] at h

theorem get?_of_outlet? {o : OutputId} {q : Outlet} (h : g.outlet? o = some q) :
    ∃ n, g.nodes.get? o.node = some n ∧ n.outputs[o.index]? = some q := by
  rwa [outlet?, Option.bind_eq_some_iff] at h

theorem contains_of_outlet? {o : OutputId} {q : Outlet} (h : g.outlet? o = some q) :
    g.contains o.node := by
  obtain ⟨n, hn, -⟩ := get?_of_outlet? h
  exact (Arena.contains_iff _ _).2 ⟨n, hn⟩

theorem producer?_eq_some {i : InputId} {o : OutputId} :
    g.producer? i = some o ↔ ∃ p, g.inlet? i = some p ∧ p.producer = some o := by
  rw [producer?, Option.bind_eq_some_iff]

/-- What is fed exists. -/
theorem contains_of_producer? {i : InputId} {o : OutputId} (h : g.producer? i = some o) :
    g.contains i.node := by
  obtain ⟨p, hp, -⟩ := producer?_eq_some.1 h
  obtain ⟨n, hn, -⟩ := get?_of_inlet? hp
  exact (Arena.contains_iff _ _).2 ⟨n, hn⟩

/-! ### Graphs that agree at a node

Two graphs with one declaration of a node may still differ in its edges and flags. -/

section Agree

variable {g' : Graph}

/-- An input connector whose producer is changed by `f`. -/
theorem inlet?_of_producer? {i : InputId} {f : Option OutputId → Option OutputId}
    (hd : g'.declaration? i.node = g.declaration? i.node)
    (hp : g'.producer? i = f (g.producer? i)) :
    g'.inlet? i = (g.inlet? i).map fun p => { p with producer := f p.producer } := by
  have ht := inlet?_type (g := g') i
  rw [hd, ← inlet?_type] at ht
  unfold producer? at hp
  cases hi : g.inlet? i with
  | none =>
    rw [hi, Option.map_none, Option.map_eq_none_iff] at ht
    exact ht
  | some p =>
    rw [hi] at ht hp
    obtain ⟨p', hp', htype⟩ := Option.map_eq_some_iff.1 ht
    have hsame : p'.type = p.type := htype
    have hproducer : p'.producer = f p.producer := by rwa [hp'] at hp
    rw [hp', Option.map_some, ← hproducer, ← hsame]

theorem inlet?_congr {i : InputId} (hd : g'.declaration? i.node = g.declaration? i.node)
    (hp : g'.producer? i = g.producer? i) : g'.inlet? i = g.inlet? i := by
  have h := inlet?_of_producer? (f := id) hd hp
  simpa using h

/-- A node is told by its declaration, its flags and the data of its connectors. -/
theorem get?_of_connectors {id : NodeId} {n : Node} {inputs : List Inlet} {outputs : List Outlet}
    (hn : g.nodes.get? id = some n) (hd : g'.declaration? id = g.declaration? id)
    (hflags : (g'.nodes.get? id).map (·.attributes) = (g.nodes.get? id).map (·.attributes))
    (hin : ∀ k, g'.inlet? ⟨id, k⟩ = inputs[k]?) (hout : ∀ k, g'.outlet? ⟨id, k⟩ = outputs[k]?) :
    g'.nodes.get? id = some { n with inputs, outputs } := by
  rw [declaration?_of_get? hn] at hd
  obtain ⟨n', hn', hdecl⟩ := declaration?_eq_some.1 hd
  rw [hn, hn', Option.map_some, Option.map_some, Option.some.injEq] at hflags
  have hname : n'.name = n.name := congrArg Declaration.name hdecl
  have hop : n'.op = n.op := congrArg Declaration.op hdecl
  have hinputs : n'.inputs = inputs := by
    refine List.ext_getElem? fun k => ?_
    rw [← hin, inlet?, hn', Option.bind_some]
  have houtputs : n'.outputs = outputs := by
    refine List.ext_getElem? fun k => ?_
    rw [← hout, outlet?, hn', Option.bind_some]
  rw [hn', ← hname, ← hop, ← hflags, ← hinputs, ← houtputs]

theorem input_congr {i : InputId} (hd : g'.declaration? i.node = g.declaration? i.node)
    (hp : g'.producer? i = g.producer? i) : g'.input i = g.input i := by
  have hi := inlet?_congr hd hp
  cases h : g.inlet? i with
  | none => rw [input_of_none h, input_of_none (hi.trans h), hd]
  | some p => rw [input_eq_ok.2 h, input_eq_ok.2 (hi.trans h)]

theorem output_type_congr {o : OutputId} (hd : g'.declaration? o.node = g.declaration? o.node) :
    (g'.output o).map (·.type) = (g.output o).map (·.type) := by
  have ht := outlet?_type (g := g') o
  rw [hd, ← outlet?_type] at ht
  cases h : g.outlet? o with
  | none =>
    rw [h, Option.map_none, Option.map_eq_none_iff] at ht
    rw [output_of_none h, output_of_none ht, hd]
  | some q =>
    rw [h, Option.map_some] at ht
    obtain ⟨q', hq', htype⟩ := Option.map_eq_some_iff.1 ht
    rw [output_eq_ok.2 h, output_eq_ok.2 hq']
    exact congrArg Except.ok htype

end Agree

/-! ## Writing to a node -/

theorem get?_modifyNode (g : Graph) (id : NodeId) (f : Node → Node) (k : NodeId) :
    (g.modifyNode id f).nodes.get? k =
      if id = k then (g.nodes.get? k).map f else g.nodes.get? k :=
  Arena.get?_modify ..

@[simp] theorem capacity_modifyNode (g : Graph) (id : NodeId) (f : Node → Node) :
    (g.modifyNode id f).nodes.capacity = g.nodes.capacity :=
  Arena.capacity_modify ..

/-- A write that leaves the input connectors of a node alone shows at none. -/
theorem inlet?_modifyNode (g : Graph) (id : NodeId) {f : Node → Node}
    (hf : ∀ n, (f n).inputs = n.inputs) (i : InputId) :
    (g.modifyNode id f).inlet? i = g.inlet? i := by
  unfold inlet?
  rw [get?_modifyNode]
  by_cases h : id = i.node
  · rw [if_pos h]
    cases g.nodes.get? i.node with
    | none => rfl
    | some n => simp [hf]
  · rw [if_neg h]

theorem outlet?_modifyNode (g : Graph) (id : NodeId) {f : Node → Node}
    (hf : ∀ n, (f n).outputs = n.outputs) (o : OutputId) :
    (g.modifyNode id f).outlet? o = g.outlet? o := by
  unfold outlet?
  rw [get?_modifyNode]
  by_cases h : id = o.node
  · rw [if_pos h]
    cases g.nodes.get? o.node with
    | none => rfl
    | some n => simp [hf]
  · rw [if_neg h]

theorem declaration?_modifyNode (g : Graph) (id : NodeId) {f : Node → Node}
    (hf : ∀ n, (f n).declaration = n.declaration) (k : NodeId) :
    (g.modifyNode id f).declaration? k = g.declaration? k := by
  unfold declaration?
  rw [get?_modifyNode]
  by_cases h : id = k
  · rw [if_pos h]
    cases g.nodes.get? k with
    | none => rfl
    | some n => simp [hf]
  · rw [if_neg h]

/-! ## Writing to a connector -/

theorem getElem?_modify_eq {α : Type} (l : List α) (f : α → α) (k j : Nat) :
    (l.modify k f)[j]? = if k = j then (l[j]?).map f else l[j]? := by
  rw [List.getElem?_modify]
  by_cases h : k = j
  · simp [h]
  · simp [h]

theorem inlet?_modifyInput (g : Graph) (i : InputId) (f : Inlet → Inlet) (j : InputId) :
    (g.modifyInput i f).inlet? j = if i = j then (g.inlet? j).map f else g.inlet? j := by
  obtain ⟨id, k⟩ := i
  obtain ⟨id', k'⟩ := j
  unfold modifyInput inlet?
  rw [get?_modifyNode]
  by_cases hnode : id = id'
  · subst hnode
    cases g.nodes.get? id with
    | none => simp
    | some n => simp [getElem?_modify_eq]
  · simp [hnode]

theorem outlet?_modifyOutput (g : Graph) (o : OutputId) (f : Outlet → Outlet) (r : OutputId) :
    (g.modifyOutput o f).outlet? r = if o = r then (g.outlet? r).map f else g.outlet? r := by
  obtain ⟨id, k⟩ := o
  obtain ⟨id', k'⟩ := r
  unfold modifyOutput outlet?
  rw [get?_modifyNode]
  by_cases hnode : id = id'
  · subst hnode
    cases g.nodes.get? id with
    | none => simp
    | some n => simp [getElem?_modify_eq]
  · simp [hnode]

@[simp] theorem outlet?_modifyInput (g : Graph) (i : InputId) (f : Inlet → Inlet)
    (o : OutputId) : (g.modifyInput i f).outlet? o = g.outlet? o := by
  apply outlet?_modifyNode
  intro n
  rfl

@[simp] theorem inlet?_modifyOutput (g : Graph) (o : OutputId) (f : Outlet → Outlet)
    (i : InputId) : (g.modifyOutput o f).inlet? i = g.inlet? i := by
  apply inlet?_modifyNode
  intro n
  rfl

@[simp] theorem capacity_modifyInput (g : Graph) (i : InputId) (f : Inlet → Inlet) :
    (g.modifyInput i f).nodes.capacity = g.nodes.capacity :=
  capacity_modifyNode ..

@[simp] theorem capacity_modifyOutput (g : Graph) (o : OutputId) (f : Outlet → Outlet) :
    (g.modifyOutput o f).nodes.capacity = g.nodes.capacity :=
  capacity_modifyNode ..

/-- A list in which one element is changed, seen through a function that does not
notice the change. -/
theorem map_modify_of_eq {α β : Type} {f : α → α} {h : α → β} (hf : ∀ a, h (f a) = h a)
    (l : List α) (k : Nat) : (l.modify k f).map h = l.map h := by
  apply List.ext_getElem?
  intro j
  rw [List.getElem?_map, List.getElem?_map, getElem?_modify_eq]
  by_cases hk : k = j
  · simp [hk, Function.comp_def, hf]
  · simp [hk]

theorem declaration?_modifyInput (g : Graph) (i : InputId) {f : Inlet → Inlet}
    (hf : ∀ p, (f p).type = p.type) (k : NodeId) :
    (g.modifyInput i f).declaration? k = g.declaration? k := by
  refine declaration?_modifyNode g i.node (fun n => ?_) k
  simp only [Node.declaration, Node.signature, map_modify_of_eq hf]

theorem declaration?_modifyOutput (g : Graph) (o : OutputId) {f : Outlet → Outlet}
    (hf : ∀ q, (f q).type = q.type) (k : NodeId) :
    (g.modifyOutput o f).declaration? k = g.declaration? k := by
  refine declaration?_modifyNode g o.node (fun n => ?_) k
  simp only [Node.declaration, Node.signature, map_modify_of_eq hf]

/-! ### Writes that change nothing -/

theorem modifyNode_eq_self {id : NodeId} {f : Node → Node}
    (hf : ∀ n, g.nodes.get? id = some n → f n = n) : g.modifyNode id f = g := by
  rw [modifyNode, Arena.modify_congr hf, Arena.modify_id]

theorem modifyNode_of_none {id : NodeId} (hn : g.nodes.get? id = none) (f : Node → Node) :
    g.modifyNode id f = g := by
  rw [modifyNode, Arena.modify_of_none hn]

/-- Only what a change makes of the connector counts. -/
theorem modifyOutput_congr {o : OutputId} {f f' : Outlet → Outlet}
    (hf : ∀ q, g.outlet? o = some q → f q = f' q) : g.modifyOutput o f = g.modifyOutput o f' := by
  unfold modifyOutput modifyNode
  rw [Arena.modify_congr]
  intro n hn
  congr 1
  apply List.ext_getElem?
  intro k
  rw [getElem?_modify_eq, getElem?_modify_eq]
  split
  · next hk =>
    subst hk
    cases hq : n.outputs[o.index]? with
    | none => rfl
    | some q =>
      have ho : g.outlet? o = some q := by rw [outlet?, hn, Option.bind_some, hq]
      rw [Option.map_some, Option.map_some, hf q ho]
  · rfl

theorem modifyOutput_eq_self {o : OutputId} {f : Outlet → Outlet}
    (hf : ∀ q, g.outlet? o = some q → f q = q) : g.modifyOutput o f = g := by
  have hsame : g.modifyOutput o f = g.modifyOutput o fun q => q := modifyOutput_congr hf
  rw [hsame]
  refine modifyNode_eq_self fun n _ => ?_
  congr 1
  apply List.ext_getElem?
  intro k
  rw [getElem?_modify_eq]
  split
  · exact Option.map_id'
  · rfl

/-- There is nothing to change at a connector that does not exist. -/
theorem modifyOutput_of_none {o : OutputId} (ho : g.outlet? o = none) (f : Outlet → Outlet) :
    g.modifyOutput o f = g := by
  refine modifyOutput_eq_self fun q hq => ?_
  cases ho.symm.trans hq

/-! ## New nodes and removed nodes -/

theorem get?_append (g : Graph) (name : String) (op : Op) (s : Signature) (k : NodeId) :
    (g.append name op s).nodes.get? k =
      if k = g.nodes.capacity then
        some { name, op, inputs := s.inputs.map ({ type := · }),
               outputs := s.outputs.map ({ type := · }) }
      else g.nodes.get? k :=
  Arena.get?_push ..

@[simp] theorem capacity_append (g : Graph) (name : String) (op : Op) (s : Signature) :
    (g.append name op s).nodes.capacity = g.nodes.capacity + 1 :=
  Arena.capacity_push ..

theorem inlet?_append (g : Graph) (name : String) (op : Op) (s : Signature) (i : InputId) :
    (g.append name op s).inlet? i =
      if i.node = g.nodes.capacity then (s.inputs[i.index]?).map ({ type := · })
      else g.inlet? i := by
  unfold inlet?
  rw [get?_append]
  by_cases h : i.node = g.nodes.capacity
  · simp [h]
  · rw [if_neg h, if_neg h]

theorem outlet?_append (g : Graph) (name : String) (op : Op) (s : Signature) (o : OutputId) :
    (g.append name op s).outlet? o =
      if o.node = g.nodes.capacity then (s.outputs[o.index]?).map ({ type := · })
      else g.outlet? o := by
  unfold outlet?
  rw [get?_append]
  by_cases h : o.node = g.nodes.capacity
  · simp [h]
  · rw [if_neg h, if_neg h]

theorem declaration?_append (g : Graph) (name : String) (op : Op) (s : Signature) (k : NodeId) :
    (g.append name op s).declaration? k =
      if k = g.nodes.capacity then some ⟨name, op, s⟩ else g.declaration? k := by
  unfold declaration?
  rw [get?_append]
  by_cases h : k = g.nodes.capacity
  · simp [h, Node.declaration, Node.signature, Function.comp_def]
  · rw [if_neg h, if_neg h]

/-- The graph with the slot of a node emptied. -/
def dropNode (g : Graph) (id : NodeId) : Graph := { g with nodes := g.nodes.erase id }

@[simp] theorem capacity_dropNode (g : Graph) (id : NodeId) :
    (g.dropNode id).nodes.capacity = g.nodes.capacity :=
  Arena.capacity_erase ..

theorem get?_dropNode (g : Graph) (id k : NodeId) :
    (g.dropNode id).nodes.get? k = if id = k then none else g.nodes.get? k :=
  Arena.get?_erase ..

theorem inlet?_dropNode (g : Graph) (id : NodeId) (i : InputId) :
    (g.dropNode id).inlet? i = if id = i.node then none else g.inlet? i := by
  unfold inlet?
  rw [get?_dropNode]
  by_cases h : id = i.node
  · simp [h]
  · rw [if_neg h, if_neg h]

theorem outlet?_dropNode (g : Graph) (id : NodeId) (o : OutputId) :
    (g.dropNode id).outlet? o = if id = o.node then none else g.outlet? o := by
  unfold outlet?
  rw [get?_dropNode]
  by_cases h : id = o.node
  · simp [h]
  · rw [if_neg h, if_neg h]

theorem declaration?_dropNode (g : Graph) (id k : NodeId) :
    (g.dropNode id).declaration? k = if id = k then none else g.declaration? k := by
  unfold declaration?
  rw [get?_dropNode]
  by_cases h : id = k
  · simp [h]
  · rw [if_neg h, if_neg h]

/-- A node that is not there has no connectors. -/
theorem inlet?_of_le {i : InputId} (h : g.nodes.capacity ≤ i.node) : g.inlet? i = none := by
  rw [inlet?, Arena.get?_of_le h, Option.bind_none]

theorem outlet?_of_le {o : OutputId} (h : g.nodes.capacity ≤ o.node) : g.outlet? o = none := by
  rw [outlet?, Arena.get?_of_le h, Option.bind_none]

theorem declaration?_of_le {id : NodeId} (h : g.nodes.capacity ≤ id) :
    g.declaration? id = none := by
  rw [declaration?, Arena.get?_of_le h, Option.map_none]

theorem lt_capacity_of_declaration? {id : NodeId} {d : Declaration}
    (h : g.declaration? id = some d) : id < g.nodes.capacity := by
  obtain ⟨n, hn, -⟩ := declaration?_eq_some.1 h
  exact Arena.lt_capacity_of_get? hn

theorem lt_capacity_of_inlet? {i : InputId} {p : Inlet} (h : g.inlet? i = some p) :
    i.node < g.nodes.capacity := by
  obtain ⟨n, hn, -⟩ := get?_of_inlet? h
  exact Arena.lt_capacity_of_get? hn

theorem lt_capacity_of_outlet? {o : OutputId} {q : Outlet} (h : g.outlet? o = some q) :
    o.node < g.nodes.capacity := by
  obtain ⟨n, hn, -⟩ := get?_of_outlet? h
  exact Arena.lt_capacity_of_get? hn

theorem lt_capacity_of_producer? {i : InputId} {o : OutputId} (h : g.producer? i = some o) :
    i.node < g.nodes.capacity := by
  obtain ⟨p, hp, -⟩ := producer?_eq_some.1 h
  exact lt_capacity_of_inlet? hp

/-- The outputs that are there stay as they are. -/
theorem outlet?_append_of_some {o : OutputId} {q : Outlet} (h : g.outlet? o = some q)
    (name : String) (op : Op) (s : Signature) : (g.append name op s).outlet? o = some q := by
  rw [outlet?_append, if_neg (Nat.ne_of_lt (lt_capacity_of_outlet? h)), h]

/-- The input of a new graph output. -/
theorem inlet?_append_output (g : Graph) (name : String) (t : TensorType) :
    (g.append name .output ⟨[t], []⟩).inlet? ⟨g.nodes.capacity, 0⟩ = some { type := t } := by
  rw [inlet?_append, if_pos rfl]
  rfl

/-- A new node is unconnected. -/
theorem producer?_append (g : Graph) (name : String) (op : Op) (s : Signature) (i : InputId) :
    (g.append name op s).producer? i = g.producer? i := by
  unfold producer?
  rw [inlet?_append]
  by_cases h : i.node = g.nodes.capacity
  · rw [if_pos h, inlet?_of_le (Nat.le_of_eq h.symm)]
    cases s.inputs[i.index]? with
    | none => rfl
    | some t => rfl
  · rw [if_neg h]

end Graph

end FixedNet
