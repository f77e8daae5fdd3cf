/-
**The representation invariant.** An edge is stored twice, at the input that
consumes and at the output that produces, and both stores have to tell the same
edges. `WellFormed` says so, together with what the graph promises about types and
about its designated nodes. Every operation keeps it, because each of them is one
of the functions of `Edits` and those keep it.

The two-ended storage is one equivalence, `two_ended`: the input names the output
exactly when the output lists the input. It also says that a listed consumer
exists, since only a connector that exists names a producer.
-/
import FixedNet.Proofs.Edits
import FixedNet.Proofs.Typing

set_option autoImplicit false

namespace FixedNet.Graph

/-! ## The invariant -/

/-- The nodes whose operator is of a kind, in creation order. -/
def ofKind (g : Graph) (k : OpKind) : List NodeId :=
  (List.range g.nodes.capacity).filter fun id => (g.declaration? id).any (·.op.kind = k)

/-- What every operation on graphs keeps. -/
structure WellFormed (g : Graph) : Prop where
  /-- Both ends of an edge agree. -/
  two_ended : ∀ i o, g.producer? i = some o ↔ ∃ q, g.outlet? o = some q ∧ i ∈ q.consumers
  /-- No output lists a consumer twice. -/
  nodup : ∀ o q, g.outlet? o = some q → q.consumers.Nodup
  /-- The two ends of an edge have one type. -/
  same_type : ∀ i p o q, g.inlet? i = some p → p.producer = some o → g.outlet? o = some q →
    q.type = p.type
  /-- The connectors of a node have the types that its operator gives them. -/
  declared : ∀ id d, g.declaration? id = some d → ∃ t, d.op.signature t = .ok d.signature
  /-- All graph inputs are designated, and nothing else. -/
  inputs_eq : g.inputs = g.ofKind .input
  /-- All graph outputs are designated, and nothing else. -/
  outputs_eq : g.outputs = g.ofKind .output

variable {g g' : Graph}

theorem mem_ofKind {k : OpKind} {id : NodeId} :
    id ∈ g.ofKind k ↔ ∃ n, g.nodes.get? id = some n ∧ n.kind = k := by
  unfold ofKind
  rw [List.mem_filter, List.mem_range]
  constructor
  · rintro ⟨-, h⟩
    obtain ⟨d, hd, hk⟩ := (Option.any_eq_true _ _).1 h
    obtain ⟨n, hn, rfl⟩ := declaration?_eq_some.1 hd
    exact ⟨n, hn, of_decide_eq_true hk⟩
  · rintro ⟨n, hn, hk⟩
    refine ⟨Arena.lt_capacity_of_get? hn, ?_⟩
    have hd := declaration?_of_get? hn
    rw [hd]
    exact decide_eq_true hk

theorem ofKind_congr (hc : g'.nodes.capacity = g.nodes.capacity)
    (hd : ∀ id, g'.declaration? id = g.declaration? id) (k : OpKind) :
    g'.ofKind k = g.ofKind k := by
  unfold ofKind
  rw [hc]
  exact List.filter_congr fun id _ => by rw [hd]

theorem ofKind_append (g : Graph) (name : String) (op : Op) (s : Signature) (k : OpKind) :
    (g.append name op s).ofKind k =
      if op.kind = k then g.ofKind k ++ [g.nodes.capacity] else g.ofKind k := by
  unfold ofKind
  rw [capacity_append, List.range_succ, List.filter_append]
  have hold : (List.range g.nodes.capacity).filter
      (fun id => ((g.append name op s).declaration? id).any (·.op.kind = k)) =
      (List.range g.nodes.capacity).filter fun id => (g.declaration? id).any (·.op.kind = k) := by
    refine List.filter_congr fun id hid => ?_
    rw [declaration?_append, if_neg (Nat.ne_of_lt (List.mem_range.1 hid))]
  have hnew : (g.append name op s).declaration? g.nodes.capacity = some ⟨name, op, s⟩ := by
    rw [declaration?_append, if_pos rfl]
  rw [hold, List.filter_cons, hnew, List.filter_nil]
  by_cases h : op.kind = k
  · simp [h]
  · simp [h]

theorem ofKind_dropNode (g : Graph) {id : NodeId} {k : OpKind} (h : id ∉ g.ofKind k) :
    (g.dropNode id).ofKind k = g.ofKind k := by
  unfold ofKind
  rw [capacity_dropNode]
  refine List.filter_congr fun x hx => ?_
  rw [declaration?_dropNode]
  by_cases hid : id = x
  · -- The filter skipped `id` before as well, since it is not of this kind.
    subst hid
    rw [if_pos rfl]
    unfold ofKind at h
    rw [List.mem_filter, not_and] at h
    exact (Bool.eq_false_iff.2 (h hx)).symm
  · rw [if_neg hid]

namespace WellFormed

/-- A graph with nothing in it. -/
theorem empty : WellFormed {} where
  two_ended i o := by
    constructor
    · intro h
      cases h
    · rintro ⟨q, hq, -⟩
      cases hq
  nodup o q h := by cases h
  same_type i p o q h := by cases h
  declared id d h := by cases h
  inputs_eq := rfl
  outputs_eq := rfl

section Lookup

variable (hg : WellFormed g)
include hg

/-- What feeds an input exists. -/
theorem outlet?_of_producer? {i : InputId} {o : OutputId} (h : g.producer? i = some o) :
    ∃ q, g.outlet? o = some q ∧ i ∈ q.consumers :=
  (hg.two_ended i o).1 h

/-- A listed consumer names the output that lists it. -/
theorem producer?_of_mem {i : InputId} {o : OutputId} {q : Outlet} (ho : g.outlet? o = some q)
    (hi : i ∈ q.consumers) : g.producer? i = some o :=
  (hg.two_ended i o).2 ⟨q, ho, hi⟩

/-- The consumers that a node lists exist. -/
theorem inlet?_of_mem_consumers {id : NodeId} {n : Node} (hn : g.nodes.get? id = some n)
    {i : InputId} (hi : i ∈ n.consumers) :
    ∃ k p, g.producer? i = some ⟨id, k⟩ ∧ g.inlet? i = some p := by
  unfold Node.consumers at hi
  obtain ⟨q, hq, hiq⟩ := List.mem_flatMap.1 hi
  obtain ⟨k, hk⟩ := List.mem_iff_getElem?.1 hq
  have ho : g.outlet? ⟨id, k⟩ = some q := by simp [outlet?, hn, hk]
  have hp := hg.producer?_of_mem ho hiq
  obtain ⟨p, hip, -⟩ := producer?_eq_some.1 hp
  exact ⟨k, p, hp, hip⟩

/-- The designated nodes are told by their kind. -/
theorem designated_iff {id : NodeId} {n : Node} (hn : g.nodes.get? id = some n) :
    id ∈ g.inputs ∨ id ∈ g.outputs ↔ n.kind = .input ∨ n.kind = .output := by
  have hkind : ∀ k, id ∈ g.ofKind k ↔ n.kind = k := by
    intro k
    rw [mem_ofKind, hn]
    simp only [Option.some.injEq, exists_eq_left']
  rw [hg.inputs_eq, hg.outputs_eq, hkind, hkind]

/-- The consumers of an output that feeds `i` among others, without `i`. -/
theorem outlet?_cut (i : InputId) (r : OutputId) :
    (g.cut i).outlet? r =
      (g.outlet? r).map fun q => { q with consumers := q.consumers.filter (· ≠ i) } := by
  -- Only the output that feeds `i` lists it, so filtering changes no other list.
  have hother : ∀ q, g.outlet? r = some q → g.producer? i ≠ some r →
      q.consumers.filter (· ≠ i) = q.consumers := by
    intro q hq hne
    rw [List.filter_eq_self]
    intro j hj
    simp only [decide_eq_true_eq]
    rintro rfl
    exact hne (hg.producer?_of_mem hq hj)
  have hsame : g.producer? i ≠ some r → g.outlet? r =
      (g.outlet? r).map fun q => { q with consumers := q.consumers.filter (· ≠ i) } := by
    intro hne
    cases hr : g.outlet? r with
    | none => rfl
    | some q => rw [Option.map_some, hother q hr hne]
  unfold cut
  cases hp : g.producer? i with
  | none => exact hsame (by rw [hp]; simp)
  | some o =>
    dsimp only
    rw [outlet?_unplug]
    by_cases h : o = r
    · rw [if_pos h]
    · rw [if_neg h]
      exact hsame (by rw [hp]; simpa using h)

end Lookup

/-! ## Edits that change edges only -/

/-- The parts of the invariant that are not about edges carry over. -/
theorem of_rewired (hg : WellFormed g) (h : Rewired g g')
    (two_ended : ∀ i o, g'.producer? i = some o ↔ ∃ q, g'.outlet? o = some q ∧ i ∈ q.consumers)
    (nodup : ∀ o q, g'.outlet? o = some q → q.consumers.Nodup)
    (same_type : ∀ i p o q, g'.inlet? i = some p → p.producer = some o →
      g'.outlet? o = some q → q.type = p.type) : WellFormed g' where
  two_ended := two_ended
  nodup := nodup
  same_type := same_type
  declared id d hd := hg.declared id d (by rw [← h.declaration]; exact hd)
  inputs_eq := by rw [h.inputs, hg.inputs_eq, ofKind_congr h.capacity h.declaration]
  outputs_eq := by rw [h.outputs, hg.outputs_eq, ofKind_congr h.capacity h.declaration]

/-- Types are declared, so an edge between connectors whose declared types are equal
has equal types at its ends. -/
theorem same_type_of_rewired (h : Rewired g g')
    (hedge : ∀ i o p q, g'.producer? i = some o → g.inlet? i = some p → g.outlet? o = some q →
      q.type = p.type) {i : InputId} {p : Inlet} {o : OutputId} {q : Outlet}
    (hi : g'.inlet? i = some p) (hp : p.producer = some o) (ho : g'.outlet? o = some q) :
    q.type = p.type := by
  have hti := inlet?_type (g := g') i
  rw [h.declaration, ← inlet?_type, hi] at hti
  have hto := outlet?_type (g := g') o
  rw [h.declaration, ← outlet?_type, ho] at hto
  obtain ⟨p', hp', htp⟩ := Option.map_eq_some_iff.1 hti.symm
  obtain ⟨q', hq', htq⟩ := Option.map_eq_some_iff.1 hto.symm
  calc q.type = q'.type := htq.symm
    _ = p'.type := hedge i o p' q' (producer?_eq_some.2 ⟨p, hi, hp⟩) hp' hq'
    _ = p.type := htp

theorem type_eq_of_producer? (hg : WellFormed g) {i : InputId} {o : OutputId} {p : Inlet}
    {q : Outlet} (h : g.producer? i = some o) (hi : g.inlet? i = some p)
    (ho : g.outlet? o = some q) : q.type = p.type := by
  obtain ⟨p', hp', hpo⟩ := producer?_eq_some.1 h
  rw [hi] at hp'
  cases hp'
  exact hg.same_type i p o q hi hpo ho

theorem cut (hg : WellFormed g) (i : InputId) : WellFormed (g.cut i) := by
  refine hg.of_rewired (Rewired.cut g i) ?two_ended ?nodup ?same_type
  case two_ended =>
    intro j o
    rw [producer?_cut, hg.outlet?_cut]
    -- Nothing feeds `i` now and no output lists it; every other input is where it was.
    by_cases hij : i = j
    · subst hij
      rw [if_pos rfl]
      constructor
      · intro h
        cases h
      · rintro ⟨q, hq, hmem⟩
        obtain ⟨q', -, rfl⟩ := Option.map_eq_some_iff.1 hq
        simp at hmem
    · rw [if_neg hij, hg.two_ended]
      constructor
      · rintro ⟨q, hq, hmem⟩
        refine ⟨_, by rw [hq]; rfl, List.mem_filter.2 ⟨hmem, ?_⟩⟩
        exact decide_eq_true (Ne.symm hij)
      · rintro ⟨q, hq, hmem⟩
        obtain ⟨q', hq', rfl⟩ := Option.map_eq_some_iff.1 hq
        exact ⟨q', hq', (List.mem_filter.1 hmem).1⟩
  case nodup =>
    intro o q hq
    rw [hg.outlet?_cut] at hq
    obtain ⟨q', hq', rfl⟩ := Option.map_eq_some_iff.1 hq
    exact (hg.nodup o q' hq').filter _
  case same_type =>
    intro j p o q
    refine same_type_of_rewired (Rewired.cut g i) ?_
    intro j o p q hj
    rw [producer?_cut] at hj
    by_cases hij : i = j
    · rw [if_pos hij] at hj
      cases hj
    · rw [if_neg hij] at hj
      exact hg.type_eq_of_producer? hj

theorem plug (hg : WellFormed g) {i : InputId} {o : OutputId} {p : Inlet} {q : Outlet}
    (hi : g.inlet? i = some p) (ho : g.outlet? o = some q) (ht : q.type = p.type)
    (hfree : g.producer? i = none) : WellFormed (g.plug i o) := by
  refine hg.of_rewired (Rewired.plug g i o) ?two_ended ?nodup ?same_type
  case two_ended =>
    intro j r
    rw [producer?_plug hi, outlet?_plug]
    by_cases hor : o = r
    · subst hor
      rw [if_pos rfl, ho]
      simp only [Option.map_some, Option.some.injEq, exists_eq_left', List.mem_append,
        List.mem_singleton]
      by_cases hij : i = j
      · rw [if_pos hij]
        exact ⟨fun _ => .inr hij.symm, fun _ => rfl⟩
      · rw [if_neg hij, hg.two_ended, ho]
        simp only [Option.some.injEq, exists_eq_left']
        exact ⟨.inl, fun h => h.resolve_right fun h => hij h.symm⟩
    · rw [if_neg hor, ← hg.two_ended]
      by_cases hij : i = j
      · -- Neither end says that `r` feeds `i`: the input names `o`, and it named nothing before.
        subst hij
        rw [if_pos rfl, hfree]
        simpa using hor
      · rw [if_neg hij]
  case nodup =>
    intro r s hs
    rw [outlet?_plug] at hs
    by_cases hor : o = r
    · subst hor
      rw [if_pos rfl, ho] at hs
      cases hs
      -- A listed consumer names its producer, and `i` named none.
      have hnot : i ∉ q.consumers := by
        intro hmem
        rw [hg.producer?_of_mem ho hmem] at hfree
        cases hfree
      simp only [List.nodup_append, hg.nodup o q ho, List.mem_singleton]
      refine ⟨trivial, by simp, ?_⟩
      rintro j hj _ rfl rfl
      exact hnot hj
    · rw [if_neg hor] at hs
      exact hg.nodup r s hs
  case same_type =>
    intro j p' r s
    refine same_type_of_rewired (Rewired.plug g i o) ?_
    intro j r p' s hj hp' hs
    rw [producer?_plug hi] at hj
    by_cases hij : i = j
    · subst hij
      rw [if_pos rfl] at hj
      cases hj
      rw [hi] at hp'
      rw [ho] at hs
      cases hp'
      cases hs
      exact ht
    · rw [if_neg hij] at hj
      exact hg.type_eq_of_producer? hj hp' hs

theorem wire (hg : WellFormed g) {i : InputId} {o : OutputId} {p : Inlet} {q : Outlet}
    (hi : g.inlet? i = some p) (ho : g.outlet? o = some q) (ht : q.type = p.type) :
    WellFormed (g.wire i o) := by
  unfold Graph.wire
  split
  · exact hg
  · -- Cutting keeps all types and leaves `i` free, which is what plugging asks for.
    obtain ⟨p', hp', htp⟩ := (Rewired.cut g i).inlet?_eq_some hi
    obtain ⟨q', hq', htq, -⟩ := (Rewired.cut g i).outlet?_eq_some ho
    refine (hg.cut i).plug hp' hq' (by rw [htq, htp, ht]) ?_
    rw [producer?_cut, if_pos rfl]

theorem foldl_cut (hg : WellFormed g) (l : List InputId) : WellFormed (l.foldl Graph.cut g) := by
  induction l generalizing g with
  | nil => exact hg
  | cons i l ih => exact ih (hg.cut i)

/-! ## Edits that change flags only -/

/-- A write after which every connector has its old edges and types. -/
theorem of_same_edges (hg : WellFormed g) (hc : g'.nodes.capacity = g.nodes.capacity)
    (hd : ∀ id, g'.declaration? id = g.declaration? id) (hi : ∀ i, g'.inlet? i = g.inlet? i)
    (ho : ∀ o, (g'.outlet? o).map (fun q => (q.type, q.consumers)) =
      (g.outlet? o).map fun q => (q.type, q.consumers))
    (hin : g'.inputs = g.inputs) (hout : g'.outputs = g.outputs) : WellFormed g' := by
  have hback : ∀ o q, g'.outlet? o = some q →
      ∃ q', g.outlet? o = some q' ∧ q'.type = q.type ∧ q'.consumers = q.consumers := by
    intro o q hq
    have h := ho o
    rw [hq] at h
    obtain ⟨q', hq', heq⟩ := Option.map_eq_some_iff.1 h.symm
    exact ⟨q', hq', congrArg Prod.fst heq, congrArg Prod.snd heq⟩
  constructor
  case two_ended =>
    intro i o
    have hp : g'.producer? i = g.producer? i := by rw [producer?, producer?, hi]
    rw [hp, hg.two_ended]
    constructor
    · rintro ⟨q, hq, hmem⟩
      have h := ho o
      rw [hq] at h
      obtain ⟨q', hq', heq⟩ := Option.map_eq_some_iff.1 h
      have hcons : q'.consumers = q.consumers := congrArg Prod.snd heq
      exact ⟨q', hq', by rw [hcons]; exact hmem⟩
    · rintro ⟨q, hq, hmem⟩
      obtain ⟨q', hq', -, hcons⟩ := hback o q hq
      exact ⟨q', hq', by rw [hcons]; exact hmem⟩
  case nodup =>
    intro o q hq
    obtain ⟨q', hq', -, hcons⟩ := hback o q hq
    rw [← hcons]
    exact hg.nodup o q' hq'
  case same_type =>
    intro i p o q hip hpo hq
    obtain ⟨q', hq', htype, -⟩ := hback o q hq
    rw [hi] at hip
    rw [← htype]
    exact hg.same_type i p o q' hip hpo hq'
  case declared =>
    intro id d hid
    rw [hd] at hid
    exact hg.declared id d hid
  case inputs_eq =>
    rw [hin, hg.inputs_eq, ofKind_congr hc hd]
  case outputs_eq =>
    rw [hout, hg.outputs_eq, ofKind_congr hc hd]

theorem flagNode (hg : WellFormed g) (id : NodeId) (f : Attributes → Attributes) :
    WellFormed (g.modifyNode id fun n => { n with attributes := f n.attributes }) := by
  refine hg.of_same_edges (capacity_modifyNode ..) ?_ ?_ ?_ rfl rfl
  · exact declaration?_modifyNode g id fun n => rfl
  · exact inlet?_modifyNode g id fun n => rfl
  · intro o
    rw [outlet?_modifyNode]
    intro n
    rfl

theorem flagOutput (hg : WellFormed g) (o : OutputId) (f : Attributes → Attributes) :
    WellFormed (g.modifyOutput o fun q => { q with attributes := f q.attributes }) := by
  refine hg.of_same_edges (capacity_modifyOutput ..) ?_ (inlet?_modifyOutput g o _) ?_ rfl rfl
  · exact declaration?_modifyOutput g o fun q => rfl
  · intro r
    rw [outlet?_modifyOutput]
    split
    · simp [Function.comp_def]
    · rfl

/-! ## Nodes that come and go -/

theorem append (hg : WellFormed g) (name : String) {op : Op} {t : TensorType} {s : Signature}
    (hs : op.signature t = .ok s) : WellFormed (g.append name op s) := by
  constructor
  case two_ended =>
    intro i o
    rw [outlet?_append, producer?_append]
    by_cases ho : o.node = g.nodes.capacity
    · -- The new node lists no consumer, and no input named it before it existed.
      rw [if_pos ho]
      constructor
      · intro h
        obtain ⟨q, hq, -⟩ := hg.outlet?_of_producer? h
        rw [outlet?_of_le (Nat.le_of_eq ho.symm)] at hq
        cases hq
      · rintro ⟨q, hq, hmem⟩
        obtain ⟨ty, -, rfl⟩ := Option.map_eq_some_iff.1 hq
        cases hmem
    · rw [if_neg ho, ← hg.two_ended]
  case nodup =>
    intro o q hq
    rw [outlet?_append] at hq
    by_cases ho : o.node = g.nodes.capacity
    · rw [if_pos ho] at hq
      obtain ⟨ty, -, rfl⟩ := Option.map_eq_some_iff.1 hq
      exact List.nodup_nil
    · rw [if_neg ho] at hq
      exact hg.nodup o q hq
  case same_type =>
    intro i p o q hi hpo hq
    -- A new input has no producer, so the edge is an old one and both its ends are old.
    have hpi : g.producer? i = some o := by
      rw [← producer?_append g name op s]
      exact producer?_eq_some.2 ⟨p, hi, hpo⟩
    obtain ⟨p', hp', hpo'⟩ := producer?_eq_some.1 hpi
    obtain ⟨q', hq', -⟩ := hg.outlet?_of_producer? hpi
    have hin : i.node ≠ g.nodes.capacity := fun h => by
      rw [inlet?_of_le (Nat.le_of_eq h.symm)] at hp'
      cases hp'
    have hon : o.node ≠ g.nodes.capacity := fun h => by
      rw [outlet?_of_le (Nat.le_of_eq h.symm)] at hq'
      cases hq'
    rw [inlet?_append, if_neg hin] at hi
    rw [outlet?_append, if_neg hon] at hq
    exact hg.same_type i p o q hi hpo hq
  case declared =>
    intro id d hd
    rw [declaration?_append] at hd
    by_cases hid : id = g.nodes.capacity
    · rw [if_pos hid] at hd
      cases hd
      exact ⟨t, hs⟩
    · rw [if_neg hid] at hd
      exact hg.declared id d hd
  case inputs_eq =>
    rw [ofKind_append, ← hg.inputs_eq]
    rfl
  case outputs_eq =>
    rw [ofKind_append, ← hg.outputs_eq]
    rfl

/-- A node without edges can go. -/
theorem dropNode (hg : WellFormed g) {id : NodeId} (hin : id ∉ g.inputs) (hout : id ∉ g.outputs)
    (hfed : ∀ i o, g.producer? i = some o → i.node ≠ id ∧ o.node ≠ id) :
    WellFormed (g.dropNode id) := by
  -- No edge touches the node, so no input loses its producer.
  have hprod : ∀ i, (g.dropNode id).producer? i = g.producer? i := by
    intro i
    rw [producer?, inlet?_dropNode]
    by_cases h : id = i.node
    · rw [if_pos h]
      cases hp : g.producer? i with
      | none => rfl
      | some o => exact absurd h.symm (hfed i o hp).1
    · rw [if_neg h]
      rfl
  constructor
  case two_ended =>
    intro i o
    rw [hprod, outlet?_dropNode]
    by_cases ho : id = o.node
    · rw [if_pos ho]
      constructor
      · intro h
        exact absurd ho.symm (hfed i o h).2
      · rintro ⟨q, hq, -⟩
        cases hq
    · rw [if_neg ho, hg.two_ended]
  case nodup =>
    intro o q hq
    rw [outlet?_dropNode] at hq
    split at hq
    · cases hq
    · exact hg.nodup o q hq
  case same_type =>
    intro i p o q hi hpo hq
    rw [inlet?_dropNode] at hi
    rw [outlet?_dropNode] at hq
    split at hi
    · cases hi
    · split at hq
      · cases hq
      · exact hg.same_type i p o q hi hpo hq
  case declared =>
    intro x d hd
    rw [declaration?_dropNode] at hd
    split at hd
    · cases hd
    · exact hg.declared x d hd
  case inputs_eq =>
    rw [ofKind_dropNode _ (by rw [← hg.inputs_eq]; exact hin), ← hg.inputs_eq]
    rfl
  case outputs_eq =>
    rw [ofKind_dropNode _ (by rw [← hg.outputs_eq]; exact hout), ← hg.outputs_eq]
    rfl

end WellFormed

/-! ## The connectors of a node

No operator has more than one input or one output, so the invariant fixes which
connectors a node has. -/

namespace WellFormed

variable (hg : WellFormed g) {id : NodeId} {d : Declaration}
include hg

theorem index_of_inlet? {i : InputId} {p : Inlet} (hi : g.inlet? i = some p)
    (hd : g.declaration? i.node = some d) :
    i.index = 0 ∧ d.op ≠ .input ∧ d.op.signature p.type = .ok d.signature := by
  obtain ⟨t, ht⟩ := hg.declared _ d hd
  have htype := type_of_inlet? hi hd
  rcases Op.signature_cases ht with ⟨-, hs⟩ | ⟨hop, hs⟩ | ⟨hin, -, u, hs⟩
  · simp [hs] at htype
  · obtain ⟨hindex, rfl⟩ : i.index = 0 ∧ t = p.type := by
      simpa [hs, List.getElem?_singleton] using htype
    exact ⟨hindex, by simp [hop], ht⟩
  · obtain ⟨hindex, rfl⟩ : i.index = 0 ∧ t = p.type := by
      simpa [hs, List.getElem?_singleton] using htype
    exact ⟨hindex, hin, ht⟩

theorem index_of_outlet? {o : OutputId} {q : Outlet} (ho : g.outlet? o = some q)
    (hd : g.declaration? o.node = some d) :
    o.index = 0 ∧ d.op ≠ .output ∧ d.signature.outputs = [q.type] := by
  obtain ⟨t, ht⟩ := hg.declared _ d hd
  have htype := type_of_outlet? ho hd
  rcases Op.signature_cases ht with ⟨hop, hs⟩ | ⟨-, hs⟩ | ⟨-, hout, u, hs⟩
  · obtain ⟨hindex, rfl⟩ : o.index = 0 ∧ t = q.type := by
      simpa [hs, List.getElem?_singleton] using htype
    exact ⟨hindex, by simp [hop], by rw [hs]⟩
  · simp [hs] at htype
  · obtain ⟨hindex, rfl⟩ : o.index = 0 ∧ u = q.type := by
      simpa [hs, List.getElem?_singleton] using htype
    exact ⟨hindex, hout, by rw [hs]⟩

/-- Every node but a graph input has an input. -/
theorem inlet?_zero (hd : g.declaration? id = some d) (hop : d.op ≠ .input) :
    ∃ p, g.inlet? ⟨id, 0⟩ = some p := by
  obtain ⟨t, ht⟩ := hg.declared _ d hd
  have htype : d.signature.inputs[0]? = some t := by
    rcases Op.signature_cases ht with ⟨hin, -⟩ | ⟨-, hs⟩ | ⟨-, -, u, hs⟩
    · exact absurd hin hop
    · simp [hs]
    · simp [hs]
  obtain ⟨p, hp, -⟩ := inlet?_of_type (i := ⟨id, 0⟩) hd htype
  exact ⟨p, hp⟩

/-- Every node but a graph output has an output. -/
theorem outlet?_zero (hd : g.declaration? id = some d) (hop : d.op ≠ .output) :
    ∃ q, g.outlet? ⟨id, 0⟩ = some q := by
  obtain ⟨t, ht⟩ := hg.declared _ d hd
  have htype : ∃ u, d.signature.outputs[0]? = some u := by
    rcases Op.signature_cases ht with ⟨-, hs⟩ | ⟨hout, -⟩ | ⟨-, -, u, hs⟩
    · exact ⟨t, by simp [hs]⟩
    · exact absurd hout hop
    · exact ⟨u, by simp [hs]⟩
  obtain ⟨u, hu⟩ := htype
  obtain ⟨q, hq, -⟩ := outlet?_of_type (o := ⟨id, 0⟩) hd hu
  exact ⟨q, hq⟩

theorem mem_inputs {n : Node} (hn : g.nodes.get? id = some n) {p : Inlet} :
    p ∈ n.inputs ↔ g.inlet? ⟨id, 0⟩ = some p := by
  have hinlet : ∀ k, g.inlet? ⟨id, k⟩ = n.inputs[k]? := fun k => by simp [inlet?, hn]
  rw [hinlet]
  refine ⟨fun hp => ?_, List.mem_of_getElem?⟩
  obtain ⟨k, hk⟩ := List.mem_iff_getElem?.1 hp
  obtain ⟨hzero, -⟩ := hg.index_of_inlet? (i := ⟨id, k⟩) (d := n.declaration)
    ((hinlet k).trans hk) (declaration?_of_get? hn)
  cases hzero
  exact hk

theorem mem_outputs {n : Node} (hn : g.nodes.get? id = some n) {q : Outlet} :
    q ∈ n.outputs ↔ g.outlet? ⟨id, 0⟩ = some q := by
  have houtlet : ∀ k, g.outlet? ⟨id, k⟩ = n.outputs[k]? := fun k => by simp [outlet?, hn]
  rw [houtlet]
  refine ⟨fun hq => ?_, List.mem_of_getElem?⟩
  obtain ⟨k, hk⟩ := List.mem_iff_getElem?.1 hq
  obtain ⟨hzero, -⟩ := hg.index_of_outlet? (o := ⟨id, k⟩) (d := n.declaration)
    ((houtlet k).trans hk) (declaration?_of_get? hn)
  cases hzero
  exact hk

/-- An edge joins the only output of a node with the only input of another. -/
theorem index_of_producer? {i : InputId} {o : OutputId} (h : g.producer? i = some o) :
    i.index = 0 ∧ o.index = 0 := by
  obtain ⟨p, hp, -⟩ := producer?_eq_some.1 h
  obtain ⟨q, hq, -⟩ := hg.outlet?_of_producer? h
  obtain ⟨n, hn, -⟩ := get?_of_inlet? hp
  obtain ⟨m, hm, -⟩ := get?_of_outlet? hq
  exact ⟨(hg.index_of_inlet? hp (declaration?_of_get? hn)).1,
    (hg.index_of_outlet? hq (declaration?_of_get? hm)).1⟩

end WellFormed

/-! ## Removing a node -/

theorem producer?_foldl_cut (g : Graph) (l : List InputId) (j : InputId) :
    (l.foldl cut g).producer? j = if j ∈ l then none else g.producer? j := by
  induction l generalizing g with
  | nil => simp
  | cons i l ih =>
    rw [List.foldl_cons, ih, producer?_cut]
    by_cases hj : j ∈ l
    · simp [hj]
    · by_cases hij : i = j
      · simp [hij]
      · have hji : ¬ j = i := fun h => hij h.symm
        simp [hj, hij, hji]

theorem WellFormed.outlet?_foldl_cut (hg : WellFormed g) (l : List InputId) (r : OutputId) :
    (l.foldl Graph.cut g).outlet? r =
      (g.outlet? r).map fun q => { q with consumers := q.consumers.filter (· ∉ l) } := by
  induction l generalizing g with
  | nil =>
    cases hr : g.outlet? r with
    | none => exact hr
    | some q => simp [hr, List.filter_eq_self.2]
  | cons i l ih =>
    rw [List.foldl_cons, ih (hg.cut i), hg.outlet?_cut, Option.map_map]
    simp [Function.comp_def, List.filter_filter, Bool.and_comm]

/-- An edge is among those that touch a node if the node is at one of its ends. -/
theorem WellFormed.mem_touching (hg : WellFormed g) {id : NodeId} {n : Node}
    (hn : g.nodes.get? id = some n) {i : InputId} {o : OutputId} (h : g.producer? i = some o) :
    i ∈ touching id n ↔ i.node = id ∨ o.node = id := by
  constructor
  · intro hi
    rcases List.mem_append.1 hi with hown | hfed
    · obtain ⟨k, -, rfl⟩ := List.mem_map.1 hown
      exact .inl rfl
    · obtain ⟨k, p, hp, -⟩ := hg.inlet?_of_mem_consumers hn hfed
      cases h.symm.trans hp
      exact .inr rfl
  · rintro (rfl | rfl)
    · obtain ⟨p, hp, -⟩ := producer?_eq_some.1 h
      obtain ⟨m, hm, hk⟩ := get?_of_inlet? hp
      cases hn.symm.trans hm
      obtain ⟨hlt, -⟩ := List.getElem?_eq_some_iff.1 hk
      exact List.mem_append_left _ (List.mem_map.2 ⟨i.index, List.mem_range.2 hlt, rfl⟩)
    · obtain ⟨q, hq, hmem⟩ := hg.outlet?_of_producer? h
      obtain ⟨m, hm, hk⟩ := get?_of_outlet? hq
      cases hn.symm.trans hm
      exact List.mem_append_right _ (List.mem_flatMap.2 ⟨q, List.mem_of_getElem? hk, hmem⟩)

/-- An input has a producer in the graph with `id` isolated exactly if it has it in
the graph and `id` is at neither end of the edge. -/
theorem WellFormed.producer?_isolate (hg : WellFormed g) {id : NodeId} {n : Node}
    (hn : g.nodes.get? id = some n) (i : InputId) (o : OutputId) :
    (g.isolate id n).producer? i = some o ↔
      g.producer? i = some o ∧ i.node ≠ id ∧ o.node ≠ id := by
  unfold isolate
  rw [producer?_foldl_cut]
  constructor
  · intro h
    split at h
    · cases h
    · next hi =>
      rw [hg.mem_touching hn h, not_or] at hi
      exact ⟨h, hi⟩
  · rintro ⟨h, hi⟩
    rw [if_neg, h]
    rwa [hg.mem_touching hn h, not_or]

/-- The consumers of another node's output in the graph with `id` isolated. -/
theorem WellFormed.outlet?_isolate (hg : WellFormed g) {id : NodeId} {n : Node}
    (hn : g.nodes.get? id = some n) {r : OutputId} (hr : r.node ≠ id) :
    (g.isolate id n).outlet? r =
      (g.outlet? r).map fun q => { q with consumers := q.consumers.filter (·.node ≠ id) } := by
  unfold isolate
  rw [hg.outlet?_foldl_cut]
  cases hq : g.outlet? r with
  | none => rfl
  | some q =>
    have hsame : q.consumers.filter (· ∉ touching id n) = q.consumers.filter (·.node ≠ id) := by
      refine List.filter_congr fun i hi => ?_
      simp [hg.mem_touching hn (hg.producer?_of_mem hq hi), hr]
    rw [Option.map_some, Option.map_some, hsame]

theorem WellFormed.remove (hg : WellFormed g) {id : NodeId} {n : Node}
    (hn : g.nodes.get? id = some n) (hin : id ∉ g.inputs) (hout : id ∉ g.outputs) :
    WellFormed ((g.isolate id n).dropNode id) := by
  have hw : Rewired g (g.isolate id n) := Rewired.foldl_cut g _
  refine (hg.foldl_cut _).dropNode ?_ ?_ ?_
  · exact hw.inputs ▸ hin
  · exact hw.outputs ▸ hout
  · intro i o h
    exact ((hg.producer?_isolate hn i o).1 h).2

end FixedNet.Graph
