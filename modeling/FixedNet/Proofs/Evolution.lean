/-
**Later graphs.** `Follows g₀ g` says that `g` may come later than `g₀`: it is well
formed, and what it still has of `g₀` has not changed. Nodes keep their
declarations, designated nodes stay, and the place of a removed node is never used
again.

The smallest edits keep `Follows g₀`, so every operation on graphs does, whether it
is done or refused. Whatever those operations keep `Persists`: passes, and transforms
with the engine that drives them, are made of them, so these keep it as well, also
when they stop halfway.
-/
import FixedNet.Pass.Region
import FixedNet.Proofs.WellFormed

set_option autoImplicit false

namespace FixedNet

/-! ## Marking

Marking sets a flag only where it is missing. The graph is the same as if it were set in any
case, so what follows need not tell the two apart. -/

namespace Region

open FixedNet.Graph

theorem markOutput_of_marked {g : Graph} {o : OutputId} (h : g.isUnmarkedOutput o = false) :
    g.markOutput o = g := by
  rw [markOutput, modifyOutput_eq_self]
  intro q hq
  rw [isUnmarkedOutput, output_eq_ok.2 hq] at h
  rw [Attributes.union_quantize_of_contains (by simpa using h)]

theorem markNode_of_marked {g : Graph} {id : NodeId} (h : g.isUnmarkedNode id = false) :
    g.markNode id = g := by
  rw [markNode, modifyNode_eq_self]
  intro n hn
  rw [isUnmarkedNode, node_eq_ok.2 hn] at h
  rw [Attributes.union_quantize_of_contains (by simpa using h)]

theorem Progress.graph_foldl_step {τ : Type} {lacks : Graph → τ → Bool} {set : Graph → τ → Graph}
    (h : ∀ g t, lacks g t = false → set g t = g) (l : List τ) (s : Progress) :
    (l.foldl (Progress.step lacks set) s).graph = l.foldl set s.graph := by
  induction l generalizing s with
  | nil => rfl
  | cons t l ih =>
    rw [List.foldl_cons, List.foldl_cons, ih, Progress.step]
    cases ht : lacks s.graph t with
    | false => rw [if_neg Bool.false_ne_true, h _ _ ht]
    | true => rw [if_pos rfl]

/-- Nodes are selected by their declarations. -/
theorem map_fst_selected_congr (r : Region) {g g' : Graph}
    (hcapacity : g'.nodes.capacity = g.nodes.capacity)
    (h : ∀ id, g'.declaration? id = g.declaration? id) :
    (r.selected g').map (·.1) = (r.selected g).map (·.1) := by
  unfold selected Arena.entries
  rw [hcapacity, List.filter_filterMap, List.filter_filterMap, List.map_filterMap,
    List.map_filterMap]
  congr 1
  funext id
  have hid := h id
  unfold declaration? at hid
  cases hn : g.nodes.get? id with
  | none =>
    rw [hn] at hid
    rw [Option.map_eq_none_iff.1 hid]
  | some n =>
    rw [hn] at hid
    obtain ⟨n', hn', hsame⟩ := Option.map_eq_some_iff.1 hid
    have hkind : n'.kind = n.kind := congrArg (·.op.kind) hsame
    simp [hn', Option.filter, hkind]

theorem selected_foldl_markOutput (r : Region) (l : List OutputId) (g : Graph) :
    (r.selected (l.foldl Graph.markOutput g)).map (·.1) = (r.selected g).map (·.1) := by
  induction l generalizing g with
  | nil => rfl
  | cons o l ih =>
    rw [List.foldl_cons, ih]
    exact r.map_fst_selected_congr (capacity_modifyOutput g o _)
      (declaration?_modifyOutput g o fun _ => rfl)

/-- Marking flags outputs and nodes one after another. -/
theorem mark_eq (r : Region) (g : Graph) :
    (r.mark g).graph = (r.selected g).foldl (fun g e => g.markNode e.1)
      ((r.surroundings g).foldl Graph.markOutput g) := by
  have hflag : (r.mark g).graph = (r.flag g).graph := rfl
  rw [hflag, flag, Progress.graph_foldl_step fun _ _ => markNode_of_marked,
    Progress.graph_foldl_step fun _ _ => markOutput_of_marked, selected_foldl_markOutput,
    List.foldl_map]

end Region

namespace Graph

variable {g₀ g g' : Graph}

/-! ## Later graphs -/

/-- The second graph may come later than the first: nodes keep their declarations,
only nodes that are not designated disappear, and places are never used again. -/
structure Evolves (g g' : Graph) : Prop where
  capacity : g.nodes.capacity ≤ g'.nodes.capacity
  kept : ∀ id d, g.declaration? id = some d → g'.declaration? id = some d ∨
    g'.declaration? id = none ∧ d.op.kind ≠ .input ∧ d.op.kind ≠ .output
  emptied : ∀ id, id < g.nodes.capacity → g.declaration? id = none → g'.declaration? id = none

namespace Evolves

theorem refl (g : Graph) : Evolves g g :=
  ⟨Nat.le_refl _, fun _ _ h => .inl h, fun _ _ h => h⟩

theorem trans {g₁ g₂ g₃ : Graph} (h : Evolves g₁ g₂) (h' : Evolves g₂ g₃) : Evolves g₁ g₃ where
  capacity := Nat.le_trans h.capacity h'.capacity
  kept id d hd := by
    rcases h.kept id d hd with h₂ | ⟨h₂, hkind⟩
    · exact h'.kept id d h₂
    · refine .inr ⟨h'.emptied id ?_ h₂, hkind⟩
      exact Nat.lt_of_lt_of_le (lt_capacity_of_declaration? hd) h.capacity
  emptied id hid hd :=
    h'.emptied id (Nat.lt_of_lt_of_le hid h.capacity) (h.emptied id hid hd)

theorem of_same_declarations (hc : g'.nodes.capacity = g.nodes.capacity)
    (hd : ∀ id, g'.declaration? id = g.declaration? id) : Evolves g g' where
  capacity := Nat.le_of_eq hc.symm
  kept id d h := .inl (by rw [hd]; exact h)
  emptied id _ h := by rw [hd]; exact h

theorem append (g : Graph) (name : String) (op : Op) (s : Signature) :
    Evolves g (g.append name op s) where
  capacity := by rw [capacity_append]; exact Nat.le_succ _
  kept id d h := by
    rw [declaration?_append]
    by_cases hid : id = g.nodes.capacity
    · rw [declaration?_of_le (Nat.le_of_eq hid.symm)] at h
      cases h
    · rw [if_neg hid]
      exact .inl h
  emptied id hid h := by
    rw [declaration?_append, if_neg (Nat.ne_of_lt hid)]
    exact h

theorem dropNode (g : Graph) {id : NodeId} (hin : id ∉ g.ofKind .input)
    (hout : id ∉ g.ofKind .output) : Evolves g (g.dropNode id) where
  capacity := Nat.le_of_eq (capacity_dropNode g id).symm
  kept x d h := by
    rw [declaration?_dropNode]
    by_cases hx : id = x
    · subst hx
      rw [if_pos rfl]
      obtain ⟨n, hn, rfl⟩ := declaration?_eq_some.1 h
      exact .inr ⟨rfl, fun hk => hin (mem_ofKind.2 ⟨n, hn, hk⟩),
        fun hk => hout (mem_ofKind.2 ⟨n, hn, hk⟩)⟩
    · rw [if_neg hx]
      exact .inl h
  emptied x _ h := by
    rw [declaration?_dropNode, h]
    exact ite_self none

end Evolves

/-- A later graph that satisfies the invariant. -/
structure Follows (g₀ g : Graph) : Prop where
  wellFormed : WellFormed g
  evolves : Evolves g₀ g

namespace Follows

theorem refl (hg : WellFormed g) : Follows g g := ⟨hg, .refl g⟩

theorem cut (h : Follows g₀ g) (i : InputId) : Follows g₀ (g.cut i) :=
  have hw := Rewired.cut g i
  ⟨h.wellFormed.cut i, h.evolves.trans (.of_same_declarations hw.capacity hw.declaration)⟩

theorem wire (h : Follows g₀ g) {i : InputId} {o : OutputId} {p : Inlet} {q : Outlet}
    (hi : g.inlet? i = some p) (ho : g.outlet? o = some q) (ht : q.type = p.type) :
    Follows g₀ (g.wire i o) :=
  have hw := Rewired.wire g i o
  ⟨h.wellFormed.wire hi ho ht,
    h.evolves.trans (.of_same_declarations hw.capacity hw.declaration)⟩

theorem append (h : Follows g₀ g) (name : String) {op : Op} {t : TensorType} {s : Signature}
    (hs : op.signature t = .ok s) : Follows g₀ (g.append name op s) :=
  ⟨h.wellFormed.append name hs, h.evolves.trans (.append g name op s)⟩

theorem remove (h : Follows g₀ g) {id : NodeId} {n : Node} (hn : g.nodes.get? id = some n)
    (hin : id ∉ g.inputs) (hout : id ∉ g.outputs) :
    Follows g₀ ((g.isolate id n).dropNode id) := by
  have hw : Rewired g (g.isolate id n) := Rewired.foldl_cut g _
  refine ⟨h.wellFormed.remove hn hin hout, ?_⟩
  -- Isolating a node changes no declaration, so it is still not a designated one.
  have hsame : ∀ k, (g.isolate id n).ofKind k = g.ofKind k :=
    ofKind_congr hw.capacity hw.declaration
  refine h.evolves.trans ((Evolves.of_same_declarations hw.capacity hw.declaration).trans ?_)
  refine .dropNode _ ?_ ?_
  · rw [hsame, ← h.wellFormed.inputs_eq]
    exact hin
  · rw [hsame, ← h.wellFormed.outputs_eq]
    exact hout

theorem flagNode (h : Follows g₀ g) (id : NodeId) (f : Attributes → Attributes) :
    Follows g₀ (g.modifyNode id fun n => { n with attributes := f n.attributes }) :=
  ⟨h.wellFormed.flagNode id f, h.evolves.trans
    (.of_same_declarations (capacity_modifyNode ..) (declaration?_modifyNode g id fun _ => rfl))⟩

theorem flagOutput (h : Follows g₀ g) (o : OutputId) (f : Attributes → Attributes) :
    Follows g₀ (g.modifyOutput o fun q => { q with attributes := f q.attributes }) :=
  ⟨h.wellFormed.flagOutput o f, h.evolves.trans
    (.of_same_declarations (capacity_modifyOutput ..) (declaration?_modifyOutput g o fun _ => rfl))⟩

end Follows

/-! ## Operations on graphs -/

theorem keeps_setNodeAttributes (id : NodeId) (a : Attributes) :
    Keeps (Follows g₀) (setNodeAttributes id a) := by
  refine Keeps.bind (Keeps.query _ _) fun _ => ?_
  intro g hg
  exact hg.flagNode id fun _ => a

theorem keeps_setOutputAttributes (o : OutputId) (a : Attributes) :
    Keeps (Follows g₀) (setOutputAttributes o a) := by
  refine Keeps.bind (Keeps.query _ _) fun _ => ?_
  intro g hg
  exact hg.flagOutput o fun _ => a

theorem keeps_addNode (name : String) (op : Op) (t : TensorType) :
    Keeps (Follows g₀) (addNode name op t) := by
  intro g hg
  cases h : (addNode name op t).run g with
  | ok id g' =>
    obtain ⟨s, hs, -, rfl⟩ := run_addNode_eq_ok.1 h
    exact hg.append name hs
  | error e g' =>
    rw [(run_addNode_eq_error.1 h).1]
    exact hg

theorem keeps_addInput (name : String) (t : TensorType) :
    Keeps (Follows g₀) (addInput name t) := by
  intro g hg
  have hs : Op.input.signature t = .ok ⟨[], [t]⟩ := rfl
  exact hg.append name hs

theorem keeps_disconnect (i : InputId) : Keeps (Follows g₀) (disconnect i) := by
  intro g hg
  cases h : (disconnect i).run g with
  | ok o g' =>
    obtain ⟨p, hp, -, rfl⟩ := run_disconnect_eq_ok.1 h
    exact hg.cut i
  | error e g' =>
    rw [(run_disconnect_eq_error.1 h).1]
    exact hg

theorem keeps_connect (i : InputId) (o : OutputId) : Keeps (Follows g₀) (connect i o) := by
  intro g hg
  cases h : (connect i o).run g with
  | ok u g' =>
    obtain ⟨p, q, hi, ho, ht, rfl⟩ := run_connect_eq_ok.1 h
    exact hg.wire hi ho ht
  | error e g' =>
    rw [(run_connect_eq_error.1 h).1]
    exact hg

/-- On a well-formed graph a node that is not designated is removed. -/
theorem WellFormed.run_removeNode (hg : WellFormed g) {id : NodeId} {n : Node}
    (hn : g.nodes.get? id = some n) (hd : ¬ (id ∈ g.inputs ∨ id ∈ g.outputs)) :
    (removeNode id).run g = .ok () ((g.isolate id n).dropNode id) := by
  rw [not_or] at hd
  refine Graph.run_removeNode hn hd.1 hd.2 fun i hi => ?_
  obtain ⟨k, p, -, hp⟩ := hg.inlet?_of_mem_consumers hn hi
  exact ⟨p, hp⟩

/-- On a well-formed graph a node is removed or the graph is left alone. -/
theorem WellFormed.run_removeNode_cases (hg : WellFormed g) (id : NodeId) :
    (∃ e, (removeNode id).run g = .error e g) ∨
      ∃ n, g.nodes.get? id = some n ∧ id ∉ g.inputs ∧ id ∉ g.outputs ∧
        (removeNode id).run g = .ok () ((g.isolate id n).dropNode id) := by
  cases hn : g.node id with
  | error e => exact .inl ⟨e, run_removeNode_of_missing hn⟩
  | ok n =>
    by_cases hd : id ∈ g.inputs ∨ id ∈ g.outputs
    · exact .inl ⟨_, run_removeNode_of_designated hn hd⟩
    · have hrun := hg.run_removeNode (node_eq_ok.1 hn) hd
      rw [not_or] at hd
      exact .inr ⟨n, node_eq_ok.1 hn, hd.1, hd.2, hrun⟩

theorem keeps_removeNode (id : NodeId) : Keeps (Follows g₀) (removeNode id) := by
  intro g hg
  rcases hg.wellFormed.run_removeNode_cases id with ⟨e, he⟩ | ⟨n, hn, hin, hout, hrun⟩
  · rw [he]
    exact hg
  · rw [hrun]
    exact hg.remove hn hin hout

/-! ## Properties that persist -/

/-- A property of graphs that every operation keeps, whether it is done or refused. -/
structure Persists (P : Graph → Prop) : Prop where
  addNode : ∀ name op t, Keeps P (Graph.addNode name op t)
  addInput : ∀ name t, Keeps P (Graph.addInput name t)
  connect : ∀ i o, Keeps P (Graph.connect i o)
  disconnect : ∀ i, Keeps P (Graph.disconnect i)
  removeNode : ∀ id, Keeps P (Graph.removeNode id)
  setNodeAttributes : ∀ id a, Keeps P (Graph.setNodeAttributes id a)
  setOutputAttributes : ∀ o a, Keeps P (Graph.setOutputAttributes o a)

theorem persists_follows (g₀ : Graph) : Persists (Follows g₀) where
  addNode := keeps_addNode
  addInput := keeps_addInput
  connect := keeps_connect
  disconnect := keeps_disconnect
  removeNode := keeps_removeNode
  setNodeAttributes := keeps_setNodeAttributes
  setOutputAttributes := keeps_setOutputAttributes

namespace Persists

variable {P : Graph → Prop} (hP : Persists P)
include hP

theorem addOutput (name : String) (source : OutputId) : Keeps P (Graph.addOutput name source) :=
  .bind (.query _ _) fun _ => .bind (hP.addNode _ _ _) fun _ =>
    .bind (hP.connect _ _) fun _ => .pure _ _

/-! ### Passes

A pass sets flags one after another, by `Region.mark_eq` as if none were set already. Where
there is nothing to flag it writes nothing, and elsewhere it assigns the flags that it
computes. -/

theorem flagNode (hg : P g) (id : NodeId) (f : Attributes → Attributes) :
    P (g.modifyNode id fun n => { n with attributes := f n.attributes }) := by
  cases hn : g.nodes.get? id with
  | none =>
    rw [modifyNode_of_none hn]
    exact hg
  | some n =>
    have hkeep := hP.setNodeAttributes id (f n.attributes) g hg
    unfold Graph.setNodeAttributes at hkeep
    rw [EStateM.run_bind, GraphM.run_query, node_eq_ok.2 hn] at hkeep
    have hsame : g.modifyNode id (fun m => { m with attributes := f m.attributes }) =
        g.modifyNode id fun m => { m with attributes := f n.attributes } := by
      unfold modifyNode
      rw [Arena.modify_congr]
      intro m hm
      cases hn.symm.trans hm
      rfl
    rw [hsame]
    exact hkeep

theorem flagOutput (hg : P g) (o : OutputId) (f : Attributes → Attributes) :
    P (g.modifyOutput o fun q => { q with attributes := f q.attributes }) := by
  cases ho : g.outlet? o with
  | none =>
    rw [modifyOutput_of_none ho]
    exact hg
  | some q =>
    have hkeep := hP.setOutputAttributes o (f q.attributes) g hg
    rw [run_setOutputAttributes ho] at hkeep
    have hsame : g.modifyOutput o (fun r => { r with attributes := f r.attributes }) =
        g.modifyOutput o fun r => { r with attributes := f q.attributes } := by
      apply modifyOutput_congr
      intro r hr
      cases ho.symm.trans hr
      rfl
    rw [hsame]
    exact hkeep

theorem mark (hg : P g) (r : Region) : P (r.mark g).graph := by
  have houtputs : ∀ (l : List OutputId) (g : Graph), P g → P (l.foldl Graph.markOutput g) := by
    intro l
    induction l with
    | nil => exact fun g hg => hg
    | cons o l ih => exact fun g hg => ih _ (hP.flagOutput hg o (·.union .quantize))
  have hnodes : ∀ (l : List (NodeId × Node)) (g : Graph), P g →
      P (l.foldl (fun g e => g.markNode e.1) g) := by
    intro l
    induction l with
    | nil => exact fun g hg => hg
    | cons e l ih => exact fun g hg => ih _ (hP.flagNode hg e.1 (·.union .quantize))
  rw [r.mark_eq]
  exact hnodes _ _ (houtputs _ _ hg)

theorem foldl_step (s : DeadNodes.Outcome) (h : P s.graph) (l : List NodeId) :
    P (l.foldl DeadNodes.step s).graph := by
  induction l generalizing s with
  | nil => exact h
  | cons id l ih =>
    refine ih _ ?_
    have hkeep : P (finalState ((Graph.removeNode id).run s.graph)) := hP.removeNode id s.graph h
    unfold DeadNodes.step
    cases hr : (Graph.removeNode id).run s.graph with
    | ok u g' =>
      rw [hr] at hkeep
      exact hkeep
    | error e g' =>
      rw [hr] at hkeep
      exact hkeep

theorem sweep (hg : P g) {s : DeadNodes.Outcome} (hs : DeadNodes.sweep g = .ok s) : P s.graph := by
  unfold DeadNodes.sweep at hs
  cases hr : g.reachable with
  | error e =>
    rw [hr] at hs
    cases hs
  | ok live =>
    rw [hr] at hs
    have hfold := hP.foldl_step { graph := g } hg (DeadNodes.dead g live)
    simp only [bind, Except.bind, pure, Except.pure] at hs
    split at hs
    · cases hs
      exact hfold
    · cases hs
      exact hfold

end Persists

end Graph

/-! ## Transforms -/

open FixedNet.Graph

/-- The graph that a transform works on has the property. -/
def OnGraph {σ : Type} (P : Graph → Prop) (w : EngineState σ) : Prop := P w.graph

theorem keeps_get_bind {ε σ α : Type} {P : σ → Prop} {f : σ → EStateM ε σ α}
    (hf : ∀ s, P s → P (finalState ((f s).run s))) : Keeps P (get >>= f) :=
  fun s hs => hf s hs

/-! ### The engine

It keeps what the transforms keep that it drives. -/

section Engine

variable {σ : Type} {P : Graph → Prop}

theorem keeps_offer {ts : List (Transform σ)}
    (hts : ∀ t ∈ ts, ∀ m, Keeps (OnGraph P) (t.apply m)) (id : NodeId) :
    Keeps (OnGraph P) (Engine.offer id ts) := by
  induction ts with
  | nil => exact Keeps.pure _ _
  | cons t ts ih =>
    have hask : Keeps (OnGraph P) (Engine.ask t id) := keeps_get_bind fun w hw => hw
    refine Keeps.bind hask fun m => ?_
    cases m with
    | none => exact ih fun t' ht' => hts t' (List.mem_cons_of_mem _ ht')
    | some m =>
      refine Keeps.bind (Keeps.edit (Keeps.query _ _)) fun _ => ?_
      refine Keeps.bind (Keeps.report _ _ _) fun _ => ?_
      exact Keeps.bind (hts t (List.mem_cons_self ..) m) fun _ => Keeps.pure _ _

theorem keeps_visit {r : Registry σ} (hr : ∀ t ∈ r, ∀ m, Keeps (OnGraph P) (t.apply m))
    (report : Engine.Report) (id : NodeId) :
    Keeps (OnGraph P) (Engine.visit r report id) := by
  refine keeps_get_bind fun w hw => ?_
  cases w.graph.nodes.get? id with
  | none => exact hw
  | some n =>
    refine Keeps.bind (keeps_offer (fun t ht => hr t (List.mem_filter.1 ht).1) id)
      (fun a => ?_) w hw
    cases a with
    | none => exact Keeps.pure _ _
    | some a => exact Keeps.pure _ _

theorem keeps_run {r : Registry σ} (hr : ∀ t ∈ r, ∀ m, Keeps (OnGraph P) (t.apply m)) :
    Keeps (OnGraph P) (Engine.run r) := by
  refine keeps_get_bind fun w hw => ?_
  refine Keeps.bind (Keeps.foldlM _ _ (keeps_visit hr)) (fun _ => ?_) w hw
  exact Keeps.bind (Keeps.report _ _ _) fun _ => Keeps.pure _ _

end Engine

/-! ### Replacing convolutions -/

namespace Graph.Persists

variable {P : Graph → Prop} (hP : Persists P)
include hP

theorem carryOver (old new : OutputId) (calibrated : Bool) :
    Keeps (OnGraph P) (carryOver old new calibrated) := by
  refine Keeps.bind (Keeps.edit (Keeps.query _ _)) fun _ => ?_
  refine Keeps.bind (Keeps.edit (Keeps.query _ _)) fun _ => ?_
  refine Keeps.bind (Keeps.edit (hP.setOutputAttributes _ _)) fun _ => ?_
  cases calibrated with
  | false => exact Keeps.pure _ _
  | true =>
    refine keeps_get_bind fun w hw => ?_
    cases w.state.copy old new with
    | ok c => exact hw
    | error e =>
      -- The graph is read once more, for the name in the error.
      exact Keeps.bind (Keeps.edit (Keeps.query _ _)) (fun _ => Keeps.throw _ _) w hw

theorem splice (p : FixedPoint.Plan) : Keeps (OnGraph P) (FixedPoint.splice p) := by
  refine Keeps.bind (Keeps.edit (Keeps.query _ _)) fun _ => ?_
  refine Keeps.bind (Keeps.edit (hP.addNode _ _ _)) fun _ => ?_
  refine Keeps.bind (Keeps.edit (hP.addNode _ _ _)) fun _ => ?_
  refine Keeps.bind (Keeps.edit (Keeps.query _ _)) fun _ => ?_
  refine Keeps.bind (Keeps.edit (hP.addNode _ _ _)) fun _ => ?_
  refine Keeps.bind (hP.carryOver _ _ _) fun _ => ?_
  refine Keeps.bind (Keeps.edit (Keeps.query _ _)) fun _ => ?_
  refine Keeps.bind (Keeps.forM _ fun _ => Keeps.edit (hP.connect _ _)) fun _ => ?_
  exact Keeps.report _ _ _

theorem apply (config : CodeLimits) (m : Match) :
    Keeps (OnGraph P) (FixedPoint.apply config m) := by
  refine keeps_get_bind fun w hw => ?_
  cases FixedPoint.plan config m w.graph w.state with
  | error e => exact hw
  | ok p => exact Keeps.bind (Keeps.report _ _ _) (fun _ => hP.splice p) w hw

theorem lower (config : CodeLimits) : Keeps (OnGraph P) (FixedPoint.lower config) := by
  refine Keeps.bind (keeps_run fun t ht => ?_) fun report => ?_
  · cases List.mem_singleton.1 ht
    exact hP.apply config
  · refine keeps_get_bind fun w hw => ?_
    cases hs : DeadNodes.sweep w.graph with
    | ok s => exact hP.sweep hw hs
    | error e =>
      -- What the engine has done by then stays done.
      exact hw

end Graph.Persists

end FixedNet
