/-
**Adding nodes and edges.** A replacement first adds nodes, which are unconnected, and
then sets edges one after another. This file says what a graph is after several nodes or
several edges, all at once.

* `Grown`: the graph has further nodes of given declarations, and all else is as it was.
* `rewire`: the graph with inputs fed from outputs, one after another. It is reached
  exactly if each of the edges could be set alone (`run_forM_connect`), and what it does
  to the two ends of an edge is `producer?_rewire` and `outlet?_rewire`.
-/
import FixedNet.Proofs.WellFormed

set_option autoImplicit false

namespace FixedNet

namespace Graph

variable {g g' : Graph}

/-! ## Adding nodes one after another -/

/-- The second graph is the first with unconnected nodes of the given declarations
added, none of them designated. -/
structure Grown (g : Graph) (ds : List Declaration) (g' : Graph) : Prop where
  wellFormed : g'.WellFormed
  capacity : g'.nodes.capacity = g.nodes.capacity + ds.length
  old : ∀ id, id < g.nodes.capacity → g'.nodes.get? id = g.nodes.get? id
  new : ∀ k, g'.declaration? (g.nodes.capacity + k) = ds[k]?
  producer : ∀ i, g'.producer? i = g.producer? i
  inputs : g'.inputs = g.inputs
  outputs : g'.outputs = g.outputs

namespace Grown

variable {ds : List Declaration}

theorem refl (hg : g.WellFormed) : Grown g [] g where
  wellFormed := hg
  capacity := rfl
  old _ _ := rfl
  new k := declaration?_of_le (Nat.le_add_right _ k)
  producer _ := rfl
  inputs := rfl
  outputs := rfl

theorem append (h : Grown g ds g') (name : String) (op : Op) {t : TensorType} {s : Signature}
    (hs : op.signature t = .ok s) (hin : op.kind ≠ .input) (hout : op.kind ≠ .output) :
    Grown g (ds ++ [⟨name, op, s⟩]) (g'.append name op s) where
  wellFormed := h.wellFormed.append name hs
  capacity := by
    rw [capacity_append, h.capacity, List.length_append]
    rfl
  old id hid := by
    have hlt : id < g'.nodes.capacity := by
      rw [h.capacity]
      exact Nat.lt_of_lt_of_le hid (Nat.le_add_right _ _)
    rw [get?_append, if_neg (Nat.ne_of_lt hlt), h.old id hid]
  new k := by
    rw [declaration?_append, h.new, h.capacity, List.getElem?_append]
    -- The new place, those before it, and those behind it, which are empty.
    by_cases hk : k = ds.length
    · simp [hk]
    · have hne : ¬ g.nodes.capacity + k = g.nodes.capacity + ds.length := fun heq =>
        hk (Nat.add_left_cancel heq)
      rw [if_neg hne]
      rcases Nat.lt_or_gt_of_ne hk with hlt | hgt
      · rw [if_pos hlt]
      · rw [if_neg (Nat.not_lt_of_gt hgt), List.getElem?_eq_none (Nat.le_of_lt hgt)]
        exact (List.getElem?_eq_none (Nat.sub_pos_of_lt hgt)).symm
  producer i := by rw [producer?_append, h.producer]
  inputs := by rw [← h.inputs]; exact if_neg hin
  outputs := by rw [← h.outputs]; exact if_neg hout

/-- Flagging one of the new outputs. -/
theorem flagOutput (h : Grown g ds g') {o : OutputId} (ho : g.nodes.capacity ≤ o.node)
    (a : Attributes) : Grown g ds (g'.modifyOutput o fun q => { q with attributes := a }) where
  wellFormed := h.wellFormed.flagOutput o fun _ => a
  capacity := (capacity_modifyOutput ..).trans h.capacity
  old id hid := by
    have hne : o.node ≠ id := fun heq => absurd hid (Nat.not_lt.2 (heq ▸ ho))
    unfold modifyOutput
    rw [get?_modifyNode, if_neg hne, h.old id hid]
  new k := by
    rw [← h.new k]
    apply declaration?_modifyOutput
    intro q
    rfl
  producer i := by
    rw [producer?, inlet?_modifyOutput]
    exact h.producer i
  inputs := h.inputs
  outputs := h.outputs

variable (h : Grown g ds g')
include h

theorem declaration {id : NodeId} (hid : id < g.nodes.capacity) :
    g'.declaration? id = g.declaration? id := by
  unfold declaration?
  rw [h.old id hid]

theorem inlet {i : InputId} (hi : i.node < g.nodes.capacity) : g'.inlet? i = g.inlet? i := by
  unfold inlet?
  rw [h.old i.node hi]

theorem outlet {o : OutputId} (ho : o.node < g.nodes.capacity) : g'.outlet? o = g.outlet? o := by
  unfold outlet?
  rw [h.old o.node ho]

/-- Nothing is connected to a new output. -/
theorem unused (hg : g.WellFormed) {o : OutputId} (ho : g.nodes.capacity ≤ o.node) {q : Outlet}
    (hq : g'.outlet? o = some q) : q.consumers = [] := by
  refine List.eq_nil_iff_forall_not_mem.2 fun i hi => ?_
  have hp := h.wellFormed.producer?_of_mem hq hi
  rw [h.producer] at hp
  obtain ⟨r, hr, -⟩ := hg.outlet?_of_producer? hp
  exact absurd (lt_capacity_of_outlet? hr) (Nat.not_lt.2 ho)

end Grown

/-! ## Adding edges one after another -/

variable {edges : List (InputId × OutputId)}

/-- The output can feed the input: both exist, and they have one type. -/
def Joins (g : Graph) (i : InputId) (o : OutputId) : Prop :=
  ∃ p q, g.inlet? i = some p ∧ g.outlet? o = some q ∧ q.type = p.type

/-- Feeds inputs from outputs, one after another. -/
def rewire (g : Graph) (edges : List (InputId × OutputId)) : Graph :=
  edges.foldl (fun g e => g.wire e.1 e.2) g

theorem Rewired.rewire (g : Graph) (edges : List (InputId × OutputId)) :
    Rewired g (g.rewire edges) := by
  induction edges generalizing g with
  | nil => exact refl g
  | cons e edges ih => exact (wire g e.1 e.2).trans (ih _)

theorem joins_iff_type {i : InputId} {o : OutputId} :
    g.Joins i o ↔
      ∃ t, (g.inlet? i).map (·.type) = some t ∧ (g.outlet? o).map (·.type) = some t := by
  simp only [Joins, Option.map_eq_some_iff]
  constructor
  · rintro ⟨p, q, hp, hq, ht⟩
    exact ⟨p.type, ⟨p, hp, rfl⟩, q, hq, ht⟩
  · rintro ⟨t, ⟨p, hp, rfl⟩, q, hq, ht⟩
    exact ⟨p, q, hp, hq, ht⟩

/-- Types are declared, so edges make no difference to what can be joined. -/
theorem Rewired.joins_iff (h : Rewired g g') {i : InputId} {o : OutputId} :
    g'.Joins i o ↔ g.Joins i o := by
  rw [joins_iff_type, joins_iff_type, inlet?_type, outlet?_type, h.declaration, h.declaration,
    ← inlet?_type, ← outlet?_type]

theorem joins_wire_iff {i : InputId} {o : OutputId} :
    (∀ e ∈ edges, (g.wire i o).Joins e.1 e.2) ↔ ∀ e ∈ edges, g.Joins e.1 e.2 :=
  forall₂_congr fun _ _ => (Rewired.wire g i o).joins_iff

section Run

variable {σ : Type} {c : σ} {log : List LogLine}

theorem run_connect_of_joins {i : InputId} {o : OutputId} (h : g.Joins i o) :
    (TransformM.edit (connect i o)).run ⟨g, c, log⟩ = .ok () ⟨g.wire i o, c, log⟩ := by
  obtain ⟨p, q, hp, hq, ht⟩ := h
  exact TransformM.run_edit_eq_ok.2 ⟨_, run_connect_eq_ok.2 ⟨p, q, hp, hq, ht, rfl⟩, rfl⟩

/-- Edges that can be set alone can be set one after another. -/
theorem run_forM_connect (h : ∀ e ∈ edges, g.Joins e.1 e.2) :
    (edges.forM fun e => TransformM.edit (connect e.1 e.2)).run ⟨g, c, log⟩ =
      .ok () ⟨g.rewire edges, c, log⟩ := by
  induction edges generalizing g with
  | nil => rfl
  | cons e edges ih =>
    obtain ⟨hfirst, hrest⟩ := List.forall_mem_cons.1 h
    -- The first edge changes no type, so the others can still be set.
    exact run_bind_eq_ok.2 ⟨_, _, run_connect_of_joins hfirst, ih (joins_wire_iff.2 hrest)⟩

/-- At an edge that cannot be set the graph refuses. -/
theorem run_forM_connect_of_not (h : ¬ ∀ e ∈ edges, g.Joins e.1 e.2) :
    ∃ cause w', (edges.forM fun e => TransformM.edit (connect e.1 e.2)).run ⟨g, c, log⟩ =
      .error (.graph cause) w' := by
  induction edges generalizing g with
  | nil => exact absurd (fun _ he => absurd he List.not_mem_nil) h
  | cons e edges ih =>
    rw [List.forall_mem_cons] at h
    cases hrun : (TransformM.edit (connect e.1 e.2)).run ⟨g, c, log⟩ with
    | error cause w₁ =>
      obtain ⟨cause', rfl⟩ := TransformM.run_edit_eq_error hrun
      exact ⟨cause', w₁, run_bind_eq_error.2 (.inl hrun)⟩
    | ok u w₁ =>
      -- This one can be set, so it is a later one that cannot.
      obtain ⟨g₁, hg₁, rfl⟩ := TransformM.run_edit_eq_ok.1 hrun
      obtain ⟨p, q, hp, hq, ht, rfl⟩ := run_connect_eq_ok.1 hg₁
      obtain ⟨cause, w₂, hrest⟩ := ih (g := g.wire e.1 e.2)
        fun hrest => h ⟨⟨p, q, hp, hq, ht⟩, joins_wire_iff.1 hrest⟩
      exact ⟨cause, w₂, run_bind_eq_error.2 (.inr ⟨u, _, hrun, hrest⟩)⟩

end Run

theorem WellFormed.rewire (hg : WellFormed g) (hjoins : ∀ e ∈ edges, g.Joins e.1 e.2) :
    WellFormed (g.rewire edges) := by
  induction edges generalizing g with
  | nil => exact hg
  | cons e edges ih =>
    obtain ⟨⟨p, q, hp, hq, ht⟩, hjoins⟩ := List.forall_mem_cons.1 hjoins
    exact ih (hg.wire hp hq ht) (joins_wire_iff.2 hjoins)

/-- Feeding inputs one after another, each at most once, is feeding them all at once. -/
theorem producer?_rewire (hjoins : ∀ e ∈ edges, g.Joins e.1 e.2)
    (hnodup : (edges.map (·.1)).Nodup) (i : InputId) :
    (g.rewire edges).producer? i = (edges.lookup i).or (g.producer? i) := by
  induction edges generalizing g with
  | nil => rfl
  | cons e edges ih =>
    obtain ⟨j, o⟩ := e
    obtain ⟨hnot, hnodup⟩ := List.nodup_cons.1 hnodup
    obtain ⟨⟨p, q, hp, -⟩, hjoins⟩ := List.forall_mem_cons.1 hjoins
    refine (ih (g := g.wire j o) (joins_wire_iff.2 hjoins) hnodup).trans ?_
    rw [producer?_wire hp, Calibration.lookup_cons_eq]
    by_cases hi : i = j
    · -- No later edge ends at `j`, so this one stays.
      have hnone : edges.lookup j = none := by
        refine List.lookup_eq_none_iff.2 fun e he => ?_
        rw [bne_iff_ne]
        rintro rfl
        exact hnot (List.mem_map.2 ⟨e, he, rfl⟩)
      rw [if_pos hi, if_pos hi.symm, hi, hnone]
      rfl
    · rw [if_neg hi, if_neg (Ne.symm hi)]

/-- A new edge ends the list of its output, and the input leaves the list it was in. -/
theorem WellFormed.outlet?_wire (hg : WellFormed g) {i : InputId} {o : OutputId}
    (hnew : g.producer? i ≠ some o) (r : OutputId) :
    (g.wire i o).outlet? r = (g.outlet? r).map fun q => { q with
      consumers := q.consumers.filter (· ≠ i) ++ if o = r then [i] else [] } := by
  unfold Graph.wire
  rw [if_neg hnew, outlet?_plug, hg.outlet?_cut]
  by_cases hr : o = r
  · simp [hr, Function.comp_def]
  · simp [hr]

/-- The consumers of an output after new edges: those that were not moved, and then
those that were moved to it, in the order of the edges. -/
def fanOut (edges : List (InputId × OutputId)) (r : OutputId) (l : List InputId) :
    List InputId :=
  l.filter (· ∉ edges.map (·.1)) ++ (edges.filter (·.2 = r)).map (·.1)

theorem fanOut_nil (r : OutputId) (l : List InputId) : fanOut [] r l = l := by
  simp [fanOut]

theorem fanOut_cons {i : InputId} (hi : i ∉ edges.map (·.1)) (o r : OutputId)
    (l : List InputId) :
    fanOut ((i, o) :: edges) r l =
      fanOut edges r (l.filter (· ≠ i) ++ if o = r then [i] else []) := by
  have hmoved : (if o = r then [i] else []).filter (· ∉ edges.map (·.1)) =
      if o = r then [i] else [] := by
    by_cases hr : o = r
    · rw [if_pos hr, List.filter_eq_self]
      simpa using hi
    · rw [if_neg hr, List.filter_nil]
  have hstay : (l.filter (· ≠ i)).filter (· ∉ edges.map (·.1)) =
      l.filter (· ∉ ((i, o) :: edges).map (·.1)) := by
    rw [List.filter_filter]
    refine List.filter_congr fun x _ => ?_
    simp only [List.map_cons, List.mem_cons, not_or, Bool.decide_and, Bool.and_comm, ne_eq]
  unfold fanOut
  rw [List.filter_append, hmoved, hstay, List.append_assoc]
  by_cases hr : o = r
  · simp [hr]
  · simp [hr]

theorem WellFormed.outlet?_rewire (hg : WellFormed g) (hjoins : ∀ e ∈ edges, g.Joins e.1 e.2)
    (hnodup : (edges.map (·.1)).Nodup) (hnew : ∀ e ∈ edges, g.producer? e.1 ≠ some e.2)
    (r : OutputId) :
    (g.rewire edges).outlet? r =
      (g.outlet? r).map fun q => { q with consumers := fanOut edges r q.consumers } := by
  induction edges generalizing g with
  | nil => simp [Graph.rewire, fanOut_nil]
  | cons e edges ih =>
    obtain ⟨i, o⟩ := e
    obtain ⟨hnot, hnodup⟩ := List.nodup_cons.1 hnodup
    obtain ⟨⟨p, q, hp, hq, ht⟩, hjoins⟩ := List.forall_mem_cons.1 hjoins
    obtain ⟨hfirst, hnew⟩ := List.forall_mem_cons.1 hnew
    -- No two edges end at one input, so the first makes none of the others.
    have hnew₁ : ∀ e ∈ edges, (g.wire i o).producer? e.1 ≠ some e.2 := by
      intro e he
      have hne : i ≠ e.1 := fun heq => hnot (List.mem_map.2 ⟨e, he, heq.symm⟩)
      rw [producer?_wire hp, if_neg hne]
      exact hnew e he
    calc ((g.wire i o).rewire edges).outlet? r
        = ((g.wire i o).outlet? r).map fun q =>
            { q with consumers := fanOut edges r q.consumers } :=
          ih (hg.wire hp hq ht) (joins_wire_iff.2 hjoins) hnodup hnew₁
      _ = (g.outlet? r).map fun q =>
            { q with consumers := fanOut ((i, o) :: edges) r q.consumers } := by
          rw [hg.outlet?_wire hfirst, Option.map_map]
          simp only [Function.comp_def, fanOut_cons hnot]

end Graph

end FixedNet
