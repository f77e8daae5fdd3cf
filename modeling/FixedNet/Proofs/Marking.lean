/-
**Marking is exact.** Marking a region flags what surrounds the selected nodes, and the
selected nodes, and does nothing else. The flags are set one after another, and one
connector may be met many times: it feeds several selected nodes, or it feeds one and is
the output of another. That it is met again makes no difference, since a flag that is set
already is not set anew.

* `Region.flagNode` is the node that marking is to leave, said without any order, and
  `Region.get?_mark` that it leaves this one.
* `Region.mark_eq_self_iff`: marking leaves a graph alone exactly if no node lacks a flag.
* `Region.changed_mark`: a run that asks for the flag again at each step reports a change
  exactly if the graph lacked a flag at the start. So it reports one exactly if there is one,
  and a second run makes none.
-/
import FixedNet.Proofs.Completeness
import FixedNet.Proofs.Handles

set_option autoImplicit false

namespace FixedNet

open FixedNet.Graph FixedNet.FixedPoint

/-! ## Flags -/

/-- The output with the flag. -/
def Outlet.flagged (q : Outlet) : Outlet := { q with attributes := q.attributes.union .quantize }

theorem Outlet.flagged_of_contains {q : Outlet} (h : q.attributes.contains .quantize) :
    q.flagged = q := by
  rw [flagged, Attributes.union_quantize_of_contains h]

theorem Outlet.flagged_flagged (q : Outlet) : q.flagged.flagged = q.flagged :=
  flagged_of_contains q.attributes.contains_union_quantize

/-! ## What a region is marked around -/

namespace Region

/-- The connector surrounds a selected node: it feeds one, or it is an output of one. -/
def Surrounds (r : Region) (g : Graph) (o : OutputId) : Prop :=
  (∃ id n p, g.node id = .ok n ∧ n.kind ∈ r.kinds ∧ p ∈ n.inputs ∧ p.producer = some o) ∨
    ∃ n, g.node o.node = .ok n ∧ n.kind ∈ r.kinds ∧ o.index < n.outputs.length

variable {r : Region} {g : Graph}

theorem mem_selected {id : NodeId} {n : Node} :
    (id, n) ∈ r.selected g ↔ g.nodes.get? id = some n ∧ n.kind ∈ r.kinds := by
  simp only [selected, List.mem_filter, Arena.mem_entries, decide_eq_true_eq]

theorem mem_surroundings_iff {o : OutputId} : o ∈ r.surroundings g ↔ r.Surrounds g o := by
  simp only [surroundings, List.mem_flatMap, Prod.exists, mem_selected, List.mem_append,
    Node.producers, List.mem_filterMap, List.mem_map, List.mem_range, Surrounds, node_eq_ok]
  constructor
  · rintro ⟨id, n, ⟨hn, hkind⟩, ⟨p, hp, ho⟩ | ⟨k, hk, rfl⟩⟩
    · exact .inl ⟨id, n, p, hn, hkind, hp, ho⟩
    · exact .inr ⟨n, hn, hkind, hk⟩
  · rintro (⟨id, n, p, hn, hkind, hp, ho⟩ | ⟨n, hn, hkind, hk⟩)
    · exact ⟨id, n, ⟨hn, hkind⟩, .inl ⟨p, hp, ho⟩⟩
    · exact ⟨o.node, n, ⟨hn, hkind⟩, .inr ⟨o.index, hk, rfl⟩⟩

instance (r : Region) (g : Graph) (o : OutputId) : Decidable (r.Surrounds g o) :=
  decidable_of_iff (o ∈ r.surroundings g) mem_surroundings_iff

/-- The node as marking leaves it: with its flag if it is selected, and with the flags of
those of its outputs that surround a selected node. -/
def flagNode (r : Region) (g : Graph) (id : NodeId) (n : Node) : Node :=
  { n with
    attributes := if n.kind ∈ r.kinds then n.attributes.union .quantize else n.attributes
    outputs := n.outputs.mapIdx fun k q => if r.Surrounds g ⟨id, k⟩ then q.flagged else q }

end Region

/-! ## A node after all marks -/

namespace Graph

variable {g : Graph}

theorem mapIdx_keep {α : Type} (l : List α) : (l.mapIdx fun _ a => a) = l :=
  List.ext_getElem? fun k => by simp

theorem get?_markNode (g : Graph) (k id : NodeId) :
    (g.markNode k).nodes.get? id = (g.nodes.get? id).map fun n =>
      { n with attributes := if k = id then n.attributes.union .quantize else n.attributes } := by
  rw [markNode, get?_modifyNode]
  by_cases h : k = id
  · simp [h]
  · simp [h]

theorem get?_markOutput (g : Graph) (o : OutputId) (id : NodeId) :
    (g.markOutput o).nodes.get? id = (g.nodes.get? id).map fun n =>
      { n with outputs := n.outputs.mapIdx fun k q => if o = ⟨id, k⟩ then q.flagged else q } := by
  obtain ⟨id', k'⟩ := o
  rw [markOutput, modifyOutput, get?_modifyNode]
  by_cases h : id' = id
  · subst h
    rw [if_pos rfl]
    congr 1
    funext n
    congr 1
    refine List.ext_getElem? fun k => ?_
    rw [getElem?_modify_eq, List.getElem?_mapIdx]
    by_cases hk : k' = k
    · simp [hk, Outlet.flagged]
    · simp [hk]
  · simp [h, mapIdx_keep]

/-- Flagging the outputs of a list leaves each node with those of its outputs flagged that
are in the list, however often they are. -/
theorem get?_foldl_markOutput (g : Graph) (l : List OutputId) (id : NodeId) :
    (l.foldl Graph.markOutput g).nodes.get? id = (g.nodes.get? id).map fun n =>
      { n with outputs := n.outputs.mapIdx fun k q => if ⟨id, k⟩ ∈ l then q.flagged else q } := by
  induction l generalizing g with
  | nil => simp [mapIdx_keep]
  | cons o l ih =>
    rw [List.foldl_cons, ih, get?_markOutput, Option.map_map]
    congr 1
    funext n
    simp only [Function.comp_apply, List.mapIdx_mapIdx]
    congr 2
    funext k q
    by_cases ho : o = ⟨id, k⟩
    · subst ho
      by_cases hl : (⟨id, k⟩ : OutputId) ∈ l
      · simp [hl, Outlet.flagged_flagged]
      · simp [hl]
    · simp [ho, Ne.symm ho]

/-- Flagging nodes leaves each of them flagged that is in the list, and its outputs alone. -/
theorem get?_foldl_markNode (g : Graph) (l : List (NodeId × Node)) (id : NodeId) :
    (l.foldl (fun g e => g.markNode e.1) g).nodes.get? id = (g.nodes.get? id).map fun n =>
      { n with
        attributes := if id ∈ l.map (·.1) then n.attributes.union .quantize else n.attributes } := by
  induction l generalizing g with
  | nil => simp
  | cons e l ih =>
    rw [List.foldl_cons, ih, get?_markNode, Option.map_map]
    congr 1
    funext n
    by_cases he : e.1 = id
    · by_cases hl : id ∈ l.map (·.1)
      · simp [he, hl, Attributes.union_quantize_of_contains n.attributes.contains_union_quantize]
      · simp [he, hl]
    · simp only [Function.comp_apply, he, if_false, List.map_cons, List.mem_cons, Ne.symm he,
        false_or]

end Graph

namespace Region

variable (r : Region) {g : Graph}

/-- **Marking leaves exactly the flags that the region asks for.** -/
theorem get?_mark (g : Graph) (id : NodeId) :
    (r.mark g).graph.nodes.get? id = (g.nodes.get? id).map (r.flagNode g id) := by
  rw [mark_eq, get?_foldl_markNode, get?_foldl_markOutput, Option.map_map]
  cases hn : g.nodes.get? id with
  | none => rfl
  | some n =>
    have hselected : id ∈ (r.selected g).map (·.1) ↔ n.kind ∈ r.kinds := by
      constructor
      · intro hid
        obtain ⟨⟨id', n'⟩, he, rfl⟩ := List.mem_map.1 hid
        obtain ⟨hn', hkind⟩ := mem_selected.1 he
        cases hn.symm.trans hn'
        exact hkind
      · intro hkind
        exact List.mem_map.2 ⟨(id, n), mem_selected.2 ⟨hn, hkind⟩, rfl⟩
    simp only [Option.map_some, Function.comp_apply, flagNode, hselected, mem_surroundings_iff]

theorem node_mark (g : Graph) (id : NodeId) :
    (r.mark g).graph.node id = (g.node id).map (r.flagNode g id) := by
  unfold node
  rw [get?_mark]
  cases g.nodes.get? id with
  | none => rfl
  | some n => rfl

/-- What no single mark changes, marking does not change. -/
theorem mark_congr {α : Type} (view : Graph → α)
    (houtput : ∀ g o, view (g.markOutput o) = view g)
    (hnode : ∀ g id, view (g.markNode id) = view g) (g : Graph) :
    view (r.mark g).graph = view g := by
  have houtputs : ∀ (l : List OutputId) (g : Graph),
      view (l.foldl Graph.markOutput g) = view g := by
    intro l
    induction l with
    | nil => exact fun _ => rfl
    | cons o l ih => exact fun g => (ih _).trans (houtput g o)
  have hnodes : ∀ (l : List (NodeId × Node)) (g : Graph),
      view (l.foldl (fun g e => g.markNode e.1) g) = view g := by
    intro l
    induction l with
    | nil => exact fun _ => rfl
    | cons e l ih => exact fun g => (ih _).trans (hnode g e.1)
  rw [mark_eq, hnodes, houtputs]

/-- All places are kept, and the designated nodes too. -/
theorem places_mark (g : Graph) :
    (r.mark g).graph.nodes.capacity = g.nodes.capacity ∧ (r.mark g).graph.inputs = g.inputs ∧
      (r.mark g).graph.outputs = g.outputs :=
  ⟨r.mark_congr (·.nodes.capacity) (fun g o => capacity_modifyOutput g o _)
      (fun g id => capacity_modifyNode g id _) g,
    r.mark_congr (·.inputs) (fun _ _ => rfl) (fun _ _ => rfl) g,
    r.mark_congr (·.outputs) (fun _ _ => rfl) (fun _ _ => rfl) g⟩

/-! ## Marks that are there already -/

theorem flagNode_eq_self_iff {id : NodeId} {n : Node} : r.flagNode g id n = n ↔
    (n.kind ∈ r.kinds → n.attributes.contains .quantize) ∧
      ∀ k q, n.outputs[k]? = some q → r.Surrounds g ⟨id, k⟩ → q.attributes.contains .quantize := by
  constructor
  · intro h
    refine ⟨fun hkind => ?_, fun k q hq ho => ?_⟩
    · rw [← h, flagNode, if_pos hkind]
      exact n.attributes.contains_union_quantize
    · have hsame : (r.flagNode g id n).outputs[k]? = some q := by rw [h, hq]
      rw [flagNode, List.getElem?_mapIdx, hq, Option.map_some, if_pos ho,
        Option.some.injEq] at hsame
      rw [← hsame]
      exact q.attributes.contains_union_quantize
  · rintro ⟨hnode, houtputs⟩
    have hattributes : (if n.kind ∈ r.kinds then n.attributes.union .quantize
        else n.attributes) = n.attributes := by
      split
      · next hkind => exact Attributes.union_quantize_of_contains (hnode hkind)
      · rfl
    have hlist : (n.outputs.mapIdx fun k q =>
        if r.Surrounds g ⟨id, k⟩ then q.flagged else q) = n.outputs := by
      refine List.ext_getElem? fun k => ?_
      rw [List.getElem?_mapIdx]
      cases hq : n.outputs[k]? with
      | none => rfl
      | some q =>
        rw [Option.map_some]
        split
        · next ho => rw [Outlet.flagged_of_contains (houtputs k q hq ho)]
        · rfl
    rw [flagNode, hattributes, hlist]

/-- Marking leaves a graph alone exactly if no node lacks a flag. -/
theorem mark_eq_self_iff : (r.mark g).graph = g ↔
    ∀ id n, g.nodes.get? id = some n → r.flagNode g id n = n := by
  constructor
  · intro h id n hn
    have hmark := r.get?_mark g id
    rw [h, hn, Option.map_some, Option.some.injEq] at hmark
    exact hmark.symm
  · intro h
    obtain ⟨-, hin, hout⟩ := r.places_mark g
    have hburied : (r.mark g).graph.nodes.buried = g.nodes.buried :=
      r.mark_congr (·.nodes.buried) (fun g _ => g.nodes.buried_modify _ _)
        (fun g _ => g.nodes.buried_modify _ _) g
    have hnodes : (r.mark g).graph.nodes = g.nodes := by
      refine Arena.ext_get? (fun id => ?_) hburied
      rw [get?_mark]
      cases hn : g.nodes.get? id with
      | none => rfl
      | some n => rw [Option.map_some, h id n hn]
    cases hm : (r.mark g).graph with
    | mk nodes inputs outputs =>
      rw [hm] at hnodes hin hout
      cases hnodes
      cases hin
      cases hout
      rfl

/-- Whether a connector around the selected nodes or a selected node lacks the flag. -/
def isMissing (g : Graph) : Bool :=
  (r.surroundings g).any g.isUnmarkedOutput ||
    ((r.selected g).map (·.1)).any g.isUnmarkedNode

/-- Once a flag was set the run has changed something. Until then the graph is the initial one,
so the flags that are asked for are those that it has. -/
theorem Progress.changed_foldl_step {τ : Type} (lacks : Graph → τ → Bool)
    (set : Graph → τ → Graph) (l : List τ) (s : Progress) :
    (l.foldl (Progress.step lacks set) s).changed = (s.changed || l.any (lacks s.graph)) := by
  induction l generalizing s with
  | nil => simp
  | cons t l ih =>
    rw [List.foldl_cons, ih, Progress.step]
    cases h : lacks s.graph t with
    | false => simp [h]
    | true => simp [h]

/-- Flags on outputs say nothing of the flags on nodes. -/
theorem isUnmarkedNode_foldl_markOutput (l : List OutputId) (g : Graph) :
    (l.foldl Graph.markOutput g).isUnmarkedNode = g.isUnmarkedNode := by
  funext id
  unfold isUnmarkedNode node
  rw [get?_foldl_markOutput]
  cases g.nodes.get? id with
  | none => rfl
  | some n => rfl

/-- **The loops report what was missing at the start.** -/
theorem changed_mark (g : Graph) : (r.mark g).changed = r.isMissing g := by
  have hflag : (r.mark g).changed = (r.flag g).changed := rfl
  rw [hflag, flag, Progress.changed_foldl_step, Progress.changed_foldl_step,
    Progress.graph_foldl_step fun _ _ => markOutput_of_marked, selected_foldl_markOutput,
    isUnmarkedNode_foldl_markOutput, Bool.false_or, isMissing]

/-- **A run reports a change exactly if there is one.** -/
theorem changed_iff : (r.mark g).changed ↔ (r.mark g).graph ≠ g := by
  rw [changed_mark, Ne, mark_eq_self_iff, ← Bool.not_eq_false, not_congr]
  simp only [isMissing, Bool.or_eq_false_iff, List.any_eq_false, List.forall_mem_map, Prod.forall,
    mem_selected, mem_surroundings_iff, flagNode_eq_self_iff]
  constructor
  · rintro ⟨houtputs, hnodes⟩ id n hn
    refine ⟨fun hkind => ?_, fun k q hq ho => ?_⟩
    · have hmissing := hnodes id n ⟨hn, hkind⟩
      rw [isUnmarkedNode, node_eq_ok.2 hn] at hmissing
      simpa using hmissing
    · have hmissing := houtputs _ ho
      have hq' : g.outlet? ⟨id, k⟩ = some q := by rw [outlet?, hn, Option.bind_some, hq]
      rw [isUnmarkedOutput, output_eq_ok.2 hq'] at hmissing
      simpa using hmissing
  · intro h
    refine ⟨fun o ho => ?_, fun id n hn => ?_⟩
    · unfold isUnmarkedOutput
      cases hq : g.outlet? o with
      | none =>
        rw [output_of_none hq]
        exact Bool.false_ne_true
      | some q =>
        obtain ⟨n, hn, hindex⟩ := get?_of_outlet? hq
        rw [output_eq_ok.2 hq]
        simpa using (h o.node n hn).2 o.index q hindex ho
    · rw [isUnmarkedNode, node_eq_ok.2 hn.1]
      simpa using (h id n hn.1).1 hn.2

/-! ## Marking twice -/

/-- Flags do not decide what a region is marked around. -/
theorem surroundings_mark (g : Graph) : r.surroundings (r.mark g).graph = r.surroundings g := by
  have hentries : (r.mark g).graph.nodes.entries =
      g.nodes.entries.map fun e => (e.1, r.flagNode g e.1 e.2) := by
    unfold Arena.entries
    rw [(r.places_mark g).1, List.map_filterMap]
    congr 1
    funext id
    rw [get?_mark, Option.map_map, Option.map_map]
    rfl
  have hselected : r.selected (r.mark g).graph =
      (r.selected g).map fun e => (e.1, r.flagNode g e.1 e.2) := by
    unfold selected
    rw [hentries, List.filter_map]
    rfl
  unfold surroundings
  rw [hselected, List.flatMap_map]
  congr 1
  funext e
  rw [flagNode, List.length_mapIdx]
  rfl

theorem flagNode_flagNode (id : NodeId) (n : Node) :
    r.flagNode (r.mark g).graph id (r.flagNode g id n) = r.flagNode g id n := by
  have hsurrounds : ∀ o, r.Surrounds (r.mark g).graph o ↔ r.Surrounds g o := fun o => by
    rw [← mem_surroundings_iff, ← mem_surroundings_iff, surroundings_mark]
  rw [flagNode_eq_self_iff]
  refine ⟨fun hkind => ?_, fun k q hq ho => ?_⟩
  · have hkind : n.kind ∈ r.kinds := hkind
    rw [flagNode, if_pos hkind]
    exact n.attributes.contains_union_quantize
  · rw [flagNode, List.getElem?_mapIdx] at hq
    obtain ⟨q', -, hq'⟩ := Option.map_eq_some_iff.1 hq
    rw [if_pos ((hsurrounds _).1 ho)] at hq'
    rw [← hq']
    exact q'.attributes.contains_union_quantize

theorem mark_mark (g : Graph) : (r.mark (r.mark g).graph).graph = (r.mark g).graph := by
  rw [mark_eq_self_iff]
  intro id n hn
  rw [get?_mark] at hn
  obtain ⟨n', -, rfl⟩ := Option.map_eq_some_iff.1 hn
  exact r.flagNode_flagNode id n'

theorem changed_mark_mark (g : Graph) : (r.mark (r.mark g).graph).changed = false := by
  rw [Bool.eq_false_iff, Ne, changed_iff, not_not]
  exact r.mark_mark g

/-- **Marking is exact, only adds flags, and adds none twice.** In a graph built by any
sequence of operations, marking a region of any kinds of nodes

* goes through the connectors that surround a selected node, all of which exist;
* leaves every node as it was, save that the selected nodes and these connectors have their
  flag, and leaves places and designated nodes alone;
* reports a change exactly if the graph changed;
* leaves the same connectors to go through, so that a second run reports no change and
  makes none. -/
theorem marking_exact (cs : List Command) (r : Region) :
    (∀ o, o ∈ r.surroundings (build cs) ↔
      (∃ id n p, (build cs).node id = .ok n ∧ n.kind ∈ r.kinds ∧ p ∈ n.inputs ∧
        p.producer = some o) ∨
      ∃ n, (build cs).node o.node = .ok n ∧ n.kind ∈ r.kinds ∧ o.index < n.outputs.length) ∧
    (∀ o ∈ r.surroundings (build cs), ∃ q, (build cs).output o = .ok q) ∧
    (∀ id, (r.mark (build cs)).graph.node id = ((build cs).node id).map fun n =>
      { n with
        attributes := if n.kind ∈ r.kinds then n.attributes.union .quantize else n.attributes
        outputs := n.outputs.mapIdx fun k q =>
          if ⟨id, k⟩ ∈ r.surroundings (build cs) then
            { q with attributes := q.attributes.union .quantize }
          else q }) ∧
    ((r.mark (build cs)).graph.nodes.capacity = (build cs).nodes.capacity ∧
      (r.mark (build cs)).graph.inputs = (build cs).inputs ∧
      (r.mark (build cs)).graph.outputs = (build cs).outputs) ∧
    ((r.mark (build cs)).changed ↔ (r.mark (build cs)).graph ≠ build cs) ∧
    r.surroundings (r.mark (build cs)).graph = r.surroundings (build cs) ∧
    (r.mark (r.mark (build cs)).graph).changed = false ∧
    (r.mark (r.mark (build cs)).graph).graph = (r.mark (build cs)).graph := by
  have hg := wellFormed_build cs
  refine ⟨fun o => mem_surroundings_iff, fun o ho => ?_, fun id => ?_, r.places_mark _,
    r.changed_iff, r.surroundings_mark _, r.changed_mark_mark _, r.mark_mark _⟩
  · obtain ⟨q, hq⟩ := r.outlet?_of_surroundings hg ho
    exact ⟨q, output_eq_ok.2 hq⟩
  · simp only [node_mark, mem_surroundings_iff]
    rfl

end Region

end FixedNet
