/-
**Reachability and evaluation order.** Only nodes from which a designated output
can be reached matter to what a graph computes. `reachable` collects them by
walking from the outputs to producers; `topologicalOrder` puts them in an order
in which every node comes after its producers, always taking the earliest node
that is ready.
-/
import FixedNet.Graph.Basic

set_option autoImplicit false

namespace FixedNet.Graph

theorem nodeAt_eq_ok {g : Graph} {id : NodeId} {n : Node} :
    g.nodeAt id = .ok n ↔ g.nodes.get? id = some n := by
  unfold nodeAt Arena.get
  cases g.nodes.get? id with
  | none => exact ⟨nofun, nofun⟩
  | some m =>
    constructor
    · intro h
      exact congrArg some (Except.ok.inj h)
    · intro h
      exact congrArg Except.ok (Option.some.inj h)

variable (g : Graph)

/-! ## Reachability -/

/-- The nodes still to be found: those that exist and were not seen. -/
def unseen (seen : List NodeId) : List NodeId := g.ids.filter (· ∉ seen)

theorem length_unseen_lt {seen : List NodeId} {id : NodeId} {n : Node}
    (hn : g.nodeAt id = .ok n) (hid : id ∉ seen) :
    (g.unseen (id :: seen)).length < (g.unseen seen).length := by
  have hmem : id ∈ g.ids :=
    Arena.mem_handles.2 ((Arena.contains_iff _ _).2 ⟨n, nodeAt_eq_ok.1 hn⟩)
  have hsplit : g.unseen (id :: seen) = (g.unseen seen).filter (· ≠ id) := by
    simp only [unseen, List.filter_filter]
    congr 1
    funext x
    simp [List.mem_cons]
  rw [hsplit, List.length_filter_lt_length_iff_exists]
  exact ⟨id, List.mem_filter.2 ⟨hmem, by simpa using hid⟩, by simp⟩

/-- Adds to `seen` every node on the worklist and all that feed them. -/
def gather (seen : List NodeId) (work : List NodeId) : Except GraphError (List NodeId) :=
  match work with
  | [] => .ok seen
  | id :: rest =>
    if id ∈ seen then gather seen rest
    else
      match _hn : g.nodeAt id with
      | .error e => .error e
      | .ok n => gather (id :: seen) (n.producers.map (·.node) ++ rest)
termination_by ((g.unseen seen).length, work.length)
decreasing_by
  · exact Prod.Lex.right _ (by simp)
  · exact Prod.Lex.left _ _ (g.length_unseen_lt (by assumption) (by assumption))

/-- The nodes from which a designated output can be reached, in creation order. -/
def reachable : Except GraphError (List NodeId) := do
  let seen ← g.gather [] (g.outputs.filter g.contains)
  return g.ids.filter (· ∈ seen)

/-! ## Order

Each node waits for the values of its connected inputs. How many are still missing is
counted: all of them at first, and one less for each edge from a node that is emitted. -/

/-- Where putting nodes in order stands: for each of the nodes how many values it waits
for, and the nodes that wait for none and have not been emitted. -/
structure Countdown where
  waiting : List (NodeId × Nat)
  ready : List NodeId

namespace Countdown

/-- Counts a value off at a node. A node that then waits for none is ready; a node without
a count is not to be put in order. -/
def feed (c : Countdown) (id : NodeId) : Except GraphError Countdown :=
  match c.waiting.lookup id with
  | none => .ok c
  | some 0 => .error (.overfed id)
  | some (k + 1) =>
    .ok
      { waiting := c.waiting.map fun e => if e.1 = id then (e.1, e.2 - 1) else e
        ready := if k = 0 then c.ready.insert id else c.ready }

/-- How many values the nodes wait for together. -/
def missing (waiting : List (NodeId × Nat)) : Nat := waiting.foldr (fun e n => e.2 + n) 0

/-- The values that are waited for and the nodes that are ready: what is left to do. -/
def size (c : Countdown) : Nat := missing c.waiting + c.ready.length

theorem missing_cons (e : NodeId × Nat) (l : List (NodeId × Nat)) :
    missing (e :: l) = e.2 + missing l := rfl

theorem missing_countOff_lt {id : NodeId} {k : Nat} {l : List (NodeId × Nat)}
    (h : l.lookup id = some (k + 1)) :
    missing (l.map fun e => if e.1 = id then (e.1, e.2 - 1) else e) < missing l := by
  -- Counts further back under the same key, if there were any, would not grow either.
  have hle : ∀ l : List (NodeId × Nat),
      missing (l.map fun e => if e.1 = id then (e.1, e.2 - 1) else e) ≤ missing l := by
    intro l
    induction l with
    | nil => exact Nat.le_refl _
    | cons e l ih =>
      simp only [List.map_cons, missing_cons]
      split <;> omega
  induction l with
  | nil => simp at h
  | cons e l ih =>
    obtain ⟨x, m⟩ := e
    have hl := hle l
    simp only [List.map_cons, missing_cons]
    by_cases hx : x = id
    · have hm : m = k + 1 := by simpa [List.lookup_cons, hx] using h
      rw [if_pos hx]
      dsimp only
      omega
    · have hne : (id == x) = false := beq_eq_false_iff_ne.2 (Ne.symm hx)
      have hlt := ih (by simpa [List.lookup_cons, hne] using h)
      rw [if_neg hx]
      omega

theorem size_feed_le {c c' : Countdown} {id : NodeId} (h : c.feed id = .ok c') :
    c'.size ≤ c.size := by
  unfold feed at h
  split at h
  · cases h
    exact Nat.le_refl _
  · cases h
  · next k hk =>
    cases h
    have hmissing := missing_countOff_lt hk
    have hready : (if k = 0 then c.ready.insert id else c.ready).length ≤ c.ready.length + 1 := by
      split
      · rw [List.length_insert]
        split <;> omega
      · omega
    simp only [size]
    omega

theorem size_foldlM_feed_le {l : List InputId} {c c' : Countdown}
    (h : l.foldlM (fun c i => c.feed i.node) c = .ok c') : c'.size ≤ c.size := by
  induction l generalizing c with
  | nil =>
    cases h
    exact Nat.le_refl _
  | cons i l ih =>
    rw [List.foldlM_cons] at h
    cases hf : c.feed i.node with
    | error e =>
      rw [hf] at h
      cases h
    | ok d =>
      rw [hf] at h
      exact Nat.le_trans (ih h) (size_feed_le hf)

end Countdown

/-- The countdown before anything is emitted. -/
def countdown (nodes : List NodeId) : Except GraphError Countdown := do
  let waiting ← nodes.mapM fun id => return (id, (← g.nodeAt id).producers.length)
  return ⟨waiting, (waiting.filter (·.2 = 0)).map (·.1)⟩

/-- Emits a ready node: its value arrives at every input that it feeds. -/
def emit (c : Countdown) (id : NodeId) : Except GraphError Countdown := do
  let n ← g.nodeAt id
  n.consumers.foldlM (fun c i => c.feed i.node) { c with ready := c.ready.erase id }

theorem size_emit_lt {c c' : Countdown} {id : NodeId} (hid : id ∈ c.ready)
    (h : g.emit c id = .ok c') : c'.size < c.size := by
  have hpos := List.length_pos_of_mem hid
  unfold emit at h
  cases hn : g.nodeAt id with
  | error e =>
    rw [hn] at h
    cases h
  | ok n =>
    rw [hn] at h
    refine Nat.lt_of_le_of_lt (Countdown.size_foldlM_feed_le h) ?_
    simp only [Countdown.size, List.length_erase_of_mem hid]
    omega

/-- Emits nodes one after another, each time the earliest that is ready, until none is. -/
def drain (c : Countdown) : Except GraphError (List NodeId) :=
  match _hid : c.ready.min? with
  | none => .ok []
  | some id =>
    match _hc : g.emit c id with
    | .error e => .error e
    | .ok c' => return id :: (← drain c')
termination_by c.size
decreasing_by exact g.size_emit_lt (List.min?_mem _hid) _hc

/-- The reachable nodes in an order in which producers come first. Among ready
nodes the earliest created is next. -/
def topologicalOrder : Except GraphError (List NodeId) := do
  let nodes ← g.reachable
  let order ← g.drain (← g.countdown nodes)
  if order.length ≠ nodes.length then throw (.cycle order.length nodes.length)
  return order

end FixedNet.Graph
