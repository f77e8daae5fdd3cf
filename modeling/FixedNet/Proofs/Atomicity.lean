/-
**Operations on graphs are atomic.** An operation consists of several steps, and some
of them come after others have written to the graph: a graph output is added before
it is connected, an input is detached before it is attached elsewhere, and a node is
removed at the end of a series of detachments. Every one of these steps may be refused
in principle. It is shown here that none of them ever is. So an operation is refused
by the checks at its beginning only, each time for a cause that is said of the graph
alone, and a refused operation leaves the whole graph as it was.

That a removal never stops halfway depends on the representation invariant: each
consumer that a node lists exists, so it can be detached.
-/
import FixedNet.Proofs.Rewriting

set_option autoImplicit false

namespace FixedNet

namespace Graph

variable {g g' : Graph} {e : GraphError}

/-- A removal that gets past its checks is done. What is left to do is detaching, and all
inputs concerned exist. -/
theorem WellFormed.run_removeNode_eq_error (hg : WellFormed g) {id : NodeId} :
    (removeNode id).run g = .error e g' ↔ g' = g ∧ (g.node id = .error e ∨
      ∃ n, g.node id = .ok n ∧ (n.kind = .input ∨ n.kind = .output) ∧
        e = .designatedNode n.name) := by
  cases hn : g.node id with
  | error e' =>
    rw [run_removeNode_of_missing hn]
    constructor
    · intro h
      cases h
      exact ⟨rfl, .inl rfl⟩
    · rintro ⟨rfl, h | ⟨n, hn', -⟩⟩
      · cases h
        rfl
      · cases hn'
  | ok n =>
    have hget := node_eq_ok.1 hn
    by_cases hd : id ∈ g.inputs ∨ id ∈ g.outputs
    · rw [run_removeNode_of_designated hn hd]
      constructor
      · intro h
        cases h
        exact ⟨rfl, .inr ⟨n, rfl, (hg.designated_iff hget).1 hd, rfl⟩⟩
      · rintro ⟨rfl, h | ⟨n', hn', -, rfl⟩⟩
        · cases h
        · cases hn'
          rfl
    · rw [hg.run_removeNode hget hd]
      constructor
      · intro h
        cases h
      · rintro ⟨-, h | ⟨n', hn', hkind, -⟩⟩
        · cases h
        · cases hn'
          exact absurd ((hg.designated_iff hget).2 hkind) hd

end Graph

open FixedNet.Graph

/-- **Operations on graphs are atomic.** On a graph built by any sequence of operations, and
whatever it is given, an operation that is refused leaves the graph exactly as it was. It
is refused for these causes only:

* a new node, if its operator does not take the type;
* a new graph output, if its source does not exist;
* an edge, if one of its ends does not exist or their types differ;
* detaching an input, if the input does not exist;
* removing a node, if it does not exist or is an input or an output of the graph. -/
theorem operations_atomic (cs : List Command) (e : GraphError) (g : Graph) :
    (∀ name op t, (addNode name op t).run (build cs) = .error e g ↔
      g = build cs ∧ op.signature t = .error e) ∧
    (∀ name source, (addOutput name source).run (build cs) = .error e g ↔
      g = build cs ∧ (build cs).output source = .error e) ∧
    (∀ i o, (connect i o).run (build cs) = .error e g ↔
      g = build cs ∧ EdgeRefused (build cs) i o e) ∧
    (∀ i, (disconnect i).run (build cs) = .error e g ↔
      g = build cs ∧ (build cs).input i = .error e) ∧
    ∀ id, (removeNode id).run (build cs) = .error e g ↔
      g = build cs ∧ ((build cs).node id = .error e ∨
        ∃ n, (build cs).node id = .ok n ∧ (n.kind = .input ∨ n.kind = .output) ∧
          e = .designatedNode n.name) :=
  ⟨fun _ _ _ => run_addNode_eq_error, fun _ _ => run_addOutput_eq_error,
    fun _ _ => run_connect_eq_error, fun _ => run_disconnect_eq_error,
    fun _ => (wellFormed_build cs).run_removeNode_eq_error⟩

/-- A chain of two convolutions of which the second lists a consumer that never was. No
sequence of operations builds it. -/
def strayConsumer : Graph where
  nodes :=
    (({} : Arena Node).push
        { name := "first"
          op := .conv2d FixedPoint.increment
          inputs := [{ type := ⟨.f32, [1, 1, 1, 1]⟩ }]
          outputs := [{ type := ⟨.f32, [1, 1, 1, 1]⟩, consumers := [⟨1, 0⟩] }] }).push
        { name := "second"
          op := .conv2d FixedPoint.increment
          inputs := [{ type := ⟨.f32, [1, 1, 1, 1]⟩, producer := some ⟨0, 0⟩ }]
          outputs := [{ type := ⟨.f32, [1, 1, 1, 1]⟩, consumers := [⟨7, 0⟩] }] }

-- Without the invariant a removal may stop halfway: the edge is gone and the node is there.
example : ∃ g, (removeNode 1).run strayConsumer = .error (.badHandle 7) g ∧
    g.producer? ⟨1, 0⟩ = none ∧ g.contains 1 := ⟨_, rfl, rfl, rfl⟩

end FixedNet
