/-
**Taking computations apart.** Graph operations and transforms are computations
over a state that may stop at an error, and an error keeps the state it arose in.
Three ways to reason about them are set up here.

* `Keeps P m`: the computation `m` leads from states with `P` to states with `P`,
  whether it stops or not. A sequence of computations keeps what each of them
  keeps, so an invariant is proved for the smallest steps only.
* `run_bind_eq_ok` and `run_bind_eq_error`: a sequence that succeeded, or failed,
  is a run of its first part followed by a run of the rest.
* `TransformM.run_edit_bind` and `TransformM.run_query_bind`: a transform is run one step
  at a time, where each step is known to succeed.
-/
import FixedNet.Transform.FixedPoint

set_option autoImplicit false

namespace FixedNet

variable {ε σ α β : Type}

/-- The state in which a computation ends, at a result or at an error. -/
def finalState : EStateM.Result ε σ α → σ
  | .ok _ s => s
  | .error _ s => s

/-- The computation ended with a result, and result and state pass the test. Where a run
can be evaluated, so can this. -/
def succeedsWith (test : α → σ → Bool) : EStateM.Result ε σ α → Bool
  | .ok a s => test a s
  | .error _ _ => false

theorem exists_of_succeedsWith {test : α → σ → Bool} {r : EStateM.Result ε σ α}
    (h : succeedsWith test r) : ∃ a s, r = .ok a s ∧ test a s := by
  cases r with
  | ok a s => exact ⟨a, s, rfl, h⟩
  | error e s => cases h

/-- The error at which the computation stopped. -/
def errorOf? : EStateM.Result ε σ α → Option ε
  | .ok _ _ => none
  | .error e _ => some e

theorem exists_of_errorOf? {e : ε} {r : EStateM.Result ε σ α} (h : errorOf? r = some e) :
    ∃ s, r = .error e s := by
  cases r with
  | ok a s => cases h
  | error e' s =>
    cases h
    exact ⟨s, rfl⟩

/-! ## One sequence, two runs -/

theorem run_bind_eq_ok {m : EStateM ε σ α} {f : α → EStateM ε σ β} {s s'' : σ} {b : β} :
    (m >>= f).run s = .ok b s'' ↔
      ∃ a s', m.run s = .ok a s' ∧ (f a).run s' = .ok b s'' := by
  rw [EStateM.run_bind]
  cases h : m.run s with
  | ok a s' =>
    refine ⟨fun hf => ⟨a, s', rfl, hf⟩, ?_⟩
    rintro ⟨a', t, hm, hf⟩
    cases hm
    exact hf
  | error e s' => simp

theorem run_bind_eq_error {m : EStateM ε σ α} {f : α → EStateM ε σ β} {s s'' : σ} {e : ε} :
    (m >>= f).run s = .error e s'' ↔
      m.run s = .error e s'' ∨ ∃ a s', m.run s = .ok a s' ∧ (f a).run s' = .error e s'' := by
  rw [EStateM.run_bind]
  cases h : m.run s with
  | ok a s' =>
    refine ⟨fun hf => .inr ⟨a, s', rfl, hf⟩, ?_⟩
    rintro (hm | ⟨a', t, hm, hf⟩)
    · cases hm
    · cases hm
      exact hf
  | error e' s' => simp

theorem run_get_bind (f : σ → EStateM ε σ α) (s : σ) : (get >>= f).run s = (f s).run s := rfl

/-- The same without a state. -/
theorem except_bind_eq_ok {m : Except ε α} {f : α → Except ε β} {b : β} :
    (m >>= f) = .ok b ↔ ∃ a, m = .ok a ∧ f a = .ok b := by
  cases m with
  | ok a =>
    refine ⟨fun h => ⟨a, rfl, h⟩, ?_⟩
    rintro ⟨a', ha, h⟩
    cases ha
    exact h
  | error e =>
    refine ⟨fun h => (by cases h), ?_⟩
    rintro ⟨a', ha, -⟩
    cases ha

theorem except_bind_eq_error {m : Except ε α} {f : α → Except ε β} {e : ε} :
    (m >>= f) = .error e ↔ m = .error e ∨ ∃ a, m = .ok a ∧ f a = .error e := by
  cases m with
  | ok a =>
    refine ⟨fun h => .inr ⟨a, rfl, h⟩, ?_⟩
    rintro (h | ⟨a', ha, h⟩)
    · cases h
    · cases ha
      exact h
  | error e' =>
    constructor
    · intro h
      cases h
      exact .inl rfl
    · rintro (h | ⟨a', ha, -⟩)
      · cases h
        rfl
      · cases ha

theorem mapM_eq_ok {f : α → Except ε β} {v : α → β} {l : List α}
    (h : ∀ a ∈ l, f a = .ok (v a)) : l.mapM f = .ok (l.map v) := by
  induction l with
  | nil => rfl
  | cons a l ih =>
    rw [List.mapM_cons, h a (List.mem_cons_self ..),
      ih fun b hb => h b (List.mem_cons_of_mem _ hb)]
    rfl

theorem mapError_ok {ε' : Type} (f : ε → ε') (a : α) : (Except.ok a).mapError f = .ok a := rfl

theorem mapError_eq_ok {ε' : Type} {f : ε → ε'} {m : Except ε α} {a : α} :
    m.mapError f = .ok a ↔ m = .ok a := by
  cases m with
  | ok b => exact ⟨fun h => congrArg _ (Except.ok.inj h), fun h => congrArg _ (Except.ok.inj h)⟩
  | error e => exact ⟨nofun, nofun⟩

/-! ## Invariants of computations -/

/-- Started in a state with `P`, the computation ends in one. -/
def Keeps (P : σ → Prop) (m : EStateM ε σ α) : Prop :=
  ∀ s, P s → P (finalState (m.run s))

theorem Keeps.of_ok {P : σ → Prop} {m : EStateM ε σ α} (hm : Keeps P m) {s s' : σ} {a : α}
    (hs : P s) (h : m.run s = .ok a s') : P s' := by
  have hend := hm s hs
  rw [h] at hend
  exact hend

theorem Keeps.pure (P : σ → Prop) (a : α) : Keeps P (Pure.pure a : EStateM ε σ α) :=
  fun _ hs => hs

theorem Keeps.throw (P : σ → Prop) (e : ε) : Keeps P (throw e : EStateM ε σ α) :=
  fun _ hs => hs

theorem Keeps.bind {P : σ → Prop} {m : EStateM ε σ α} {f : α → EStateM ε σ β}
    (hm : Keeps P m) (hf : ∀ a, Keeps P (f a)) : Keeps P (m >>= f) := by
  intro s hs
  have h := hm s hs
  rw [EStateM.run_bind]
  cases hr : m.run s with
  | ok a s' =>
    rw [hr] at h
    exact hf a s' h
  | error e s' =>
    rw [hr] at h
    exact h

theorem Keeps.forM {P : σ → Prop} {f : α → EStateM ε σ PUnit} (l : List α)
    (hf : ∀ a, Keeps P (f a)) : Keeps P (l.forM f) := by
  induction l with
  | nil => exact Keeps.pure P _
  | cons a l ih => exact Keeps.bind (hf a) fun _ => ih

theorem Keeps.foldlM {P : σ → Prop} {f : β → α → EStateM ε σ β} (l : List α) (b : β)
    (hf : ∀ b a, Keeps P (f b a)) : Keeps P (l.foldlM f b) := by
  induction l generalizing b with
  | nil => exact Keeps.pure P b
  | cons a l ih =>
    rw [List.foldlM_cons]
    exact Keeps.bind (hf b a) fun b' => ih b'

/-! ## Graphs inside transforms -/

theorem GraphM.run_query (f : Graph → Except GraphError α) (g : Graph) :
    (GraphM.query f).run g =
      match f g with
      | .ok a => .ok a g
      | .error e => .error e g := rfl

theorem GraphM.run_query_eq_ok {f : Graph → Except GraphError α} {g g' : Graph} {a : α} :
    (GraphM.query f).run g = .ok a g' ↔ f g = .ok a ∧ g' = g := by
  rw [GraphM.run_query]
  cases h : f g with
  | ok b => simp [eq_comm]
  | error e => simp

/-- Reading a graph keeps everything about it. -/
theorem Keeps.query (P : Graph → Prop) (f : Graph → Except GraphError α) :
    Keeps P (GraphM.query f) := by
  intro g hg
  rw [GraphM.run_query]
  cases f g with
  | ok a => exact hg
  | error e => exact hg

/-- What an edit keeps of graphs, a transform that consists of it keeps. -/
theorem Keeps.edit {P : Graph → Prop} {m : GraphM α} (hm : Keeps P m) :
    Keeps (fun w : EngineState σ => P w.graph) (TransformM.edit m) := by
  intro w hw
  have h := hm w.graph hw
  show P (finalState (TransformM.edit m w)).graph
  unfold TransformM.edit
  cases hr : m.run w.graph with
  | ok a g =>
    rw [hr] at h
    exact h
  | error e g =>
    rw [hr] at h
    exact h

theorem Keeps.report (P : Graph → Prop) (level : Level) (text : String) :
    Keeps (fun w : EngineState σ => P w.graph) (TransformM.report level text) :=
  fun _ hw => hw

theorem TransformM.run_report (level : Level) (text : String) (g : Graph) (s : σ)
    (log : List LogLine) :
    (TransformM.report level text).run ⟨g, s, log⟩ = .ok () ⟨g, s, log ++ [⟨level, text⟩]⟩ := rfl

theorem TransformM.run_edit_eq_ok {m : GraphM α} {w w' : EngineState σ} {a : α} :
    (TransformM.edit m).run w = .ok a w' ↔
      ∃ g, m.run w.graph = .ok a g ∧ w' = { w with graph := g } := by
  show TransformM.edit m w = .ok a w' ↔ _
  unfold TransformM.edit
  cases h : m.run w.graph with
  | ok b g =>
    constructor
    · intro hw
      cases hw
      exact ⟨g, rfl, rfl⟩
    · rintro ⟨g', hg, rfl⟩
      cases hg
      rfl
  | error e g => simp

theorem TransformM.run_query_eq_ok {f : Graph → Except GraphError α} {w w' : EngineState σ}
    {a : α} : (TransformM.query f).run w = .ok a w' ↔ f w.graph = .ok a ∧ w' = w := by
  unfold TransformM.query
  rw [TransformM.run_edit_eq_ok]
  constructor
  · rintro ⟨g, hg, rfl⟩
    obtain ⟨hf, rfl⟩ := GraphM.run_query_eq_ok.1 hg
    exact ⟨hf, rfl⟩
  · rintro ⟨hf, rfl⟩
    exact ⟨w'.graph, GraphM.run_query_eq_ok.2 ⟨hf, rfl⟩, rfl⟩

/-- Only the graph refuses an edit. -/
theorem TransformM.run_edit_eq_error {m : GraphM α} {w w' : EngineState σ} {e : EngineError}
    (h : (TransformM.edit m).run w = .error e w') : ∃ cause, e = .graph cause := by
  have hrun : TransformM.edit m w = .error e w' := h
  unfold TransformM.edit at hrun
  cases hm : m.run w.graph with
  | ok a g =>
    rw [hm] at hrun
    cases hrun
  | error cause g =>
    rw [hm] at hrun
    cases hrun
    exact ⟨cause, rfl⟩

/-- A transform that starts with an edit. -/
theorem TransformM.run_edit_bind {m : GraphM α} {f : α → TransformM σ β} {w : EngineState σ}
    {a : α} {g : Graph} (h : m.run w.graph = .ok a g) :
    (TransformM.edit m >>= f).run w = (f a).run { w with graph := g } := by
  have hm : (TransformM.edit m : TransformM σ α).run w = .ok a { w with graph := g } :=
    TransformM.run_edit_eq_ok.2 ⟨g, h, rfl⟩
  rw [EStateM.run_bind, hm]

/-- A transform that starts with a query. -/
theorem TransformM.run_query_bind {q : Graph → Except GraphError α} {f : α → TransformM σ β}
    {w : EngineState σ} {a : α} (h : q w.graph = .ok a) :
    (TransformM.query q >>= f).run w = (f a).run w := by
  have hm : (TransformM.query q : TransformM σ α).run w = .ok a w :=
    TransformM.run_query_eq_ok.2 ⟨h, rfl⟩
  rw [EStateM.run_bind, hm]

end FixedNet
