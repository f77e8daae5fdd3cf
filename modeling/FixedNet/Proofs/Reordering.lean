/-
**Replacements in any order.** The convolutions that are recognised in a graph may be
replaced in any order. The graphs that result differ, since the new nodes get their places
in the order of the replacements, but either all replacements succeed in both orders, and
then the graphs compute the same, or in neither.

* `Replaceable` is what the replacement of a site needs, and it is needed of the initial
  graph and the initial table only (`Underway.apply_ok_iff`). An output that was not
  replaced has a consumer exactly if it had one initially (`Spared`): the quantiser of a
  replacement is fed by what fed a convolution already.
* `Underway.replaceAll_ok_iff`: so all sites of a list are replaced exactly if each of them
  is replaceable, which does not depend on the order of the list.
* `Rewritten.evaluable_iff`: the graph evaluates afterwards exactly if it did initially. Its
  outputs are then those of the initial graph in fixed point, in which no order occurs.
-/
import FixedNet.Proofs.Lowering

set_option autoImplicit false

namespace FixedNet.FixedPoint

open FixedNet.Graph

/-- Replaces convolutions one after another. -/
def replaceAll (config : CodeLimits) (ids : List NodeId) : TransformM Calibration Unit :=
  ids.forM fun id =>
    apply config { nodes := [id], inputs := [⟨id, 0⟩], outputs := [⟨id, 0⟩] }

/-! ## When one replacement succeeds -/

/-- What the replacement of a site needs: parameters can be derived for it, and if
something consumes its result, then it is a convolution of numbers. -/
structure Replaceable (config : CodeLimits) (g : Graph) (c : Calibration) (s : Site) : Prop where
  derivable : ∃ p, Parameters.derive config s.conv c s.source s.output = .ok p
  numbers : (∃ i, g.producer? i = some s.output) → s.operand.scalar = .f32

theorem IsSite.apply_ok_iff {config : CodeLimits} {w : EngineState Calibration} {s : Site}
    (hg : w.graph.WellFormed) (hs : IsSite w.graph s) :
    (∃ w', (apply config s.toMatch).run w = .ok () w') ↔
      Replaceable config w.graph w.state s := by
  obtain ⟨q, hq⟩ := hs.outlet
  have hconsumed : (∃ i, w.graph.producer? i = some s.output) ↔ q.consumers ≠ [] := by
    simp only [← Site.mem_consumers_iff hg hq]
    exact ⟨fun ⟨_, hi⟩ => List.ne_nil_of_mem hi, List.exists_mem_of_ne_nil _⟩
  constructor
  · rintro ⟨w', hrun⟩
    obtain ⟨p, hp, -⟩ := hs.apply_eq_ok hg hrun
    refine ⟨⟨p, hp⟩, fun hi => Classical.byContradiction fun hscalar => ?_⟩
    -- The last of the new nodes yields numbers, so the graph would have refused.
    obtain ⟨cause, w'', hrefused⟩ := hs.run_apply_of_not_fits hg hq hp
      fun hfits => hscalar (hfits (hconsumed.1 hi))
    cases hrun.symm.trans hrefused
  · rintro ⟨⟨p, hp⟩, hnumbers⟩
    obtain ⟨g', log, hrun, -⟩ :=
      hs.run_apply_of_fits hg hq hp fun hne => hnumbers (hconsumed.2 hne)
    exact ⟨_, hrun⟩

/-! ## Consumers of what is not replaced yet -/

/-- An output of the initial graph that was not replaced has consumers only if it had some
in the initial graph. -/
def Spared (g₀ : Graph) (rs : List Replacement) (g : Graph) : Prop :=
  ∀ o : OutputId, o.node < g₀.nodes.capacity → (∀ r ∈ rs, r.site.output ≠ o) →
    (∃ i, g.producer? i = some o) → ∃ i, g₀.producer? i = some o

variable {config : CodeLimits} {g₀ g g' g₁ : Graph} {c₀ c₁ : Calibration}
  {rs : List Replacement} {s : Site} {p : Parameters} {w w' : EngineState Calibration}
  {feed : Feed}

/-- Stand-ins are new nodes, or the outputs themselves. -/
theorem Rewritten.standIn_eq_old (h : Rewritten g₀ rs g) {o r : OutputId}
    (hr : r.node < g₀.nodes.capacity) (heq : standIn rs o = r) : o = r := by
  rcases standIn_cases rs o with ⟨r', hr', -, hstand⟩ | ⟨-, hstand⟩
  · have hnew : g₀.nodes.capacity ≤ (standIn rs o).node := by
      rw [hstand]
      exact Nat.le_trans (h.base_bounds hr').1 (Nat.le_add_right _ 2)
    rw [heq] at hnew
    exact absurd hr (Nat.not_lt.2 hnew)
  · exact hstand.symm.trans heq

/-- One replacement more gives no output its first consumer but those of the new nodes. -/
theorem Spared.step (h : Spared g₀ rs g) (hrw : Rewritten g₀ rs g) (hs : IsSite g₀ s)
    (hsp : Spliced g { s with source := standIn rs s.source } p g') :
    Spared g₀ (rs ++ [⟨s, g.nodes.capacity, p⟩]) g' := by
  rintro o ho hnot ⟨⟨node, index⟩, hi⟩
  have hold : o.node < g.nodes.capacity := by
    rw [hrw.capacity]
    exact Nat.lt_of_lt_of_le ho (Nat.le_add_right _ _)
  have hnew : ∀ k, (⟨g.nodes.capacity + k, 0⟩ : OutputId) ≠ o := by
    rintro k rfl
    exact absurd hold (Nat.not_lt.2 (Nat.le_add_right _ k))
  by_cases hlt : node < g.nodes.capacity
  · -- An old input: it was fed by the same output before.
    rw [hsp.moved ⟨node, index⟩ hlt] at hi
    obtain ⟨o', ho', hred⟩ := Option.map_eq_some_iff.1 hi
    unfold redirect at hred
    split at hred
    · exact absurd hred (hnew 2)
    · subst hred
      exact h o' ho (fun r hr => hnot r (List.mem_append_left _ hr)) ⟨_, ho'⟩
  · -- A new one: only the quantiser is fed from outside, by what feeds the convolution.
    obtain ⟨hzero, -⟩ := hsp.wellFormed.index_of_producer? hi
    cases hzero
    have hbound := lt_capacity_of_producer? hi
    rw [hsp.capacity] at hbound
    obtain ⟨k, rfl⟩ := Nat.exists_eq_add_of_le (Nat.not_lt.1 hlt)
    match k, Nat.lt_of_add_lt_add_left hbound with
    | 0, _ =>
      have hsource := hrw.standIn_eq_old ho (Option.some.inj (hsp.quantizer.symm.trans hi))
      exact ⟨⟨s.node, 0⟩, hsource ▸ hs.fed⟩
    | 1, _ => exact absurd (Option.some.inj (hsp.kernel.symm.trans hi)) (hnew 0)
    | 2, _ => exact absurd (Option.some.inj (hsp.dequantizer.symm.trans hi)) (hnew 1)

/-! ## A run of replacements -/

/-- The state after replacements, with what is known about consumers. -/
structure Underway (config : CodeLimits) (g₀ : Graph) (c₀ : Calibration)
    (rs : List Replacement) (w : EngineState Calibration) : Prop
    extends Reached config g₀ c₀ rs w where
  spared : Spared g₀ rs w.graph

theorem Underway.start (hg : w.graph.WellFormed) : Underway config w.graph w.state [] w :=
  ⟨.start hg, fun _ _ _ h => h⟩

section Underway

variable (hg₀ : g₀.WellFormed) (h : Underway config g₀ c₀ rs w)
include hg₀ h

/-- **A replacement succeeds as it would have in the initial graph**, with the initial
table. -/
theorem Underway.apply_ok_iff (hs : IsSite g₀ s) (hnew : ∀ r ∈ rs, r.site.node ≠ s.node) :
    (∃ w', (apply config s.toMatch).run w = .ok () w') ↔ Replaceable config g₀ c₀ s := by
  have hsite := h.graph.isSite hg₀ hs
  have hkept : standIn rs s.output = s.output := by
    rcases standIn_cases rs s.output with ⟨r, hr, hout, -⟩ | ⟨-, hstand⟩
    · exact absurd (congrArg OutputId.node hout) (hnew r hr)
    · exact hstand
  have hconsumed : (∃ i, w.graph.producer? i = some s.output) ↔
      ∃ i, g₀.producer? i = some s.output := by
    constructor
    · refine h.spared s.output hs.lt_capacity fun r hr hout => ?_
      exact hnew r hr (congrArg OutputId.node hout)
    · rintro ⟨i, hi⟩
      refine ⟨i, ?_⟩
      rw [h.graph.moved i (lt_capacity_of_producer? hi), hi, Option.map_some, hkept]
  refine (IsSite.apply_ok_iff h.graph.wellFormed hsite).trans ⟨fun hr => ⟨?_, ?_⟩, fun hr => ⟨?_, ?_⟩⟩
  · obtain ⟨p, hp⟩ := hr.derivable
    exact ⟨p, (h.table.derive_eq_ok_iff hg₀ hs).1 hp⟩
  · exact fun hi => hr.numbers (hconsumed.2 hi)
  · obtain ⟨p, hp⟩ := hr.derivable
    exact ⟨p, (h.table.derive_eq_ok_iff hg₀ hs).2 hp⟩
  · exact fun hi => hr.numbers (hconsumed.1 hi)

theorem Underway.step (hs : IsSite g₀ s) (hrun : (apply config s.toMatch).run w = .ok () w') :
    ∃ r, r.site = s ∧ Underway config g₀ c₀ (rs ++ [r]) w' := by
  have hsite := h.graph.isSite hg₀ hs
  obtain ⟨p, hp, hspliced, hstate⟩ := hsite.apply_eq_ok h.graph.wellFormed hrun
  refine ⟨⟨s, w.graph.nodes.capacity, p⟩, rfl, ⟨h.graph.step hs hspliced, ?_⟩,
    h.spared.step h.graph hs hspliced⟩
  rw [hstate]
  exact h.table.step h.graph ((h.table.derive_eq_ok_iff hg₀ hs).1 hp)

/-- **All of them are replaced exactly if each is replaceable.** -/
theorem Underway.replaceAll_ok_iff {ids : List NodeId} (hids : ∀ id ∈ ids, isLowerable g₀ id)
    (hnodup : ids.Nodup) (hnew : ∀ r ∈ rs, r.site.node ∉ ids) :
    (∃ w', (replaceAll config ids).run w = .ok () w') ↔
      ∀ s, IsSite g₀ s → s.node ∈ ids → Replaceable config g₀ c₀ s := by
  induction ids generalizing rs w with
  | nil => exact ⟨fun _ s _ hs => absurd hs List.not_mem_nil, fun _ => ⟨w, rfl⟩⟩
  | cons id ids ih =>
    obtain ⟨hid, hdistinct⟩ := List.nodup_cons.1 hnodup
    obtain ⟨m, hm⟩ := Option.isSome_iff_exists.1 (hids id (List.mem_cons_self ..))
    obtain ⟨s, hs, rfl⟩ := site_of_recognize hg₀ hm
    have hrest : ∀ x ∈ ids, isLowerable g₀ x := fun x hx => hids x (List.mem_cons_of_mem _ hx)
    have hfirst : ∀ t : Site, t.node = s.node → ∀ r ∈ rs, r.site.node ≠ t.node := by
      intro t ht r hr heq
      exact hnew r hr (heq.trans ht ▸ List.mem_cons_self ..)
    -- The rest of the list is replaced in the graph that the first replacement leaves.
    have hlater : ∀ w₁, (apply config s.toMatch).run w = .ok () w₁ →
        ((∃ w', (replaceAll config ids).run w₁ = .ok () w') ↔
          ∀ s, IsSite g₀ s → s.node ∈ ids → Replaceable config g₀ c₀ s) := by
      intro w₁ happly
      obtain ⟨r, rfl, h₁⟩ := h.step hg₀ hs happly
      refine ih h₁ hrest hdistinct (List.forall_mem_append.2 ⟨fun r' hr' hmem => ?_, ?_⟩)
      · exact hnew r' hr' (List.mem_cons_of_mem _ hmem)
      · exact List.forall_mem_singleton.2 hid
    constructor
    · rintro ⟨w', hrun⟩ t ht hmem
      obtain ⟨u, w₁, happly, hrun'⟩ := run_bind_eq_ok.1 hrun
      rcases List.mem_cons.1 hmem with heq | hmem
      · refine (h.apply_ok_iff hg₀ ht (hfirst t heq)).1 ⟨w₁, ?_⟩
        rw [Site.toMatch, heq]
        exact happly
      · exact (hlater w₁ happly).1 ⟨w', hrun'⟩ t ht hmem
    · intro hall
      obtain ⟨w₁, happly⟩ := (h.apply_ok_iff hg₀ hs (hfirst s rfl)).2
        (hall s hs (List.mem_cons_self ..))
      obtain ⟨w', hrun⟩ := (hlater w₁ happly).2 fun t ht hmem =>
        hall t ht (List.mem_cons_of_mem _ hmem)
      exact ⟨w', run_bind_eq_ok.2 ⟨(), w₁, happly, hrun⟩⟩

/-- Where a run of replacements ends. -/
theorem Underway.replaceAll_eq_ok {ids : List NodeId} (hids : ∀ id ∈ ids, isLowerable g₀ id)
    (hrun : (replaceAll config ids).run w = .ok () w') :
    ∃ rs', rs'.map (·.site.node) = ids ∧ Underway config g₀ c₀ (rs ++ rs') w' := by
  induction ids generalizing rs w with
  | nil =>
    cases hrun
    refine ⟨[], rfl, ?_⟩
    rw [List.append_nil]
    exact h
  | cons id ids ih =>
    obtain ⟨m, hm⟩ := Option.isSome_iff_exists.1 (hids id (List.mem_cons_self ..))
    obtain ⟨s, hs, rfl⟩ := site_of_recognize hg₀ hm
    obtain ⟨u, w₁, happly, hrest⟩ := run_bind_eq_ok.1 hrun
    obtain ⟨r, rfl, h₁⟩ := h.step hg₀ hs happly
    obtain ⟨rs', hmap, h'⟩ := ih h₁ (fun x hx => hids x (List.mem_cons_of_mem _ hx)) hrest
    refine ⟨r :: rs', by rw [List.map_cons, hmap], ?_⟩
    rw [List.append_cons]
    exact h'

end Underway

/-! ## The rewritten graph evaluates only if the initial graph did -/

/-- If the nodes of a replacement run, then the convolution did. -/
theorem Placed.accepts {r : Replacement} (h : Placed g₁ r)
    (hp : Parameters.derive config r.site.conv c₀ r.site.source r.site.output = .ok r.parameters)
    (hrun : ∀ k, k < 3 → ∀ d, g₁.declaration? (r.base + k) = some d → d.Runnable feed) :
    (Op.conv2d r.site.conv).Accepts r.site.operand := by
  obtain ⟨sourceName, v, -, hdecl⟩ := h.declared
  have hscalar := (hrun 0 (by decide) _ (hdecl 0 (by decide))).accepted _ (List.mem_singleton.2 rfl)
  obtain ⟨-, ⟨channels, hchannels, hfits⟩, -⟩ :=
    (hrun 1 (by decide) _ (hdecl 1 (by decide))).accepted _ (List.mem_singleton.2 rfl)
  exact ⟨hscalar, channels, hchannels, (Parameters.fixedConv_fits_iff hp).1 hfits⟩

theorem Placed.needed {r : Replacement} (h : Placed g₁ r) (hneeded : g₁.Needed r.output.node) :
    ∀ k, k < 3 → g₁.Needed (r.base + k) := by
  have hkernel : g₁.Needed (r.base + 1) := .feeds hneeded ⟨0, _, h.dequantizer, rfl⟩
  have hquantizer : g₁.Needed r.base := .feeds hkernel ⟨0, _, h.kernel, rfl⟩
  intro k hk
  match k, hk with
  | 0, _ => exact hquantizer
  | 1, _ => exact hkernel
  | 2, _ => exact hneeded

section Evaluable

variable (hg₀ : g₀.WellFormed) (h : Rewritten g₀ rs g₁)
  (hacc : ∀ id, g₀.Needed id → Acc g₀.Feeds id)
include hg₀ h hacc

/-- What stands for a needed node is needed. -/
theorem Rewritten.needed_standIn {x : NodeId} (hx : g₀.Needed x) :
    g₁.Needed (standIn rs ⟨x, 0⟩).node := by
  induction hx with
  | @output x hout hc =>
    rcases standIn_cases rs ⟨x, 0⟩ with ⟨r, hr, heq, -⟩ | ⟨-, hstand⟩
    · exact absurd (congrArg OutputId.node heq) (h.ne_of_mem_outputs hg₀ hout hr)
    · obtain ⟨d, hd⟩ := Graph.contains_iff.1 hc
      rw [hstand]
      refine .output (h.outputs ▸ hout) (Graph.contains_iff.2 ⟨d, ?_⟩)
      rw [h.old x (lt_capacity_of_declaration? hd), hd]
  | @feeds x b hb hf ih =>
    have hfed := hg₀.feeds_iff.1 hf
    rcases standIn_cases rs ⟨b, 0⟩ with ⟨r, hr, heq, hstand⟩ | ⟨-, hstand⟩
    · -- The consumer was replaced: its quantiser is fed by the stand-in.
      rw [hstand] at ih
      obtain rfl : r.site.node = b := congrArg OutputId.node heq
      have hquantizer := h.producer?_quantizer hacc hr hb
      rw [Option.some.inj ((h.sites r hr).fed.symm.trans hfed)] at hquantizer
      exact .feeds ((h.placed r hr).needed ih 0 (by decide)) ⟨0, _, hquantizer, rfl⟩
    · rw [hstand] at ih
      refine .feeds ih ⟨0, standIn rs ⟨x, 0⟩, ?_, rfl⟩
      rw [h.moved ⟨b, 0⟩ (hg₀.lt_capacity_of_needed hb), hfed]
      rfl

/-- **The rewritten graph evaluates exactly where the initial graph does.** -/
theorem Rewritten.evaluable_iff (hrec : Recorded config g₀ c₀ rs c₁) :
    g₁.Evaluable feed ↔ g₀.Evaluable feed := by
  refine ⟨fun he => ⟨hacc, fun x d hx hd => ?runnable, fun x d hx hd hop => ?connected⟩,
    h.evaluable hg₀ hrec⟩
  case runnable =>
    have hneeded := h.needed_standIn hg₀ hacc hx
    rcases standIn_cases rs ⟨x, 0⟩ with ⟨r, hr, heq, hstand⟩ | ⟨-, hstand⟩
    · rw [hstand] at hneeded
      obtain rfl : r.site.node = x := congrArg OutputId.node heq
      obtain ⟨u, hu⟩ := (h.sites r hr).declared
      cases hu.symm.trans hd
      refine ⟨nofun, fun t ht => ?_⟩
      cases List.mem_singleton.1 ht
      exact (h.placed r hr).accepts (hrec.derived r hr) fun k hk d =>
        he.runnable _ d ((h.placed r hr).needed hneeded k hk)
    · rw [hstand] at hneeded
      exact he.runnable x d hneeded ((h.old x (lt_capacity_of_declaration? hd)).trans hd)
  case connected =>
    have hneeded := h.needed_standIn hg₀ hacc hx
    rcases standIn_cases rs ⟨x, 0⟩ with ⟨r, hr, heq, -⟩ | ⟨-, hstand⟩
    · obtain rfl : r.site.node = x := congrArg OutputId.node heq
      exact ⟨_, (h.sites r hr).fed⟩
    · rw [hstand] at hneeded
      have hlt := lt_capacity_of_declaration? hd
      obtain ⟨o, ho⟩ := he.connected x d hneeded ((h.old x hlt).trans hd) hop
      obtain ⟨y, hy, -⟩ := h.producer?_old hg₀ hlt ho
      exact ⟨_, hy⟩

/-- A graph output of the rewritten graph delivers what fed it in the initial graph carries
in fixed point. -/
theorem Rewritten.output?_of_delivers (hrec : Recorded config g₀ c₀ rs c₁)
    (hlow : ∀ x, g₀.Needed x → (isLowerable g₀ x ↔ ∃ r ∈ rs, r.site.node = x))
    {e : Evaluation} (he : g₁.trace feed = .ok e) {name : String} {id : NodeId}
    (hid : g₀.delivers name id) (honly : ∀ x, g₀.delivers name x → x = id) :
    ∃ o v, g₀.producer? ⟨id, 0⟩ = some o ∧ g₀.Carries feed (.fixedPoint config g₀ c₀) o v ∧
      e.output? name = some v.toNumbers := by
  have hneeded := (hg₀.needed_of_delivers hid).2
  rw [← h.delivers_eq hg₀] at hid
  obtain ⟨o, v, ho, hv, hout⟩ := h.wellFormed.output?_of_delivers he hid fun x hx =>
    honly x (h.delivers_eq hg₀ name x ▸ hx)
  obtain ⟨y, hy, rfl⟩ := h.producer?_old hg₀ (hg₀.lt_capacity_of_needed hneeded) ho
  exact ⟨_, v, hy, h.carries_standIn hg₀ hrec hlow hacc (.feeds hneeded (hg₀.feeds_iff.2 hy)) hv.1,
    hout⟩

end Evaluable

/-! ## Two orders -/

/-- Both runs fail, or both deliver the same tensors under the same names. -/
def SameOutputs : Except EvalError (List (String × Tensor Single)) →
    Except EvalError (List (String × Tensor Single)) → Prop
  | .ok outs, .ok outs' => ∀ name, outs.lookup name = outs'.lookup name
  | .error _, .error _ => True
  | _, _ => False

/-- Two graphs that came about by replacing the recognised nodes of one graph deliver the
same. -/
theorem Rewritten.sameOutputs {g₂ : Graph} {rs' : List Replacement} {c₂ : Calibration}
    (hg₀ : g₀.WellFormed) (hacc : ∀ id, g₀.Needed id → Acc g₀.Feeds id)
    (honly : ∀ name a b, g₀.delivers name a → g₀.delivers name b → a = b)
    (h : Rewritten g₀ rs g₁) (hrec : Recorded config g₀ c₀ rs c₁)
    (hlow : ∀ x, g₀.Needed x → (isLowerable g₀ x ↔ ∃ r ∈ rs, r.site.node = x))
    (h' : Rewritten g₀ rs' g₂) (hrec' : Recorded config g₀ c₀ rs' c₂)
    (hlow' : ∀ x, g₀.Needed x → (isLowerable g₀ x ↔ ∃ r ∈ rs', r.site.node = x)) (feed : Feed) :
    SameOutputs (g₁.run feed) (g₂.run feed) := by
  have hboth : (∃ e, g₁.trace feed = .ok e) ↔ ∃ e, g₂.trace feed = .ok e := by
    rw [h.wellFormed.trace_ok_iff_evaluable, h'.wellFormed.trace_ok_iff_evaluable,
      h.evaluable_iff hg₀ hacc hrec, h'.evaluable_iff hg₀ hacc hrec']
  unfold Graph.run
  cases he : g₁.trace feed with
  | error err =>
    cases he' : g₂.trace feed with
    | error err' => trivial
    | ok e' =>
      obtain ⟨e, hok⟩ := hboth.2 ⟨e', he'⟩
      cases he.symm.trans hok
  | ok e =>
    obtain ⟨e', he'⟩ := hboth.1 ⟨e, he⟩
    rw [he']
    intro name
    show e.output? name = e'.output? name
    by_cases hname : ∃ id, g₀.delivers name id
    · obtain ⟨id, hid⟩ := hname
      have hunique : ∀ x, g₀.delivers name x → x = id := fun x hx => honly name x id hx hid
      obtain ⟨o, v, ho, hv, hout⟩ := h.output?_of_delivers hg₀ hacc hrec hlow he hid hunique
      obtain ⟨o', v', ho', hv', hout'⟩ :=
        h'.output?_of_delivers hg₀ hacc hrec' hlow' he' hid hunique
      cases ho.symm.trans ho'
      rw [hout, hout', hv.unique fixedPoint_unique hv']
    · have hnone : ∀ id, ¬ g₀.delivers name id := fun id hid => hname ⟨id, hid⟩
      rw [h.wellFormed.output?_of_not_delivers he fun id => h.delivers_eq hg₀ name id ▸ hnone id,
        h'.wellFormed.output?_of_not_delivers he' fun id =>
          h'.delivers_eq hg₀ name id ▸ hnone id]

/-- What the replacement of all recognised nodes, in any order, comes to. -/
theorem replaceAll_spec {ids : List NodeId} (hg : w.graph.WellFormed)
    (hids : ids.Perm (w.graph.ids.filter (isLowerable w.graph))) :
    ((∃ w', (replaceAll config ids).run w = .ok () w') ↔
      ∀ s, IsSite w.graph s → Replaceable config w.graph w.state s) ∧
    ∀ w', (replaceAll config ids).run w = .ok () w' →
      ∃ rs, Reached config w.graph w.state rs w' ∧
        ∀ x, w.graph.Needed x → (isLowerable w.graph x ↔ ∃ r ∈ rs, r.site.node = x) := by
  have hstart : Underway config w.graph w.state [] w := .start hg
  have hmem : ∀ x, x ∈ ids ↔ isLowerable w.graph x := by
    intro x
    rw [hids.mem_iff, List.mem_filter, and_iff_right_iff_imp]
    intro hlow
    obtain ⟨m, hm⟩ := Option.isSome_iff_exists.1 hlow
    obtain ⟨s, hs, rfl⟩ := site_of_recognize hg hm
    obtain ⟨n, hn, -⟩ := hs.get?
    exact Arena.mem_handles.2 ((Arena.contains_iff _ _).2 ⟨n, hn⟩)
  have hlow : ∀ x ∈ ids, isLowerable w.graph x := fun x hx => (hmem x).1 hx
  have hnodup : ids.Nodup := hids.nodup_iff.2 ((ids_nodup w.graph).filter _)
  constructor
  · rw [hstart.replaceAll_ok_iff hg hlow hnodup fun r hr => absurd hr List.not_mem_nil]
    refine forall₂_congr fun s hs => forall_prop_of_true ((hmem s.node).2 ?_)
    rw [isLowerable, hs.recognize_eq]
    rfl
  · intro w' hrun
    obtain ⟨rs, hmap, h⟩ := hstart.replaceAll_eq_ok hg hlow hrun
    refine ⟨rs, h.toReached, fun x _ => ?_⟩
    rw [← hmem, ← hmap, List.mem_map]

/-- The result runs on everything that the initial graph evaluates on. -/
theorem runs_of_replaceAll {g : Graph} {c : Calibration} {log : List LogLine} {ids : List NodeId}
    {feed : Feed} (hg : g.WellFormed) (hids : ids.Perm (g.ids.filter (isLowerable g)))
    (hrun : (replaceAll config ids).run ⟨g, c, log⟩ = .ok () w) (he : g.Evaluable feed) :
    ∃ outs, w.graph.run feed = .ok outs := by
  obtain ⟨rs, h, -⟩ := (replaceAll_spec (w := ⟨g, c, log⟩) hg hids).2 w hrun
  obtain ⟨e, he⟩ := h.graph.wellFormed.trace_ok_iff_evaluable.2 (h.graph.evaluable hg h.table he)
  exact ⟨e.outputs, Graph.run_eq_ok.2 ⟨e, he, rfl⟩⟩

/-- **The order of replacements does not matter.** Take a graph built by any sequence of
operations that has a topological order and whose graph outputs have different names, any
table and any limits, and the convolutions that are recognised in the graph, listed in two
orders. If all of them are replaced one after another in the first order, then they are in
the second, and whatever the two graphs are fed, either both fail to run, or both run and
deliver the same tensors. -/
theorem replacements_in_any_order (cs : List Command) (c : Calibration) (config : CodeLimits)
    (log : List LogLine) (order ids ids' : List NodeId) (w : EngineState Calibration)
    (horder : (build cs).topologicalOrder = .ok order)
    (hnames : ∀ a b n m, (build cs).node a = .ok n → (build cs).node b = .ok m →
      n.op = .output → m.op = .output → n.name = m.name → a = b)
    (hids : ids.Perm ((build cs).ids.filter (isLowerable (build cs))))
    (hids' : ids'.Perm ((build cs).ids.filter (isLowerable (build cs))))
    (hrun : (replaceAll config ids).run ⟨build cs, c, log⟩ = .ok () w) :
    ∃ w', (replaceAll config ids').run ⟨build cs, c, log⟩ = .ok () w' ∧
      ∀ feed, SameOutputs (w.graph.run feed) (w'.graph.run feed) := by
  have hg := wellFormed_build cs
  have hacc := hg.topologicalOrder_ok_iff.1 ⟨order, horder⟩
  have honly : ∀ name a b, (build cs).delivers name a → (build cs).delivers name b → a = b := by
    intro name a b ha hb
    obtain ⟨n, hn, hop, hname⟩ := delivers_iff_node.1 ha
    obtain ⟨m, hm, hop', hname'⟩ := delivers_iff_node.1 hb
    exact hnames a b n m hn hm hop hop' (hname.trans hname'.symm)
  obtain ⟨hiff, hspec⟩ := replaceAll_spec (w := ⟨build cs, c, log⟩) hg hids
  obtain ⟨hiff', hspec'⟩ := replaceAll_spec (w := ⟨build cs, c, log⟩) hg hids'
  obtain ⟨w', hrun'⟩ := hiff'.2 (hiff.1 ⟨w, hrun⟩)
  obtain ⟨rs, h, hlow⟩ := hspec w hrun
  obtain ⟨rs', h', hlow'⟩ := hspec' w' hrun'
  exact ⟨w', hrun',
    h.graph.sameOutputs hg hacc honly h.table hlow h'.graph h'.table hlow'⟩

/-- The chain of two convolutions, replaced from the end and from the start. Fed a number,
both results run. -/
theorem replacements_in_any_order_reversedChain : ∃ w w' outs,
    (replaceAll {} [1, 2]).run ⟨build reversedChain, chainRanges, []⟩ = .ok () w ∧
      (replaceAll {} [2, 1]).run ⟨build reversedChain, chainRanges, []⟩ = .ok () w' ∧
      w.graph.run (fun _ => some ⟨[1, 1, 1, 1], #[.ofInt 1], rfl⟩) = .ok outs ∧
      ∀ feed, SameOutputs (w.graph.run feed) (w'.graph.run feed) := by
  have hg := wellFormed_build reversedChain
  have hruns := evaluable_reversedChain (fun _ => some ⟨[1, 1, 1, 1], #[.ofInt 1], rfl⟩) rfl rfl
  obtain ⟨order, horder⟩ := hg.topologicalOrder_ok_iff.2 hruns.acyclic
  have hsites : (build reversedChain).ids.filter (isLowerable (build reversedChain)) = [1, 2] := by
    decide +kernel
  have honly : (build reversedChain).ofKind .output = [3] := by decide +kernel
  have hnames : ∀ a n, (build reversedChain).node a = .ok n → n.op = .output → a = 3 := by
    intro a n hn hop
    have hmem : a ∈ (build reversedChain).ofKind .output :=
      mem_ofKind.2 ⟨n, node_eq_ok.1 hn, congrArg Op.kind hop⟩
    rw [honly] at hmem
    exact List.mem_singleton.1 hmem
  have hok : succeedsWith (fun _ _ => true)
      ((replaceAll {} [1, 2]).run ⟨build reversedChain, chainRanges, []⟩) := by
    decide +kernel
  obtain ⟨u, w, hrun, -⟩ := exists_of_succeedsWith hok
  have hperm : [1, 2].Perm ((build reversedChain).ids.filter (isLowerable (build reversedChain))) :=
    hsites ▸ .refl _
  obtain ⟨w', hrun', hsame⟩ := replacements_in_any_order reversedChain chainRanges {} [] order
    [1, 2] [2, 1] w horder
    (fun a b n m hn hm hop hop' _ => (hnames a n hn hop).trans (hnames b m hm hop').symm)
    hperm (hsites ▸ .swap 1 2 []) hrun
  obtain ⟨outs, houts⟩ := runs_of_replaceAll hg hperm hrun hruns
  exact ⟨w, w', outs, hrun, hrun', houts, hsame⟩

end FixedNet.FixedPoint
