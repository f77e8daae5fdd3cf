/-
**Which nodes matter.** A node is *needed* if a designated output is reached from it along
edges. On a well-formed graph `reachable` never fails and lists exactly the needed nodes.
-/
import FixedNet.Proofs.WellFormed
import Mathlib.Data.List.Sort

set_option autoImplicit false

namespace FixedNet.Graph

variable {g : Graph}

/-! ## Feeding -/

/-- Node `a` feeds an input of node `b`. -/
def Feeds (g : Graph) (a b : NodeId) : Prop :=
  ∃ k o, g.producer? ⟨b, k⟩ = some o ∧ o.node = a

/-- The nodes that feed a node. -/
def feeders (g : Graph) (id : NodeId) : List NodeId :=
  match g.nodes.get? id with
  | some n => n.producers.map (·.node)
  | none => []

theorem mem_producers {id : NodeId} {n : Node} (hn : g.nodes.get? id = some n) {o : OutputId} :
    o ∈ n.producers ↔ ∃ k, g.producer? ⟨id, k⟩ = some o := by
  unfold Node.producers
  rw [List.mem_filterMap]
  constructor
  · rintro ⟨p, hp, ho⟩
    obtain ⟨k, hk⟩ := List.mem_iff_getElem?.1 hp
    exact ⟨k, producer?_eq_some.2 ⟨p, by simp [inlet?, hn, hk], ho⟩⟩
  · rintro ⟨k, hk⟩
    obtain ⟨p, hp, ho⟩ := producer?_eq_some.1 hk
    obtain ⟨m, hm, hpk⟩ := get?_of_inlet? hp
    rw [hn] at hm
    cases hm
    exact ⟨p, List.mem_of_getElem? hpk, ho⟩

theorem mem_feeders {a b : NodeId} : a ∈ g.feeders b ↔ g.Feeds a b := by
  unfold feeders
  cases hn : g.nodes.get? b with
  | none =>
    simp only [List.not_mem_nil, false_iff]
    rintro ⟨k, o, hk, -⟩
    obtain ⟨p, hp, -⟩ := producer?_eq_some.1 hk
    obtain ⟨m, hm, -⟩ := get?_of_inlet? hp
    rw [hn] at hm
    cases hm
  | some n =>
    rw [List.mem_map]
    constructor
    · rintro ⟨o, ho, rfl⟩
      obtain ⟨k, hk⟩ := (mem_producers hn).1 ho
      exact ⟨k, o, hk, rfl⟩
    · rintro ⟨k, o, hk, rfl⟩
      exact ⟨o, (mem_producers hn).2 ⟨k, hk⟩, rfl⟩

/-- What feeds a node exists. -/
theorem WellFormed.contains_of_feeds (hg : WellFormed g) {a b : NodeId} (h : g.Feeds a b) :
    g.contains a := by
  obtain ⟨k, o, hk, rfl⟩ := h
  obtain ⟨q, hq, -⟩ := hg.outlet?_of_producer? hk
  exact contains_of_outlet? hq

theorem WellFormed.feeds_iff (hg : WellFormed g) {a b : NodeId} :
    g.Feeds a b ↔ g.producer? ⟨b, 0⟩ = some ⟨a, 0⟩ := by
  constructor
  · rintro ⟨k, o, ho, rfl⟩
    obtain ⟨hk, hzero⟩ := hg.index_of_producer? ho
    obtain ⟨node, index⟩ := o
    cases hk
    cases hzero
    exact ho
  · intro h
    exact ⟨0, _, h, rfl⟩

/-- A graph whose edges all lead upwards in some ranking has no cycles. -/
theorem acc_of_rank (rank : NodeId → Nat)
    (h : ∀ b ∈ g.ids, ∀ a ∈ g.feeders b, rank a < rank b) (id : NodeId) : Acc g.Feeds id := by
  have hsub : Subrelation g.Feeds (InvImage (· < ·) rank) := by
    intro a b hab
    have hb : g.contains b := by
      obtain ⟨k, o, ho, -⟩ := hab
      exact contains_of_producer? ho
    exact h b (Arena.mem_handles.2 hb) a (mem_feeders.2 hab)
  exact (hsub.wf (InvImage.wf rank Nat.lt_wfRel.wf)).apply id

/-- A node that feeds itself lies on a cycle. -/
theorem not_feeds_self {a : NodeId} (h : Acc g.Feeds a) : ¬ g.Feeds a a := by
  induction h with
  | intro a _ ih => exact fun hself => ih a hself hself

/-- A node from which a designated output is reached. -/
inductive Needed (g : Graph) : NodeId → Prop
  | output {id : NodeId} : id ∈ g.outputs → g.contains id → Needed g id
  | feeds {a b : NodeId} : Needed g b → g.Feeds a b → Needed g a

theorem Needed.mono {g' : Graph} {id : NodeId} (hid : g.Needed id)
    (hout : ∀ x ∈ g.outputs, x ∈ g'.outputs) (hc : ∀ x, g.contains x → g'.contains x)
    (hf : ∀ a b, g.Feeds a b → g'.Feeds a b) : g'.Needed id := by
  induction hid with
  | output hmem hx => exact .output (hout _ hmem) (hc _ hx)
  | feeds _ hab ih => exact .feeds ih (hf _ _ hab)

theorem WellFormed.contains_of_needed (hg : WellFormed g) {id : NodeId} (h : g.Needed id) :
    g.contains id := by
  cases h with
  | output _ hc => exact hc
  | feeds _ hf => exact hg.contains_of_feeds hf

theorem WellFormed.needed_of_output (hg : WellFormed g) {id : NodeId} (hid : id ∈ g.outputs) :
    g.Needed id := by
  obtain ⟨n, hn, -⟩ := mem_ofKind.1 (hg.outputs_eq ▸ hid)
  exact .output hid ((Arena.contains_iff _ _).2 ⟨n, hn⟩)

theorem WellFormed.lt_capacity_of_needed (hg : WellFormed g) {id : NodeId} (h : g.Needed id) :
    id < g.nodes.capacity := by
  obtain ⟨d, hd⟩ := contains_iff.1 (hg.contains_of_needed h)
  exact lt_capacity_of_declaration? hd

/-! ## Reachability -/

/-- The walk gathers what it has seen, its worklist and everything that feeds what it
adds, and it adds nothing else. -/
theorem gather_eq_ok {seen work l : List NodeId} (h : g.gather seen work = .ok l) :
    (∀ id, id ∈ seen ∨ id ∈ work → id ∈ l) ∧
    (∀ a b, b ∈ l → b ∉ seen → g.Feeds a b → a ∈ l) ∧
    ∀ P : NodeId → Prop, (∀ id ∈ work, P id) → (∀ a b, P b → g.Feeds a b → P a) →
      ∀ id ∈ l, id ∈ seen ∨ P id := by
  -- Along the walk's own recursion. What has been seen at its start need not be closed under
  -- feeding, so the second part speaks of what the walk adds.
  fun_induction gather g seen work with
  | case1 seen =>
    cases h
    refine ⟨fun id hid => by simpa using hid, fun a b hb hnot _ => absurd hb hnot, ?_⟩
    exact fun P _ _ id hid => .inl hid
  | case2 seen id rest hid ih =>
    obtain ⟨hsub, hclosed, honly⟩ := ih h
    refine ⟨fun x hx => ?_, hclosed, fun P hP hstep => honly P (fun x hx => hP x ?_) hstep⟩
    · rcases hx with hx | hx
      · exact hsub x (.inl hx)
      · rcases List.mem_cons.1 hx with rfl | hx
        · exact hsub x (.inl hid)
        · exact hsub x (.inr hx)
    · exact List.mem_cons_of_mem _ hx
  | case3 seen id rest hid e hn => cases h
  | case4 seen id rest hid n hn ih =>
    obtain ⟨hsub, hclosed, honly⟩ := ih h
    have hfeeds : ∀ a, a ∈ n.producers.map (·.node) ↔ g.Feeds a id := by
      intro a
      rw [← mem_feeders, feeders, nodeAt_eq_ok.1 hn]
    -- The node moves to `seen` and what feeds it to the front of the worklist.
    refine ⟨fun x hx => ?_, fun a b hb hnot hab => ?_, fun P hP hstep x hx => ?_⟩
    · rcases hx with hx | hx
      · exact hsub x (.inl (List.mem_cons_of_mem _ hx))
      · rcases List.mem_cons.1 hx with rfl | hx
        · exact hsub x (.inl (List.mem_cons_self ..))
        · exact hsub x (.inr (List.mem_append_right _ hx))
    · by_cases hbid : b = id
      · subst hbid
        exact hsub a (.inr (List.mem_append_left _ ((hfeeds a).2 hab)))
      · exact hclosed a b hb (by simp [hbid, hnot]) hab
    · have hid' : P id := hP id (List.mem_cons_self ..)
      have hwork : ∀ y ∈ n.producers.map (·.node) ++ rest, P y := by
        intro y hy
        rcases List.mem_append.1 hy with hy | hy
        · exact hstep y id hid' ((hfeeds y).1 hy)
        · exact hP y (List.mem_cons_of_mem _ hy)
      rcases honly P hwork hstep x hx with hx | hx
      · rcases List.mem_cons.1 hx with rfl | hx
        · exact .inr hid'
        · exact .inl hx
      · exact .inr hx

/-- The walk never meets a node that is gone. -/
theorem WellFormed.gather_ok (hg : WellFormed g) (seen work : List NodeId)
    (hwork : ∀ id ∈ work, g.contains id) : ∃ l, g.gather seen work = .ok l := by
  fun_induction gather g seen work with
  | case1 seen => exact ⟨seen, rfl⟩
  | case2 seen id rest hid ih => exact ih fun x hx => hwork x (List.mem_cons_of_mem _ hx)
  | case3 seen id rest hid e hn =>
    obtain ⟨n, hget⟩ := (Arena.contains_iff _ _).1 (hwork id (List.mem_cons_self ..))
    rw [nodeAt_eq_ok.2 hget] at hn
    cases hn
  | case4 seen id rest hid n hn ih =>
    refine ih fun x hx => ?_
    rcases List.mem_append.1 hx with hx | hx
    · refine hg.contains_of_feeds (b := id) (mem_feeders.1 ?_)
      rw [feeders, nodeAt_eq_ok.1 hn]
      exact hx
    · exact hwork x (List.mem_cons_of_mem _ hx)

theorem ids_nodup (g : Graph) : g.ids.Nodup := by
  unfold ids Arena.handles
  exact (List.nodup_range).filter _

theorem ids_sorted (g : Graph) : g.ids.Pairwise (· < ·) := by
  unfold ids Arena.handles
  exact List.pairwise_lt_range.filter _

/-- `reachable` succeeds with the needed nodes, each once and in creation order. -/
theorem WellFormed.reachable_ok (hg : WellFormed g) :
    ∃ l, g.reachable = .ok l ∧ l.Sublist g.ids ∧ ∀ id, id ∈ l ↔ g.Needed id := by
  obtain ⟨seen, hseen⟩ := hg.gather_ok [] (g.outputs.filter g.contains)
    fun id hid => (List.mem_filter.1 hid).2
  obtain ⟨hsub, hclosed, honly⟩ := gather_eq_ok hseen
  have hrun : g.reachable = .ok (g.ids.filter (· ∈ seen)) := by
    unfold reachable
    rw [hseen]
    rfl
  refine ⟨_, hrun, List.filter_sublist, fun id => ?_⟩
  rw [List.mem_filter, decide_eq_true_eq]
  constructor
  · rintro ⟨-, hid⟩
    refine (honly g.Needed ?_ (fun a b hb hab => .feeds hb hab) id hid).resolve_left (by simp)
    intro x hx
    rw [List.mem_filter] at hx
    exact .output hx.1 hx.2
  · intro h
    refine ⟨Arena.mem_handles.2 (hg.contains_of_needed h), ?_⟩
    induction h with
    | output hout hc => exact hsub _ (.inr (List.mem_filter.2 ⟨hout, hc⟩))
    | feeds _ hab ih => exact hclosed _ _ ih (by simp) hab

theorem WellFormed.reachable_eq_ok (hg : WellFormed g) {live : List NodeId}
    (hlive : g.reachable = .ok live) : live.Sublist g.ids ∧ ∀ id, id ∈ live ↔ g.Needed id := by
  obtain ⟨l, hl, hlisted⟩ := hg.reachable_ok
  cases hlive.symm.trans hl
  exact hlisted

/-- Graphs in which the same nodes are needed list them alike. -/
theorem WellFormed.reachable_congr {g' : Graph} (hg : WellFormed g) (hg' : WellFormed g')
    (h : ∀ id, g'.Needed id ↔ g.Needed id) : g'.reachable = g.reachable := by
  obtain ⟨l, hl, hsub, hmem⟩ := hg.reachable_ok
  obtain ⟨l', hl', hsub', hmem'⟩ := hg'.reachable_ok
  have hsame : ∀ id, id ∈ l' ↔ id ∈ l := fun id =>
    ((hmem' id).trans (h id)).trans (hmem id).symm
  have heq : l' = l :=
    (g'.ids_sorted.sublist hsub').eq_of_mem_iff (g.ids_sorted.sublist hsub) hsame
  rw [hl, hl', heq]

end FixedNet.Graph
