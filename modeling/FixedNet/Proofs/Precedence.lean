/-
**What is reached, and what comes first.** `reachable` and `topologicalOrder` walk over
worklists and count edges. This file says what they return by the edges alone.

* `reachable_least`: the nodes that are reached are the least set that holds the designated
  outputs and, with a node, what feeds it.
* `order_or_cycle`: they are put in order, producers first, unless there is a cycle among
  them. The error then tells how many of them lie on no cycle and behind none.
* `order_least`: of all orders with producers first it is the one that is
  lexicographically least. The loop takes the earliest node that is ready, and any other
  order has a later one at the first place where it differs.

What lies on a cycle or behind one is what is not accessible along `Feeds`. On infinite
graphs that would be false, so `acc_iff_of_finite` asks for finitely many nodes upstream.
-/
import FixedNet.Proofs.Equations
import Mathlib.Data.Fintype.Card
import Mathlib.Data.Set.Card
import Mathlib.Order.Bounds.Basic

set_option autoImplicit false

namespace FixedNet

open FixedNet.Graph Relation

/-! ## What is reached -/

/-- The nodes hold every designated output and, with each node, the producers of its
connected inputs. -/
structure Graph.Closed (g : Graph) (s : Set NodeId) : Prop where
  outputs : ∀ id ∈ g.outputs, id ∈ s
  producers : ∀ i o, g.producer i = .ok (some o) → i.node ∈ s → o.node ∈ s

theorem Graph.Closed.mem_of_needed {g : Graph} {s : Set NodeId} (hs : g.Closed s) {id : NodeId}
    (hid : g.Needed id) : id ∈ s := by
  induction hid with
  | output hout _ => exact hs.outputs _ hout
  | feeds _ hab ih =>
    obtain ⟨k, o, ho, rfl⟩ := hab
    exact hs.producers _ o (producer_eq_ok_some.2 ho) ih

/-- **What is reached is the least closed set.** On a graph built by any sequence of
operations, with cycles or without, the walk from the outputs ends with a list of nodes
that exist, each of them once. They hold the designated outputs and all that feeds a node
they hold, and every set of nodes that does so holds them. -/
theorem reachable_least (cs : List Command) :
    ∃ live, (build cs).reachable = .ok live ∧ live.Nodup ∧
      (∀ id ∈ live, (build cs).contains id) ∧
      IsLeast {s : Set NodeId | (build cs).Closed s} {id | id ∈ live} := by
  have hg := wellFormed_build cs
  obtain ⟨live, hlive, hsub, hmem⟩ := hg.reachable_ok
  refine ⟨live, hlive, hsub.nodup (ids_nodup _), fun id hid => ?_, ⟨fun id hid => ?_, ?_⟩, ?_⟩
  · exact hg.contains_of_needed ((hmem id).1 hid)
  · exact (hmem id).2 (hg.needed_of_output hid)
  · intro i o ho hi
    exact (hmem _).2 (.feeds ((hmem _).1 hi) ⟨i.index, o, producer_eq_ok_some.1 ho, rfl⟩)
  · intro s hs id hid
    exact hs.mem_of_needed ((hmem id).1 hid)

/-! ## Cycles -/

section Accessible

variable {α : Type} {r : α → α → Prop} {x : α}

theorem not_transGen_self_of_acc (h : Acc r x) : ¬ TransGen r x x := by
  have hirrefl : ∀ y, Acc (TransGen r) y → ¬ TransGen r y y := by
    intro y hy
    induction hy with
    | intro y _ ih => exact fun hself => ih y hself hself
  exact hirrefl x h.transGen

theorem acc_of_reflTransGen {c : α} (h : Acc r x) (hc : ReflTransGen r c x) : Acc r c := by
  induction hc with
  | refl => exact h
  | tail _ hab ih => exact ih (h.inv hab)

/-- With finitely many elements upstream of it, an element is accessible exactly if none of
them lies on a cycle. -/
theorem acc_iff_of_finite (hfin : {a | ReflTransGen r a x}.Finite) :
    Acc r x ↔ ∀ c, ReflTransGen r c x → ¬ TransGen r c c := by
  constructor
  · intro h c hc
    exact not_transGen_self_of_acc (acc_of_reflTransGen h hc)
  · intro h
    -- Upstream of `x` the transitive closure is a strict order on a finite set.
    let upstream : {a // ReflTransGen r a x} → {a // ReflTransGen r a x} → Prop :=
      fun a b => TransGen r a.1 b.1
    have : Finite {a // ReflTransGen r a x} := hfin
    have : IsTrans _ upstream := ⟨fun _ _ _ hab hbc => hab.trans hbc⟩
    have : Std.Irrefl upstream := ⟨fun a => h a.1 a.2⟩
    have hwf : WellFounded upstream := Finite.wellFounded_of_trans_of_irrefl upstream
    have hall : ∀ y : {a // ReflTransGen r a x}, Acc upstream y → Acc r y.1 := by
      intro y hy
      induction hy with
      | intro y _ ih => exact .intro _ fun a ha => ih ⟨a, .head ha y.2⟩ (.single ha)
    exact hall ⟨x, .refl⟩ (hwf.apply _)

end Accessible

namespace Graph

variable {g : Graph}

/-- Node `a` feeds node `b`, and both are among the given nodes. -/
def FeedsWithin (g : Graph) (nodes : List NodeId) (a b : NodeId) : Prop :=
  a ∈ nodes ∧ b ∈ nodes ∧ g.Feeds a b

/-- An output of node `a` lists an input of node `b` among its consumers. -/
def Supplies (g : Graph) (a b : NodeId) : Prop :=
  ∃ k l, g.consumers ⟨a, k⟩ = .ok l ∧ ∃ i ∈ l, i.node = b

/-- The node lies on a cycle or downstream of one: going from consumer to consumer leads
from a node that feeds itself, directly or through others, to this one. -/
def Held (g : Graph) (id : NodeId) : Prop :=
  ∃ c, TransGen g.Feeds c c ∧ ReflTransGen g.Supplies c id

theorem WellFormed.supplies_iff (hg : WellFormed g) {a b : NodeId} :
    g.Supplies a b ↔ g.Feeds a b := by
  constructor
  · rintro ⟨k, l, hl, i, hi, rfl⟩
    obtain ⟨q, hq, rfl⟩ := consumers_eq_ok.1 hl
    exact ⟨i.index, ⟨a, k⟩, hg.producer?_of_mem hq hi, rfl⟩
  · rintro ⟨k, o, ho, rfl⟩
    obtain ⟨q, hq, hmem⟩ := hg.outlet?_of_producer? ho
    exact ⟨o.index, q.consumers, consumers_eq_ok.2 ⟨q, hq, rfl⟩, _, hmem, rfl⟩

/-- Everything upstream of a needed node is needed. -/
theorem Needed.of_reflTransGen {a b : NodeId} (hb : g.Needed b) (h : ReflTransGen g.Feeds a b) :
    g.Needed a := by
  induction h with
  | refl => exact hb
  | tail _ hbc ih => exact ih (.feeds hb hbc)

section Live

variable (hg : WellFormed g) {live : List NodeId} (hmem : ∀ id, id ∈ live ↔ g.Needed id)
include hmem

theorem transGen_feedsWithin {a b : NodeId} (h : TransGen g.Feeds a b) (hb : g.Needed b) :
    TransGen (g.FeedsWithin live) a b := by
  induction h with
  | single hab => exact .single ⟨(hmem _).2 (.feeds hb hab), (hmem _).2 hb, hab⟩
  | tail _ hbc ih =>
    have hprev : g.Needed _ := .feeds hb hbc
    exact .tail (ih hprev) ⟨(hmem _).2 hprev, (hmem _).2 hb, hbc⟩

/-- There are finitely many needed nodes, so one that is not accessible has a cycle
upstream of it. -/
theorem acc_iff_of_needed {id : NodeId} (hid : g.Needed id) :
    Acc g.Feeds id ↔ ∀ c, ReflTransGen g.Feeds c id → ¬ TransGen g.Feeds c c := by
  refine acc_iff_of_finite ((List.finite_toSet live).subset fun a ha => ?_)
  exact (hmem a).2 (hid.of_reflTransGen ha)

theorem acyclic_iff : (∀ id, g.Needed id → Acc g.Feeds id) ↔
    ∀ id, ¬ TransGen (g.FeedsWithin live) id id := by
  constructor
  · intro h id hcycle
    obtain ⟨b, hb, -⟩ := TransGen.head'_iff.1 hcycle
    have hacc := h id ((hmem id).1 hb.1)
    exact not_transGen_self_of_acc hacc (TransGen.mono (fun _ _ hab => hab.2.2) _ _ hcycle)
  · intro h id hid
    refine (acc_iff_of_needed hmem hid).2 fun c hc hcycle => h c ?_
    exact transGen_feedsWithin hmem hcycle (hid.of_reflTransGen hc)

include hg in
theorem acc_iff_not_held {id : NodeId} (hid : g.Needed id) : Acc g.Feeds id ↔ ¬ g.Held id := by
  have hsupplies : g.Supplies = g.Feeds := by
    funext a b
    exact propext hg.supplies_iff
  unfold Held
  rw [acc_iff_of_needed hmem hid, hsupplies]
  constructor
  · rintro h ⟨c, hcycle, hc⟩
    exact h c hc hcycle
  · intro h c hc hcycle
    exact h ⟨c, hcycle, hc⟩

include hg in
/-- As many nodes are put in order as are not held up by a cycle. -/
theorem length_schedule (hlive : g.reachable = .ok live) (hnodup : live.Nodup) :
    (g.schedule [] live).length = {id | id ∈ live ∧ ¬ g.Held id}.ncard := by
  have hset : {id | id ∈ live ∧ ¬ g.Held id} = ((g.schedule [] live).toFinset : Set NodeId) := by
    ext id
    simp only [Set.mem_ofPred_eq, List.coe_toFinset, hg.mem_schedule hlive, hmem]
    exact and_congr_right fun hid => (acc_iff_not_held hg hmem hid).symm
  rw [hset, Set.ncard_coe_finset,
    List.toFinset_card_of_nodup (schedule_spec g [] live hnodup).2.1]

end Live

/-! ## Orders -/

/-- The order has exactly the given nodes, and every producer comes before its
consumers. -/
structure Arranges (g : Graph) (nodes order : List NodeId) : Prop where
  perm : order.Perm nodes
  before : ∀ i o, g.producer i = .ok (some o) → i.node ∈ order →
    order.idxOf o.node < order.idxOf i.node

theorem Ordered.idxOf_lt {done order : List NodeId} (h : g.Ordered done order)
    (hnodup : order.Nodup) {a b : NodeId} (hab : g.Feeds a b) (hb : b ∈ order) :
    a ∈ done ∨ order.idxOf a < order.idxOf b := by
  induction order generalizing done with
  | nil => exact absurd hb List.not_mem_nil
  | cons x rest ih =>
    obtain ⟨hx, hrest⟩ := List.nodup_cons.1 hnodup
    rcases List.mem_cons.1 hb with rfl | hb
    · exact .inl (h.1 a hab)
    · have hbx : b ≠ x := fun hbx => hx (hbx ▸ hb)
      by_cases hax : a = x
      · subst hax
        rw [List.idxOf_cons_self, List.idxOf_cons_ne _ hbx.symm]
        exact .inr (Nat.succ_pos _)
      · rw [List.idxOf_cons_ne _ (Ne.symm hax), List.idxOf_cons_ne _ hbx.symm]
        rcases ih h.2 hrest hb with hdone | hlt
        · exact .inl ((List.mem_cons.1 hdone).resolve_left hax)
        · exact .inr (Nat.succ_lt_succ hlt)

/-- A list in which producers come first, from some place on. -/
theorem ordered_of_idxOf_lt (done : List NodeId) {rest : List NodeId}
    (hnodup : (done.reverse ++ rest).Nodup)
    (h : ∀ a b, g.Feeds a b → b ∈ rest →
      (done.reverse ++ rest).idxOf a < (done.reverse ++ rest).idxOf b) : g.Ordered done rest := by
  induction rest generalizing done with
  | nil => trivial
  | cons x rest ih =>
    refine ⟨fun a ha => ?_, ih (x :: done) ?_ fun a b hab hb => ?_⟩
    · have hlt := h a x ha (List.mem_cons_self ..)
      have hx : x ∉ done.reverse := fun hin =>
        (List.nodup_append.1 hnodup).2.2 x hin x (List.mem_cons_self ..) rfl
      rw [List.idxOf_append_of_notMem hx, List.idxOf_cons_self, Nat.add_zero] at hlt
      by_contra hnot
      rw [List.idxOf_append_of_notMem (fun hin => hnot (List.mem_reverse.1 hin))] at hlt
      omega
    · rwa [List.reverse_cons, List.append_assoc]
    · rw [List.reverse_cons, List.append_assoc]
      exact h a b hab (List.mem_cons_of_mem _ hb)

theorem Arranges.ordered {nodes order : List NodeId} (h : g.Arranges nodes order)
    (hnodup : nodes.Nodup) : g.Ordered [] order := by
  refine ordered_of_idxOf_lt [] (h.perm.nodup_iff.2 hnodup) ?_
  rintro a b ⟨k, o, ho, rfl⟩ hb
  exact h.before ⟨b, k⟩ o (producer_eq_ok_some.2 ho) hb

theorem Ordered.arranges {nodes order : List NodeId} (h : g.Ordered [] order)
    (hnodup : order.Nodup) (hperm : order.Perm nodes) : g.Arranges nodes order := by
  refine ⟨hperm, fun i o ho hi => ?_⟩
  have hfeeds : g.Feeds o.node i.node := ⟨i.index, o, producer_eq_ok_some.1 ho, rfl⟩
  exact (h.idxOf_lt hnodup hfeeds hi).resolve_left List.not_mem_nil

/-- A topological order has the nodes that are reached, producers first. -/
theorem WellFormed.arranges_topologicalOrder (hg : WellFormed g) {live order : List NodeId}
    (hlive : g.reachable = .ok live) (horder : g.topologicalOrder = .ok order) :
    g.Arranges live order := by
  obtain ⟨hsub, hmem⟩ := hg.reachable_eq_ok hlive
  obtain ⟨hord, hnodup, hneeded⟩ := hg.topologicalOrder_eq_ok horder
  refine hord.arranges hnodup ?_
  refine (List.perm_ext_iff_of_nodup hnodup (hsub.nodup g.ids_nodup)).2 fun id => ?_
  rw [hneeded, hmem]

end Graph

/-- **An order, or a cycle.** Take a graph built by any sequence of operations and the nodes
that are reached in it.

* They are put in order exactly if there is no cycle among them.
* The order has each of them once and nothing else, and producers come before consumers.
* Otherwise the error tells how many nodes are reached and how many of these lie neither on
  a cycle nor downstream of one, and these are not all.
* No count of values that a node waits for is ever taken below zero. -/
theorem order_or_cycle (cs : List Command) :
    ∃ live, (build cs).reachable = .ok live ∧ live.Nodup ∧
      ((∃ order, (build cs).topologicalOrder = .ok order) ↔
        ∀ id, ¬ TransGen ((build cs).FeedsWithin live) id id) ∧
      (∀ order, (build cs).topologicalOrder = .ok order → (build cs).Arranges live order) ∧
      (∀ e, (build cs).topologicalOrder = .error e → ∃ visited,
        e = .cycle visited live.length ∧
        visited = {id | id ∈ live ∧ ¬ (build cs).Held id}.ncard ∧ visited < live.length) ∧
      ∀ id, (build cs).topologicalOrder ≠ .error (.overfed id) := by
  have hg := wellFormed_build cs
  obtain ⟨live, hlive, hsub, hmem⟩ := hg.reachable_ok
  have hnodup : live.Nodup := hsub.nodup (ids_nodup _)
  refine ⟨live, hlive, hnodup, ?_, fun order => hg.arranges_topologicalOrder hlive,
    fun e he => ?_, fun id hid => ?_⟩
  · rw [hg.topologicalOrder_ok_iff]
    exact acyclic_iff hmem
  · rw [hg.topologicalOrder_eq hlive] at he
    split at he
    · cases he
    · next hne =>
      cases he
      obtain ⟨-, hnd, hin, -⟩ := schedule_spec (build cs) [] live hnodup
      have hle := (hnd.subperm hin).length_le
      exact ⟨_, rfl, length_schedule hg hmem hlive hnodup, Nat.lt_of_le_of_ne hle hne⟩
  · rw [hg.topologicalOrder_eq hlive] at hid
    split at hid
    · cases hid
    · cases hid

/-! ## The least order -/

/-- At the first place where an order differs from the schedule it has a later node: the
schedule takes the earliest of all nodes that can stand there. -/
theorem Graph.Ordered.schedule_least {g : Graph} {done pending order : List NodeId}
    (h : g.Ordered done order) (hperm : order.Perm pending) (hsorted : pending.Pairwise (· < ·)) :
    order = g.schedule done pending ∨ List.Lex (· < ·) (g.schedule done pending) order := by
  fun_induction schedule g done pending generalizing order with
  | case1 done pending hnone =>
    cases order with
    | nil => exact .inl rfl
    | cons x rest =>
      have hx : x ∈ pending := hperm.mem_iff.1 (List.mem_cons_self ..)
      exact absurd (isReady_iff.2 h.1) (List.find?_eq_none.1 hnone x hx)
  | case2 done pending id hsome ih =>
    have hid : id ∈ pending := List.mem_of_find?_eq_some hsome
    cases order with
    | nil => exact absurd (hperm.mem_iff.2 hid) List.not_mem_nil
    | cons x rest =>
      have hx : x ∈ pending := hperm.mem_iff.1 (List.mem_cons_self ..)
      have hle : id ≤ x := le_of_find?_eq_some hsorted hsome hx (isReady_iff.2 h.1)
      rcases Nat.lt_or_eq_of_le hle with hlt | rfl
      · exact .inr (.rel hlt)
      · have hrest : rest.Perm (pending.erase id) :=
          (hperm.trans (List.perm_cons_erase hid)).cons_inv
        rcases ih h.2 hrest (hsorted.sublist List.erase_sublist) with heq | hlex
        · exact .inl (heq ▸ rfl)
        · exact .inr (.cons hlex)

/-- **The order is the least one.** Among all orders of the nodes that are reached in which
producers come before consumers, compared place by place, the one that is found is the
least. -/
theorem order_least (cs : List Command) (live order : List NodeId)
    (hlive : (build cs).reachable = .ok live) (horder : (build cs).topologicalOrder = .ok order) :
    (build cs).Arranges live order ∧
      ∀ order', (build cs).Arranges live order' →
        order' = order ∨ List.Lex (· < ·) order order' := by
  have hg := wellFormed_build cs
  obtain ⟨hsub, -⟩ := hg.reachable_eq_ok hlive
  refine ⟨hg.arranges_topologicalOrder hlive horder, fun order' h => ?_⟩
  rw [hg.topologicalOrder_eq hlive] at horder
  split at horder
  · cases horder
    exact (h.ordered (hsub.nodup (ids_nodup _))).schedule_least h.perm
      ((ids_sorted _).sublist hsub)
  · cases horder

/-- The convolutions could go before the second output, which nothing waits for. -/
theorem order_least_sharedName : ∃ live,
    (build sharedName).reachable = .ok live ∧
      (build sharedName).topologicalOrder = .ok [0, 3, 4, 1, 2] ∧
      (build sharedName).Arranges live [0, 4, 1, 2, 3] ∧
      List.Lex (· < ·) [0, 3, 4, 1, 2] [0, 4, 1, 2, 3] := by
  obtain ⟨live, hlive, -⟩ := (wellFormed_build sharedName).reachable_ok
  obtain ⟨hfound, hleast⟩ := order_least sharedName live _ hlive topologicalOrder_sharedName
  have hedges : ∀ b ∈ (build sharedName).ids, ∀ a ∈ (build sharedName).feeders b,
      [0, 4, 1, 2, 3].idxOf a < [0, 4, 1, 2, 3].idxOf b := by decide +kernel
  have hother : (build sharedName).Arranges live [0, 4, 1, 2, 3] := by
    refine ⟨.trans (by decide) hfound.perm, fun i o ho _ => ?_⟩
    rw [producer_eq_ok_some] at ho
    exact hedges i.node (Arena.mem_handles.2 (contains_of_producer? ho)) o.node
      (mem_feeders.2 ⟨i.index, o, ho, rfl⟩)
  exact ⟨live, hlive, topologicalOrder_sharedName, hother,
    (hleast _ hother).resolve_left (by decide)⟩

end FixedNet
