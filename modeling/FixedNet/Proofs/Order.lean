/-
**In which order.** `topologicalOrder` lists the needed nodes so that each comes after
everything that feeds it, and fails exactly if some needed node lies on a cycle or behind
one, that is, if it is not accessible along `Feeds`.
-/
import FixedNet.Proofs.Countdown
import Mathlib.Data.List.Find
import Mathlib.Data.List.Perm.Subperm

set_option autoImplicit false

namespace FixedNet.Graph

variable {g : Graph}

/-! ## Order -/

/-- Each listed node comes after everything that feeds it, where the nodes of `done`
come before the list. -/
def Ordered (g : Graph) : (done order : List NodeId) → Prop
  | _, [] => True
  | done, id :: rest => (∀ a, g.Feeds a id → a ∈ done) ∧ Ordered g (id :: done) rest

/-- The schedule is ordered, lists pending nodes only and leaves none that is ready. -/
theorem schedule_spec (g : Graph) (done pending : List NodeId) (hnodup : pending.Nodup) :
    g.Ordered done (g.schedule done pending) ∧
    (g.schedule done pending).Nodup ∧
    (∀ id ∈ g.schedule done pending, id ∈ pending) ∧
    ∀ id ∈ pending, (∀ a, g.Feeds a id → a ∈ done ∨ a ∈ g.schedule done pending) →
      id ∈ g.schedule done pending := by
  fun_induction schedule g done pending with
  | case1 done pending hfind =>
    refine ⟨trivial, List.nodup_nil, fun id hid => absurd hid List.not_mem_nil, ?_⟩
    intro id hid hready
    have hnot := List.find?_eq_none.1 hfind id hid
    refine absurd (isReady_iff.2 fun a ha => ?_) hnot
    exact (hready a ha).resolve_right List.not_mem_nil
  | case2 done pending id hfind ih =>
    have hmem : id ∈ pending := List.mem_of_find?_eq_some hfind
    have hready := isReady_iff.1 (List.find?_some hfind)
    -- The node found goes first; whatever only waited for it may come in the rest.
    obtain ⟨hord, hnd, hsub, hall⟩ := ih (hnodup.erase id)
    refine ⟨⟨hready, hord⟩, ?_, ?_, ?_⟩
    · refine List.nodup_cons.2 ⟨fun h => ?_, hnd⟩
      exact hnodup.not_mem_erase (hsub id h)
    · intro x hx
      rcases List.mem_cons.1 hx with rfl | hx
      · exact hmem
      · exact List.mem_of_mem_erase (hsub x hx)
    · intro x hx hfeeds
      by_cases hxid : x = id
      · exact hxid ▸ List.mem_cons_self ..
      · refine List.mem_cons_of_mem _ (hall x ((List.mem_erase_of_ne hxid).2 hx) ?_)
        intro a ha
        rcases hfeeds a ha with h | h
        · exact .inl (List.mem_cons_of_mem _ h)
        · rcases List.mem_cons.1 h with rfl | h
          · exact .inl (List.mem_cons_self ..)
          · exact .inr h

/-- Nothing in an ordered list lies on a cycle or behind one. -/
theorem Ordered.acc {done order : List NodeId} (h : g.Ordered done order)
    (hdone : ∀ id ∈ done, Acc g.Feeds id) : ∀ id ∈ order, Acc g.Feeds id := by
  induction order generalizing done with
  | nil => exact fun id hid => absurd hid List.not_mem_nil
  | cons x rest ih =>
    have hx : Acc g.Feeds x := Acc.intro x fun a ha => hdone a (h.1 a ha)
    intro id hid
    rcases List.mem_cons.1 hid with rfl | hid
    · exact hx
    · refine ih h.2 (fun y hy => ?_) id hid
      rcases List.mem_cons.1 hy with rfl | hy
      · exact hx
      · exact hdone y hy

/-- The nodes that are put in order are the needed ones that lie on no cycle and behind
none. -/
theorem WellFormed.mem_schedule (hg : WellFormed g) {live : List NodeId}
    (hlive : g.reachable = .ok live) {id : NodeId} :
    id ∈ g.schedule [] live ↔ g.Needed id ∧ Acc g.Feeds id := by
  obtain ⟨hsub, hmem⟩ := hg.reachable_eq_ok hlive
  obtain ⟨hord, -, hin, hall⟩ := schedule_spec g [] live (hsub.nodup g.ids_nodup)
  constructor
  · intro hid
    exact ⟨(hmem id).1 (hin id hid), hord.acc (fun x hx => absurd hx List.not_mem_nil) id hid⟩
  · rintro ⟨hneeded, hacc⟩
    -- By induction along what feeds a node, nothing that it waits for is left over.
    induction hacc with
    | intro id _ ih =>
      refine hall id ((hmem id).2 hneeded) fun a ha => .inr ?_
      exact ih a ha (.feeds hneeded ha)

/-- What a topological order is. -/
theorem WellFormed.topologicalOrder_eq_ok (hg : WellFormed g) {order : List NodeId}
    (h : g.topologicalOrder = .ok order) :
    g.Ordered [] order ∧ order.Nodup ∧ ∀ id, id ∈ order ↔ g.Needed id := by
  obtain ⟨l, hl, hsub, hmem⟩ := hg.reachable_ok
  have hnodup : l.Nodup := hsub.nodup g.ids_nodup
  obtain ⟨hord, hnd, hin, -⟩ := schedule_spec g [] l hnodup
  rw [hg.topologicalOrder_eq hl] at h
  split at h
  · next hlen =>
    cases h
    refine ⟨hord, hnd, fun id => ⟨fun hid => (hmem id).1 (hin id hid), fun hid => ?_⟩⟩
    -- Distinct needed nodes, as many as there are: none is left out.
    have hperm := (hnd.subperm hin).perm_of_length_le (Nat.le_of_eq hlen.symm)
    exact hperm.mem_iff.2 ((hmem id).2 hid)
  · cases h

/-- There is a topological order exactly if no needed node lies on a cycle or behind
one. -/
theorem WellFormed.topologicalOrder_ok_iff (hg : WellFormed g) :
    (∃ order, g.topologicalOrder = .ok order) ↔ ∀ id, g.Needed id → Acc g.Feeds id := by
  constructor
  · rintro ⟨order, h⟩ id hid
    obtain ⟨hord, -, hmem⟩ := hg.topologicalOrder_eq_ok h
    exact hord.acc (fun x hx => absurd hx List.not_mem_nil) id ((hmem id).2 hid)
  · intro hacc
    obtain ⟨l, hl, hsub, hmem⟩ := hg.reachable_ok
    have hnodup : l.Nodup := hsub.nodup g.ids_nodup
    obtain ⟨-, hnd, hin, -⟩ := schedule_spec g [] l hnodup
    have hsubset : l ⊆ g.schedule [] l := fun id hid =>
      have hneeded := (hmem id).1 hid
      (hg.mem_schedule hl).2 ⟨hneeded, hacc id hneeded⟩
    have hlen : (g.schedule [] l).length = l.length :=
      Nat.le_antisymm (hnd.subperm hin).length_le (hnodup.subperm hsubset).length_le
    refine ⟨g.schedule [] l, ?_⟩
    rw [hg.topologicalOrder_eq hl, if_pos hlen]

/-! ## What the order depends on -/

section Agree

variable {g' : Graph}

/-- The schedule asks the graph only whether pending nodes are ready. -/
theorem schedule_congr {done pending : List NodeId}
    (h : ∀ id ∈ pending, ∀ done, g'.isReady done id = g.isReady done id) :
    g'.schedule done pending = g.schedule done pending := by
  have hfind : ∀ (done l : List NodeId),
      (∀ id ∈ l, ∀ done, g'.isReady done id = g.isReady done id) →
      l.find? (g'.isReady done) = l.find? (g.isReady done) := fun done l hl =>
    List.find?_congr fun id hid => hl id hid done
  fun_induction schedule g done pending with
  | case1 done pending hnone =>
    rw [schedule]
    split
    · rfl
    · next id hsome => cases ((hfind done pending h).trans hnone).symm.trans hsome
  | case2 done pending id hsome ih =>
    rw [schedule]
    split
    · next hnone => cases ((hfind done pending h).trans hsome).symm.trans hnone
    · next x hx =>
      cases ((hfind done pending h).trans hsome).symm.trans hx
      rw [ih fun y hy => h y (List.mem_of_mem_erase hy)]

/-- The order, and the error if there is none, depend on which nodes are needed and on
what feeds these. -/
theorem WellFormed.topologicalOrder_congr (hg : WellFormed g) (hg' : WellFormed g')
    (hneeded : ∀ id, g'.Needed id ↔ g.Needed id)
    (hfeeds : ∀ a id, g.Needed id → (g'.Feeds a id ↔ g.Feeds a id)) :
    g'.topologicalOrder = g.topologicalOrder := by
  obtain ⟨l, hl, -, hmem⟩ := hg.reachable_ok
  have hready : ∀ id ∈ l, ∀ done, g'.isReady done id = g.isReady done id := by
    intro id hid done
    rw [Bool.eq_iff_iff, isReady_iff, isReady_iff]
    have hsame := fun a => hfeeds a id ((hmem id).1 hid)
    exact forall_congr' fun a => imp_congr_left (hsame a)
  have hl' : g'.reachable = .ok l := (hg.reachable_congr hg' hneeded).trans hl
  rw [hg.topologicalOrder_eq hl, hg'.topologicalOrder_eq hl', schedule_congr hready]

end Agree

end FixedNet.Graph
