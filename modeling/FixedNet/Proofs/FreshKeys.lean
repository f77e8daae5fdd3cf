/-
**Arenas as growing maps with fresh keys.** Seen from outside, an arena is a partial map
from handles to values. A handle comes into it when a value is stored, under a number that
was never handed out before; it leaves when it is removed, and does not come back. Since
numbers are not handed out again they run out, and from then on appends are refused.

The other side of this is told by histories alone: `Holds l h v` says that the history `l`
handed the handle `h` out, has not removed it since, and wrote `v` to it last. One change
does the same to a history (`holds_concat`) as to the map of an arena (`get?_run`), so every
arena is the map of its history (`get?_after`). The values, the marks and the count that an
arena keeps are read off this map.

A program may hold many arenas and copy one to another. A copy takes over the history of
the arena it was copied from, and from there on the two have histories of their own
(`hold_eq`).
-/
import FixedNet.Arena
import Mathlib.Data.List.Induction
import Mathlib.Data.Set.Card
import Mathlib.Logic.Function.Basic

set_option autoImplicit false

namespace FixedNet.Arena

universe u

variable {α : Type u}

/-! ## Histories -/

/-- A change to an arena with its arguments. -/
inductive Change (α : Type u) where
  /-- Refused if no handle is left. -/
  | append (v : α)
  | remove (h : Handle)
  | replace (h : Handle) (v : α)
  /-- Refused if the handle names nothing. -/
  | set (h : Handle) (v : α)

namespace Change

/-- The arena after a change, whether it was done or refused. -/
def run (a : Arena α) : Change α → Arena α
  | append v =>
    match a.append v with
    | .ok b => b.2
    | .error _ => a
  | remove h => (a.remove h).2
  | replace h v => (a.replace h v).2
  | set h v =>
    match a.set h v with
    | .ok b => b
    | .error _ => a

/-- The handle that a change is about. -/
def target (a : Arena α) : Change α → Handle
  | append _ => a.capacity
  | remove h => h
  | replace h _ => h
  | set h _ => h

/-- Whether a change asks for a handle. -/
def isAppend : Change α → Bool
  | append _ => true
  | _ => false

/-- The value that a change writes to a handle which names one already. -/
def written? (h : Handle) : Change α → Option α
  | replace k v => if k = h then some v else none
  | set k v => if k = h then some v else none
  | _ => none

end Change

/-- The arena that a history makes of the empty one. -/
def after (l : List (Change α)) : Arena α := l.foldl Change.run {}

/-- The number of values that a history stores: all that it appends, as long as there are
handles for them. -/
def appends (l : List (Change α)) : Nat := min (l.countP Change.isAppend) UInt32.size

/-- By the history `l` the handle `h` was handed out and not removed since, and `v` is the
value that was last written to it. What was done under its number before does not count. -/
def Holds (l : List (Change α)) (h : Handle) (v : α) : Prop :=
  ∃ earlier first later, l = earlier ++ .append first :: later ∧
    (appends earlier = h ∧ h < UInt32.size) ∧
    .remove h ∉ later ∧ (later.filterMap (Change.written? h)).getLastD first = v

/-! ## One change -/

theorem after_concat (l : List (Change α)) (c : Change α) :
    after (l ++ [c]) = c.run (after l) := by
  simp only [after, List.foldl_append, List.foldl_cons, List.foldl_nil]

theorem appends_concat (l : List (Change α)) (c : Change α) :
    appends (l ++ [c]) = appends l + if c.isAppend ∧ appends l < UInt32.size then 1 else 0 := by
  simp only [appends, List.countP_append, List.countP_singleton]
  cases c.isAppend with
  | false => simp
  | true =>
    simp only [if_true, true_and]
    split
    · omega
    · omega

/-- The value last written, after one more change. -/
theorem lastWritten_concat (h : Handle) (first : α) (later : List (Change α)) (c : Change α) :
    ((later ++ [c]).filterMap (Change.written? h)).getLastD first =
      (c.written? h).getD ((later.filterMap (Change.written? h)).getLastD first) := by
  rw [List.filterMap_append]
  cases hw : c.written? h with
  | none => simp [hw]
  | some w => simp [hw]

/-- What a history says of a handle after one more change. -/
theorem holds_concat {l : List (Change α)} {c : Change α} {h : Handle} {v : α} :
    Holds (l ++ [c]) h v ↔
      (c = .append v ∧ appends l = h ∧ h < UInt32.size) ∨
        ∃ u, Holds l h u ∧ c ≠ .remove h ∧ (c.written? h).getD u = v := by
  constructor
  · rintro ⟨earlier, first, later, hl, happends, hremoved, hlast⟩
    -- The handle came with the last change, or with one before it.
    rcases List.eq_nil_or_concat' later with rfl | ⟨later, d, rfl⟩
    · obtain ⟨rfl, hc⟩ := List.append_inj' hl rfl
      cases hc
      cases hlast
      exact .inl ⟨rfl, happends⟩
    · rw [← List.cons_append, ← List.append_assoc] at hl
      obtain ⟨rfl, hc⟩ := List.append_inj' hl rfl
      cases hc
      rw [List.mem_append, not_or, List.mem_singleton] at hremoved
      rw [lastWritten_concat] at hlast
      exact .inr ⟨_, ⟨earlier, first, later, rfl, happends, hremoved.1, rfl⟩,
        Ne.symm hremoved.2, hlast⟩
  · rintro (⟨rfl, happends⟩ | ⟨u, ⟨earlier, first, later, rfl, happends, hremoved, rfl⟩, hc, rfl⟩)
    · exact ⟨l, v, [], rfl, happends, List.not_mem_nil, rfl⟩
    · refine ⟨earlier, first, later ++ [c], by simp, happends, ?_, lastWritten_concat ..⟩
      rw [List.mem_append, not_or, List.mem_singleton]
      exact ⟨hremoved, Ne.symm hc⟩

/-- A write that is refused would have written nothing. -/
theorem run_set (a : Arena α) (h : Handle) (v : α) :
    (Change.set h v).run a = (Change.replace h v).run a := by
  simp only [Change.run, set, replace]
  cases hv : a.get? h with
  | none => exact (modify_of_none hv _).symm
  | some u => rfl

/-- An append stores its value as long as there is a handle for it. -/
theorem run_append (a : Arena α) (v : α) :
    (Change.append v).run a = if a.capacity < UInt32.size then a.push v else a := by
  rw [Change.run, append_eq]
  by_cases hroom : a.capacity < UInt32.size
  · rw [if_pos hroom, if_pos hroom]
  · rw [if_neg hroom, if_neg hroom]

theorem capacity_run (a : Arena α) (c : Change α) :
    (c.run a).capacity =
      a.capacity + if c.isAppend ∧ a.capacity < UInt32.size then 1 else 0 := by
  cases c with
  | append v =>
    rw [run_append]
    split
    · next hroom => rw [capacity_push, if_pos ⟨rfl, hroom⟩]
    · next hfull => rw [if_neg fun h => hfull h.2, Nat.add_zero]
  | remove h => exact a.capacity_erase h
  | replace h v => exact a.capacity_modify h _
  | set h v => rw [run_set]; exact a.capacity_modify h _

/-- What a handle names after one more change. -/
theorem get?_run {a : Arena α} {c : Change α} {h : Handle} {v : α} :
    (c.run a).get? h = some v ↔
      (c = .append v ∧ a.capacity = h ∧ h < UInt32.size) ∨
        ∃ u, a.get? h = some u ∧ c ≠ .remove h ∧ (c.written? h).getD u = v := by
  have hwrite : ∀ k w, ((Change.replace k w).run a).get? h = some v ↔
      ∃ u, a.get? h = some u ∧ (if k = h then some w else none).getD u = v := by
    intro k w
    rw [Change.run, replace, get?_modify]
    by_cases hk : k = h
    · simp [hk]
    · simp [hk]
  cases c with
  | append w =>
    -- The new handle named nothing before, so the two alternatives exclude each other.
    have hnew : a.get? a.capacity = none := get?_of_le (Nat.le_refl _)
    rw [run_append]
    split
    · next hroom =>
      simp only [get?_push, Change.written?]
      by_cases hh : h = a.capacity
      · simp [hh, hnew, hroom]
      · simp [hh, Ne.symm hh]
    · next hfull =>
      have hno : ¬(a.capacity = h ∧ h < UInt32.size) := by
        rintro ⟨rfl, hlt⟩
        exact hfull hlt
      simp [hno, Change.written?]
  | remove k =>
    simp only [Change.run, remove, get?_erase, Change.written?]
    by_cases hk : k = h
    · simp [hk]
    · simp [hk]
  | replace k w => simpa [Change.written?] using hwrite k w
  | set k w =>
    rw [run_set]
    simpa [Change.written?] using hwrite k w

/-- A change shows at its own handle only. -/
theorem get?_run_of_ne {a : Arena α} {c : Change α} {h : Handle} (hne : c.target a ≠ h) :
    (c.run a).get? h = a.get? h := by
  cases c with
  | append v =>
    rw [run_append]
    split
    · exact (a.get?_push v h).trans (if_neg (Ne.symm hne))
    · rfl
  | remove k => exact (a.get?_erase k h).trans (if_neg hne)
  | replace k v => exact (a.get?_modify _ k h).trans (if_neg hne)
  | set k v => rw [run_set]; exact (a.get?_modify _ k h).trans (if_neg hne)

/-! ## A whole history -/

theorem capacity_after (l : List (Change α)) : (after l).capacity = appends l := by
  induction l using List.reverseRecOn with
  | nil => rfl
  | append_singleton l c ih => rw [after_concat, capacity_run, appends_concat, ih]

/-- **The map of an arena is told by its history.** -/
theorem get?_after (l : List (Change α)) (h : Handle) (v : α) :
    (after l).get? h = some v ↔ Holds l h v := by
  induction l using List.reverseRecOn generalizing v with
  | nil =>
    constructor
    · intro hv
      cases hv
    · rintro ⟨earlier, first, later, hl, -⟩
      exact absurd hl.symm (List.append_ne_nil_of_right_ne_nil _ (List.cons_ne_nil _ _))
  | append_singleton l c ih =>
    rw [after_concat, get?_run, holds_concat, capacity_after]
    simp only [ih]

-- The first and the last change are about handles that name nothing at the time.
example : (after [.remove 1, .append 10, .append 20, .set 1 30, .remove 0, .set 0 40]).entries =
    [(1, 30)] := rfl

/-- The handle that an append returned is the number of appends before it. -/
theorem append_after {l : List (Change α)} {v : α} {h : Handle} {b : Arena α}
    (hb : (after l).append v = .ok (h, b)) : appends l = h ∧ h < UInt32.size := by
  rw [append_eq, capacity_after] at hb
  split at hb
  · next hroom =>
    cases hb
    exact ⟨rfl, hroom⟩
  · cases hb

/-- The number of appends grows with each append that has a handle. -/
theorem appends_lt {l earlier later : List (Change α)} {first : α}
    (hl : l = earlier ++ .append first :: later) (hroom : appends earlier < UInt32.size) :
    appends earlier < appends l := by
  have hpos : (Change.append first).isAppend = true := rfl
  rw [appends] at hroom
  rw [hl, appends, appends, List.countP_append, List.countP_cons_of_pos hpos]
  omega

/-- The count that is kept is the number of handles that the history leaves alive. -/
theorem size_after (l : List (Change α)) : (after l).size = {h | ∃ v, Holds l h v}.ncard := by
  have hset : {h | ∃ v, Holds l h v} = ((after l).handles.toFinset : Set Handle) := by
    ext h
    simp only [Set.mem_ofPred_eq, ← get?_after, List.coe_toFinset, mem_handles, contains_iff]
  have hnodup : (after l).handles.Nodup := List.nodup_range.filter _
  rw [hset, Set.ncard_coe_finset, List.toFinset_card_of_nodup hnodup, size_eq_length_handles]

/-- What an arena is to the history `l` that led to it. -/
structure Refines (l : List (Change α)) (a : Arena α) : Prop where
  /-- The next handle is the number of appends, until the handles have run out. -/
  nextHandle_eq : a.nextHandle =
    if appends l < UInt32.size then .ok (appends l) else .error ⟨appends l⟩
  /-- An append returns the handle that was announced. -/
  append_fst : ∀ v h, (∃ b, a.append v = .ok (h, b)) ↔ a.nextHandle = .ok h
  /-- An append is refused if no handle was announced. -/
  append_error : ∀ v e, a.append v = .error e ↔ a.nextHandle = .error e
  /-- No append of the history returned the handle that is next. -/
  fresh : ∀ h, a.nextHandle = .ok h → ∀ earlier first later b,
    l = earlier ++ .append first :: later → (after earlier).append first ≠ .ok (h, b)
  get?_iff : ∀ h v, a.get? h = some v ↔ Holds l h v
  remove_fst : ∀ h, (a.remove h).1 = true ↔ ∃ v, Holds l h v
  set_isOk : ∀ h v, (∃ b, a.set h v = .ok b) ↔ ∃ u, Holds l h u
  size_eq : a.size = {h | ∃ v, Holds l h v}.ncard
  capacity_eq : a.capacity = appends l
  mem_entries_iff : ∀ h v, (h, v) ∈ a.entries ↔ Holds l h v
  entries_sorted : (a.entries.map (·.1)).Pairwise (· < ·)

theorem refines_after (l : List (Change α)) : Refines l (after l) where
  nextHandle_eq := by rw [nextHandle, capacity_after]
  append_fst v h := by
    rw [append_eq, nextHandle]
    split
    · simp
    · simp
  append_error v e := by
    rw [append_eq, nextHandle]
    split
    · simp
    · simp
  fresh h hnext earlier first later b hl hb := by
    obtain ⟨hearlier, hroom⟩ := append_after hb
    have hlt := appends_lt hl (hearlier ▸ hroom)
    rw [nextHandle, capacity_after] at hnext
    split at hnext
    · cases hnext
      omega
    · cases hnext
  get?_iff := get?_after l
  remove_fst h := by
    simp only [← get?_after]
    exact contains_iff _ h
  set_isOk h v := by
    simp only [← get?_after, set, replace]
    cases (after l).get? h with
    | none => simp
    | some u => simp
  size_eq := size_after l
  capacity_eq := capacity_after l
  mem_entries_iff h v := mem_entries.trans (get?_after l h v)
  entries_sorted := by
    rw [map_fst_entries]
    exact List.pairwise_lt_range.filter _

/-! ## Many arenas -/

/-- A step of a program that holds arenas under names: a change to one of them, or a copy of
one in the place of another. -/
inductive Step (α : Type u) where
  | change (name : Nat) (c : Change α)
  | clone (source target : Nat)

/-- The arenas after a step. -/
def Step.run (held : Nat → Arena α) : Step α → Nat → Arena α
  | .change name c => Function.update held name (c.run (held name))
  | .clone source target => Function.update held target (held source)

/-- The histories after a step. A copy takes over that of its source. -/
def Step.extend (histories : Nat → List (Change α)) : Step α → Nat → List (Change α)
  | .change name c => Function.update histories name (histories name ++ [c])
  | .clone source target => Function.update histories target (histories source)

/-- The arenas after a run that starts with empty ones. -/
def hold (steps : List (Step α)) : Nat → Arena α := steps.foldl Step.run fun _ => {}

/-- The changes that led to what each name holds after a run. -/
def lineage (steps : List (Step α)) : Nat → List (Change α) :=
  steps.foldl Step.extend fun _ => []

theorem hold_concat (steps : List (Step α)) (s : Step α) :
    hold (steps ++ [s]) = s.run (hold steps) := by
  simp only [hold, List.foldl_append, List.foldl_cons, List.foldl_nil]

theorem lineage_concat (steps : List (Step α)) (s : Step α) :
    lineage (steps ++ [s]) = s.extend (lineage steps) := by
  simp only [lineage, List.foldl_append, List.foldl_cons, List.foldl_nil]

/-- Each name holds what its own history makes. -/
theorem hold_eq (steps : List (Step α)) (name : Nat) :
    hold steps name = after (lineage steps name) := by
  induction steps using List.reverseRecOn generalizing name with
  | nil => rfl
  | append_singleton steps s ih =>
    rw [hold_concat, lineage_concat]
    -- A name that the step does not write to keeps its arena and its history.
    cases s with
    | change target c =>
      by_cases h : name = target
      · subst h
        simp only [Step.run, Step.extend, Function.update_self, after_concat, ih]
      · simp only [Step.run, Step.extend, Function.update_of_ne h, ih]
    | clone source target =>
      by_cases h : name = target
      · subst h
        simp only [Step.run, Step.extend, Function.update_self, ih]
      · simp only [Step.run, Step.extend, Function.update_of_ne h, ih]

/-- **An arena is a growing map with fresh keys.** After every run each arena is the map of
its history: until `2 ^ 32` values were stored, appends return the fresh handles that were
announced, and from then on they are refused. A change to an arena shows at one handle of this
arena and nowhere else, and a copy is the arena it was copied from, which stays as it is. -/
theorem refines_growing_map (steps : List (Step α)) :
    (∀ name, Refines (lineage steps name) (hold steps name)) ∧
    (∀ name c,
      (∀ h, c.target (hold steps name) ≠ h →
        (hold (steps ++ [.change name c]) name).get? h = (hold steps name).get? h) ∧
      ∀ other, other ≠ name → hold (steps ++ [.change name c]) other = hold steps other) ∧
    ∀ source target,
      hold (steps ++ [.clone source target]) target = hold steps source ∧
      ∀ other, other ≠ target →
        hold (steps ++ [.clone source target]) other = hold steps other := by
  refine ⟨fun name => ?_, fun name c => ⟨fun h hne => ?_, fun other hne => ?_⟩,
    fun source target => ⟨?_, fun other hne => ?_⟩⟩
  · rw [hold_eq]
    exact refines_after _
  · rw [hold_concat, Step.run, Function.update_self]
    exact get?_run_of_ne hne
  · rw [hold_concat, Step.run, Function.update_of_ne hne]
  · rw [hold_concat, Step.run, Function.update_self]
  · rw [hold_concat, Step.run, Function.update_of_ne hne]

end FixedNet.Arena
