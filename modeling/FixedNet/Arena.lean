/-
**Arenas.** An arena hands out handles in sequence and never hands out one
twice; a handle is a 32-bit number, and when they have run out nothing more can be
appended. Removing a value marks its slot for good, so a handle names either the
value that was stored with it or nothing. The values, the marks and the number of
values are kept side by side, and an arena carries the proof that they are in step.
-/

set_option autoImplicit false

namespace FixedNet

universe u

/-- A place in an arena. -/
abbrev Handle := Nat

/-- A place with its mark. -/
def Handle.text (h : Handle) : String := "%" ++ toString h

/-- A handle was used that names no value. -/
structure StaleHandle where
  handle : Handle
deriving DecidableEq

/-- The text of the error. -/
def StaleHandle.message (s : StaleHandle) : String := "stale arena handle " ++ s.handle.text

/-- A handle was asked for when all had been handed out. -/
structure ArenaOverflow where
  items : Nat
deriving DecidableEq

/-- The text of the error. -/
def ArenaOverflow.message (e : ArenaOverflow) : String :=
  s!"arena overflow: {e.items} items exceeds u32::MAX"

/-- A sequence of slots. A slot that is removed keeps its place and its value, but no
handle names it any more. -/
structure Arena (α : Type u) where
  values : Array α
  removed : Array Bool
  /-- The number of slots that are not removed. -/
  live : Nat
  size_removed : removed.size = values.size
  live_eq : live = removed.countP (!·)
deriving DecidableEq

namespace Arena

variable {α : Type u}

instance : EmptyCollection (Arena α) := ⟨⟨#[], #[], 0, rfl, rfl⟩⟩

instance : Inhabited (Arena α) := ⟨{}⟩

/-! ## Reading -/

/-- The number of slots, removed ones included. -/
def capacity (a : Arena α) : Nat := a.values.size

/-- The handle that the next value will have, as long as there is one. -/
def nextHandle (a : Arena α) : Except ArenaOverflow Handle :=
  if a.capacity < UInt32.size then .ok a.capacity else .error ⟨a.capacity⟩

/-- Whether a handle names a value. -/
def contains (a : Arena α) (h : Handle) : Bool := (a.removed[h]?).any (!·)

/-- The value that a handle names. -/
def get? (a : Arena α) (h : Handle) : Option α := if a.contains h then a.values[h]? else none

/-- The value that a handle names, or the handle. -/
def get (a : Arena α) (h : Handle) : Except StaleHandle α :=
  match a.get? h with
  | some v => .ok v
  | none => .error ⟨h⟩

/-- The handles that name a value, in the order they were handed out. -/
def handles (a : Arena α) : List Handle := (List.range a.capacity).filter a.contains

/-- The values with their handles, in the order they were stored. -/
def entries (a : Arena α) : List (Handle × α) :=
  (List.range a.capacity).filterMap fun h => (a.get? h).map (h, ·)

/-- The number of values. -/
def size (a : Arena α) : Nat := a.live

theorem contains_eq_true (a : Arena α) (h : Handle) :
    a.contains h = true ↔ a.removed[h]? = some false := by
  cases hr : a.removed[h]? with
  | none => simp [contains, hr]
  | some r => cases r <;> simp [contains, hr]

/-- A handle that names a value was handed out. -/
theorem lt_capacity_of_contains {a : Arena α} {h : Handle} (hc : a.contains h) :
    h < a.capacity := by
  obtain ⟨hlt, -⟩ := Array.getElem?_eq_some_iff.1 ((a.contains_eq_true h).1 hc)
  exact Nat.lt_of_lt_of_eq hlt a.size_removed

/-! ## Writing -/

/-- Stores a value in the next slot, whether or not there is a handle for it. -/
def push (a : Arena α) (v : α) : Arena α where
  values := a.values.push v
  removed := a.removed.push false
  live := a.live + 1
  size_removed := by rw [Array.size_push, Array.size_push, a.size_removed]
  live_eq := by rw [Array.countP_push, ← a.live_eq]; rfl

/-- Stores a value, and names it. Without a handle for it nothing is stored. -/
def append (a : Arena α) (v : α) : Except ArenaOverflow (Handle × Arena α) :=
  match a.nextHandle with
  | .ok h => .ok (h, a.push v)
  | .error e => .error e

/-- Changes the value that a handle names, if it names one. -/
def modify (a : Arena α) (h : Handle) (f : α → α) : Arena α :=
  if a.contains h then
    { a with
      values := a.values.modify h f
      size_removed := by rw [Array.size_modify, a.size_removed] }
  else a

/-- Writes the value of a handle, and returns the value before. Without a value
before nothing is written. -/
def replace (a : Arena α) (h : Handle) (v : α) : Option α × Arena α :=
  (a.get? h, a.modify h fun _ => v)

/-- Writes the value of a handle that must name one. -/
def set (a : Arena α) (h : Handle) (v : α) : Except StaleHandle (Arena α) :=
  match a.replace h v with
  | (some _, b) => .ok b
  | (none, _) => .error ⟨h⟩

/-- One slot that is not removed fewer. -/
theorem countP_set_removed {a : Arena α} {h : Handle} (hc : a.contains h)
    (hlt : h < a.removed.size) : (a.removed.set h true hlt).countP (!·) = a.live - 1 := by
  have hflag : a.removed[h] = false := by
    obtain ⟨_, hflag⟩ := Array.getElem?_eq_some_iff.1 ((a.contains_eq_true h).1 hc)
    exact hflag
  rw [Array.countP_set, hflag, ← a.live_eq]
  rfl

/-- Removes the slot of a handle, if the handle names a value. -/
def erase (a : Arena α) (h : Handle) : Arena α :=
  if hc : a.contains h then
    have hlt : h < a.removed.size :=
      Nat.lt_of_lt_of_eq (lt_capacity_of_contains hc) a.size_removed.symm
    { a with
      removed := a.removed.set h true hlt
      live := a.live - 1
      size_removed := by rw [Array.size_set, a.size_removed]
      live_eq := (countP_set_removed hc hlt).symm }
  else a

/-- Removes the slot of a handle, and tells whether the handle named a value. -/
def remove (a : Arena α) (h : Handle) : Bool × Arena α := (a.contains h, a.erase h)

/-- A value is stored as long as there is a handle for it. -/
theorem append_eq (a : Arena α) (v : α) :
    a.append v =
      if a.capacity < UInt32.size then .ok (a.capacity, a.push v) else .error ⟨a.capacity⟩ := by
  unfold append nextHandle
  by_cases hroom : a.capacity < UInt32.size
  · rw [if_pos hroom, if_pos hroom]
  · rw [if_neg hroom, if_neg hroom]

/-! ## What a handle names afterwards -/

@[simp] theorem get?_empty (h : Handle) : ({} : Arena α).get? h = none := rfl

theorem contains_iff (a : Arena α) (h : Handle) : a.contains h ↔ ∃ v, a.get? h = some v := by
  unfold get?
  constructor
  · intro hc
    exact ⟨_, by rw [if_pos hc, Array.getElem?_eq_getElem (lt_capacity_of_contains hc)]⟩
  · rintro ⟨v, hv⟩
    split at hv
    · assumption
    · cases hv

theorem contains_eq_isSome (a : Arena α) (h : Handle) : a.contains h = (a.get? h).isSome := by
  rw [Bool.eq_iff_iff, contains_iff, Option.isSome_iff_exists]

theorem get?_push (a : Arena α) (v : α) (h : Handle) :
    (a.push v).get? h = if h = a.capacity then some v else a.get? h := by
  have hcontains : (a.push v).contains h = if h = a.capacity then true else a.contains h := by
    simp only [contains, push, capacity, Array.getElem?_push, a.size_removed]
    by_cases hh : h = a.values.size
    · simp [hh]
    · simp [hh]
  unfold get?
  rw [hcontains]
  by_cases hh : h = a.values.size
  · simp [hh, push, capacity]
  · simp [hh, push, capacity, Array.getElem?_push]

theorem contains_modify (a : Arena α) (h : Handle) (f : α → α) (k : Handle) :
    (a.modify h f).contains k = a.contains k := by
  unfold modify
  split
  · rfl
  · rfl

theorem get?_modify (a : Arena α) (f : α → α) (h k : Handle) :
    (a.modify h f).get? k = if h = k then (a.get? k).map f else a.get? k := by
  unfold get?
  rw [contains_modify]
  by_cases hk : a.contains k
  · rw [if_pos hk, if_pos hk]
    unfold modify
    split
    · exact Array.getElem?_modify
    · next hh =>
      rw [if_neg]
      rintro rfl
      exact hh hk
  · simp [hk]

theorem contains_erase (a : Arena α) (h k : Handle) :
    (a.erase h).contains k = if h = k then false else a.contains k := by
  unfold erase
  split
  · by_cases hk : h = k
    · simp [contains, hk]
    · simp [contains, hk]
  · next hh =>
    split
    · next hk => rw [← hk, Bool.eq_false_iff.2 hh]
    · rfl

/-- A removed slot keeps its value. -/
@[simp] theorem values_erase (a : Arena α) (h : Handle) : (a.erase h).values = a.values := by
  unfold erase
  split
  · rfl
  · rfl

theorem get?_erase (a : Arena α) (h k : Handle) :
    (a.erase h).get? k = if h = k then none else a.get? k := by
  unfold get?
  rw [contains_erase, values_erase]
  split
  · rfl
  · rfl

@[simp] theorem capacity_push (a : Arena α) (v : α) :
    (a.push v).capacity = a.capacity + 1 := by
  simp [capacity, push]

@[simp] theorem capacity_modify (a : Arena α) (h : Handle) (f : α → α) :
    (a.modify h f).capacity = a.capacity := by
  unfold modify
  split
  · exact Array.size_modify
  · rfl

@[simp] theorem capacity_erase (a : Arena α) (h : Handle) :
    (a.erase h).capacity = a.capacity := by
  simp [capacity]

/-- Only what a change makes of the value that the handle names counts. -/
theorem modify_congr {a : Arena α} {h : Handle} {f g : α → α}
    (hf : ∀ v, a.get? h = some v → f v = g v) : a.modify h f = a.modify h g := by
  unfold modify
  split
  · next hc =>
    congr 1
    apply Array.ext_getElem?
    intro k
    simp only [Array.getElem?_modify]
    split
    · next hk =>
      subst hk
      cases hv : a.values[h]? with
      | none => rfl
      | some v => rw [Option.map_some, Option.map_some, hf v (by rw [get?, if_pos hc, hv])]
    · rfl
  · rfl

/-- There is nothing to change at a handle that names nothing. -/
theorem modify_of_none {a : Arena α} {h : Handle} (hn : a.get? h = none) (f : α → α) :
    a.modify h f = a := by
  rw [modify, if_neg]
  rw [contains_eq_isSome, hn]
  exact Bool.false_ne_true

theorem modify_id (a : Arena α) (h : Handle) : a.modify h (fun v => v) = a := by
  have hvalues : a.values.modify h (fun v => v) = a.values := by
    apply Array.ext_getElem?
    intro k
    simp [Array.getElem?_modify]
  unfold modify
  simp only [hvalues]
  split
  · rfl
  · rfl

theorem lt_capacity_of_get? {a : Arena α} {h : Handle} {v : α} (hv : a.get? h = some v) :
    h < a.capacity :=
  lt_capacity_of_contains ((a.contains_iff h).2 ⟨v, hv⟩)

/-- A handle that was not handed out names nothing. -/
theorem get?_of_le {a : Arena α} {h : Handle} (hle : a.capacity ≤ h) : a.get? h = none := by
  cases hv : a.get? h with
  | none => rfl
  | some v => exact absurd (lt_capacity_of_get? hv) (Nat.not_lt.2 hle)

theorem mem_handles {a : Arena α} {h : Handle} : h ∈ a.handles ↔ a.contains h := by
  simp only [handles, List.mem_filter, List.mem_range, and_iff_right_iff_imp]
  exact lt_capacity_of_contains

theorem mem_entries {a : Arena α} {h : Handle} {v : α} :
    (h, v) ∈ a.entries ↔ a.get? h = some v := by
  unfold entries
  rw [List.mem_filterMap]
  constructor
  · rintro ⟨k, -, hk⟩
    obtain ⟨w, hw, heq⟩ := Option.map_eq_some_iff.1 hk
    cases heq
    exact hw
  · intro hv
    exact ⟨h, List.mem_range.2 (lt_capacity_of_get? hv), by rw [hv]; rfl⟩

/-- The values are listed by their handles. -/
theorem map_fst_entries (a : Arena α) : a.entries.map (·.1) = a.handles := by
  unfold entries handles
  rw [List.map_filterMap, ← List.filterMap_eq_filter]
  congr 1
  funext h
  cases hv : a.get? h with
  | none => simp [contains_eq_isSome, hv, Option.guard]
  | some v => simp [contains_eq_isSome, hv, Option.guard]

/-! ## Parts that are in step -/

/-- A list is counted by counting the places where the predicate holds. -/
theorem countP_eq_length_places {β : Type} (p : β → Bool) (l : List β) :
    l.countP p = ((List.range l.length).filter fun i => (l[i]?).any p).length := by
  induction l with
  | nil => rfl
  | cons b l ih =>
    rw [List.countP_cons, ih, List.length_cons, List.range_succ_eq_map, List.filter_cons,
      List.filter_map]
    cases hb : p b with
    | false => simp [hb, Function.comp_def]
    | true => simp [hb, Function.comp_def]

/-- The number that is kept is the number of handles that name a value. -/
theorem size_eq_length_handles (a : Arena α) : a.size = a.handles.length := by
  have hlength : a.removed.toList.length = a.capacity := a.size_removed
  rw [size, a.live_eq, ← Array.countP_toList, countP_eq_length_places, hlength]
  simp only [Array.getElem?_toList]
  rfl

/-- What a removed slot still holds. No operation reads it. -/
def buried (a : Arena α) (h : Handle) : Option α := if a.contains h then none else a.values[h]?

theorem buried_modify (a : Arena α) (h : Handle) (f : α → α) :
    (a.modify h f).buried = a.buried := by
  funext k
  unfold buried
  rw [contains_modify]
  split
  · rfl
  · next hk =>
    unfold modify
    split
    · next hh =>
      have hne : h ≠ k := by
        rintro rfl
        exact hk hh
      rw [Array.getElem?_modify, if_neg hne]
    · rfl

/-- Arenas in which every handle names the same and the removed slots hold the same are
equal. -/
theorem ext_get? {a b : Arena α} (h : ∀ k, a.get? k = b.get? k) (hburied : a.buried = b.buried) :
    a = b := by
  have hcontains : ∀ k, a.contains k = b.contains k := fun k => by
    rw [contains_eq_isSome, contains_eq_isSome, h]
  have hvalues : a.values = b.values := by
    apply Array.ext_getElem?
    intro k
    have hk := h k
    have hb := congrFun hburied k
    unfold get? buried at *
    rw [← hcontains] at hk hb
    by_cases hc : a.contains k
    · simpa [hc] using hk
    · simpa [hc] using hb
  -- The marks are what `contains` tells, and the count follows from them.
  have hremoved : a.removed = b.removed := by
    have hsize : a.removed.size = b.removed.size := by
      rw [a.size_removed, b.size_removed, hvalues]
    refine Array.ext hsize fun k ha hb => ?_
    have hk := hcontains k
    simpa [contains, ha, hb] using hk
  obtain ⟨va, ra, la, _, hla⟩ := a
  obtain ⟨vb, rb, lb, _, hlb⟩ := b
  cases hvalues
  cases hremoved
  cases hla
  cases hlb
  rfl

end Arena

end FixedNet
