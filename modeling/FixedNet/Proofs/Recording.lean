/-
**Recording does not depend on batches or order.** A table of ranges is filled call by call:
each call brings a batch of values for one connector, folds the batch into a range and
unites that range with the one recorded. In the end every connector has the range of all
its values, as if they had come in one batch.

Least and greatest are one notion. A number has a rank, the NaN above all others, and
`first` keeps the one of lower rank, the earlier of two with the same: with the place as
the rank this is the lesser number, with the negated place the greater. That `first` is
associative joins the two folds, the one within a batch and the one over batches. What it
keeps is one of the values and of least rank, so the order of the values decides at most
which of two equal ones is kept, the sign of a zero.
-/
import FixedNet.Calibration
import Mathlib.Data.Int.Order.Basic
import Mathlib.Order.WithBot

set_option autoImplicit false

namespace FixedNet

/-! ## The first of least rank -/

section First

variable {α β : Type} [LinearOrder β] (rank : α → β)

/-- The one of lower rank, and the first one if the ranks are equal. -/
def first (a b : α) : α := if rank b < rank a then b else a

theorem first_assoc (a b c : α) :
    first rank (first rank a b) c = first rank a (first rank b c) := by
  unfold first
  by_cases hba : rank b < rank a
  · by_cases hcb : rank c < rank b
    · simp [hba, hcb, hcb.trans hba]
    · simp [hba, hcb]
  · by_cases hcb : rank c < rank b
    · simp [hba, hcb]
    · have hca : ¬ rank c < rank a := not_lt.2 ((not_lt.1 hba).trans (not_lt.1 hcb))
      simp [hba, hcb, hca]

instance : Std.Associative (first rank) := ⟨first_assoc rank⟩

theorem first_eq_or (a b : α) : first rank a b = a ∨ first rank a b = b := by
  unfold first
  split
  · exact .inr rfl
  · exact .inl rfl

theorem rank_first_le (a b : α) :
    rank (first rank a b) ≤ rank a ∧ rank (first rank a b) ≤ rank b := by
  unfold first
  split
  · next h => exact ⟨h.le, le_rfl⟩
  · next h => exact ⟨le_rfl, not_lt.1 h⟩

/-- Folding keeps one of the values. -/
theorem foldl_first_mem (a : α) (l : List α) : l.foldl (first rank) a ∈ a :: l := by
  induction l generalizing a with
  | nil => exact List.mem_singleton.2 rfl
  | cons b l ih =>
    have hkept := ih (first rank a b)
    rw [List.foldl_cons]
    rcases first_eq_or rank a b with h | h
    · rw [h] at hkept ⊢
      exact List.mem_cons.2 ((List.mem_cons.1 hkept).imp id (List.mem_cons_of_mem b))
    · rw [h] at hkept ⊢
      exact List.mem_cons_of_mem a hkept

/-- No value has a lower rank than the one that folding keeps. -/
theorem rank_foldl_first_le (a : α) (l : List α) {b : α} (hb : b ∈ a :: l) :
    rank (l.foldl (first rank) a) ≤ rank b := by
  induction l generalizing a b with
  | nil => rw [List.mem_singleton.1 hb, List.foldl_nil]
  | cons c l ih =>
    obtain ⟨hleft, hright⟩ := rank_first_le rank a c
    have hkept := ih (first rank a c) (List.mem_cons_self ..)
    rw [List.foldl_cons]
    rcases List.mem_cons.1 hb with rfl | hb
    · exact hkept.trans hleft
    rcases List.mem_cons.1 hb with rfl | hb
    · exact hkept.trans hright
    · exact ih _ (List.mem_cons_of_mem _ hb)

/-- The rank of what is kept does not depend on the order of the values. -/
theorem rank_foldl_first_perm {a b : α} {l m : List α} (h : (a :: l).Perm (b :: m)) :
    rank (l.foldl (first rank) a) = rank (m.foldl (first rank) b) :=
  le_antisymm (rank_foldl_first_le rank a l (h.mem_iff.2 (foldl_first_mem rank b m)))
    (rank_foldl_first_le rank b m (h.mem_iff.1 (foldl_first_mem rank a l)))

end First

/-! ## Least and greatest numbers -/

namespace Binary

variable {f : Format}

/-- The place, possibly turned around, with a NaN behind all others. -/
def rank (turn : ℤ → ℤ) (x : Binary f) : WithTop ℤ := x.position.map turn

theorem rank_cases (turn : ℤ → ℤ) (x : Binary f) :
    (x = .nan ∧ x.rank turn = ⊤) ∨
      ∃ p : ℤ, x ≠ .nan ∧ x.position = some p ∧ x.rank turn = (turn p : ℤ) := by
  cases hx : x.position with
  | none =>
    have hnan : x = .nan := position_eq_none_iff.1 hx
    exact .inl ⟨hnan, by rw [rank, hx]; rfl⟩
  | some p =>
    have hnan : x ≠ .nan := fun h => by simp [position_eq_none_iff.2 h] at hx
    exact .inr ⟨p, hnan, rfl, by rw [rank, hx]; rfl⟩

/-- Both the lesser and the greater of two numbers are chosen in this way. -/
theorem choose_eq_first {turn : ℤ → ℤ} {a b : Binary f} {p : Prop} [Decidable p]
    (hp : p ↔ ∃ x y, a.position = some x ∧ b.position = some y ∧ turn y < turn x) :
    (if a = .nan then b else if p then b else a) = first (rank turn) a b := by
  unfold first
  rcases a.rank_cases turn with ⟨rfl, ha⟩ | ⟨x, hnan, hx, ha⟩
  · rcases b.rank_cases turn with ⟨rfl, hb⟩ | ⟨y, -, -, hb⟩
    · simp
    · simp [ha, hb]
  · rcases b.rank_cases turn with ⟨rfl, hb⟩ | ⟨y, -, hy, hb⟩
    · simp [hp, ha, hb, hnan, position]
    · simp [hp, ha, hb, hnan, hx, hy]

theorem min_eq_first (a b : Binary f) : a.min b = first (rank id) a b := by
  refine choose_eq_first (lt_iff.trans ?_)
  constructor <;> rintro ⟨x, y, hx, hy, h⟩ <;> exact ⟨y, x, hy, hx, h⟩

theorem max_eq_first (a b : Binary f) : a.max b = first (rank Neg.neg) a b := by
  refine choose_eq_first (lt_iff.trans ?_)
  simp only [Int.neg_lt_neg_iff]

/-- No value that is a number stands before the one that folding keeps. -/
theorem positions_foldl_first (turn : ℤ → ℤ) (a : Binary f) (l : List (Binary f)) {b : Binary f}
    (hb : b ∈ a :: l) (hnan : b ≠ .nan) :
    ∃ x y, (l.foldl (first (rank turn)) a).position = some x ∧ b.position = some y ∧
      turn x ≤ turn y := by
  have hle := rank_foldl_first_le (rank turn) a l hb
  generalize l.foldl (first (rank turn)) a = c at *
  rcases b.rank_cases turn with ⟨rfl, -⟩ | ⟨y, -, hy, hrank⟩
  · exact absurd rfl hnan
  rw [hrank] at hle
  rcases c.rank_cases turn with ⟨-, hc⟩ | ⟨x, -, hx, hc⟩
  · rw [hc] at hle
    exact absurd hle (WithTop.not_top_le_coe _)
  · rw [hc, WithTop.coe_le_coe] at hle
    exact ⟨x, y, hx, hy, hle⟩

end Binary

/-! ## The range of values -/

namespace Bounds

/-- The ends of a range are folded apart. -/
theorem ofValues_cons (v : Single) (vs : List Single) :
    ofValues (v :: vs) =
      .ok ⟨vs.foldl (first (Binary.rank id)) v, vs.foldl (first (Binary.rank Neg.neg)) v⟩ := by
  have hfold : ∀ (l : List Single) (b : Bounds),
      l.foldl (fun b w => ⟨b.low.min w, b.high.max w⟩) b =
        (⟨l.foldl (first (Binary.rank id)) b.low,
          l.foldl (first (Binary.rank Neg.neg)) b.high⟩ : Bounds) := by
    intro l
    induction l with
    | nil => exact fun _ => rfl
    | cons w l ih =>
      intro b
      rw [List.foldl_cons, ih, List.foldl_cons, List.foldl_cons, Binary.min_eq_first,
        Binary.max_eq_first]
  rw [ofValues, hfold]

theorem ofValues_append {xs ys : List Single} {a b : Bounds} (ha : ofValues xs = .ok a)
    (hb : ofValues ys = .ok b) : ofValues (xs ++ ys) = .ok (a.union b) := by
  cases xs with
  | nil => cases ha
  | cons v vs =>
    cases ys with
    | nil => cases hb
    | cons w ws =>
      rw [ofValues_cons] at ha hb
      cases ha
      cases hb
      rw [List.cons_append, ofValues_cons, union, Binary.min_eq_first, Binary.max_eq_first]
      simp only [List.foldl_append, List.foldl_cons, List.foldl_assoc]

/-- **The least and the greatest of the values that are numbers.** Both are among the values,
so they are NaN if there is nothing else. -/
theorem extremes_of_ofValues {values : List Single} {b : Bounds} (h : ofValues values = .ok b) :
    b.low ∈ values ∧ b.high ∈ values ∧
      ∀ v ∈ values, v ≠ .nan → b.low ≤ v ∧ v ≤ b.high := by
  cases values with
  | nil => cases h
  | cons v vs =>
    rw [ofValues_cons] at h
    cases h
    refine ⟨foldl_first_mem _ v vs, foldl_first_mem _ v vs, fun w hw hnan => ?_⟩
    obtain ⟨x, y, hx, hy, hlow⟩ := Binary.positions_foldl_first id v vs hw hnan
    obtain ⟨z, y', hz, hy', hhigh⟩ := Binary.positions_foldl_first Neg.neg v vs hw hnan
    cases hy.symm.trans hy'
    exact ⟨Binary.le_iff.2 ⟨x, y, hx, hy, hlow⟩,
      Binary.le_iff.2 ⟨y, z, hy, hz, Int.neg_le_neg_iff.1 hhigh⟩⟩

/-- The places of the two ends. Zero has one place with either sign, and a NaN has none. -/
def places (b : Bounds) : Option ℤ × Option ℤ := (b.low.position, b.high.position)

theorem places_of_perm {xs ys : List Single} (h : xs.Perm ys) :
    (ofValues xs).toOption.map places = (ofValues ys).toOption.map places := by
  cases xs with
  | nil => rw [h.nil_eq]
  | cons v vs =>
    cases ys with
    | nil => exact absurd h.eq_nil (List.cons_ne_nil v vs)
    | cons w ws =>
      have hlow := rank_foldl_first_perm (Binary.rank id) h
      have hhigh := rank_foldl_first_perm (Binary.rank Neg.neg) h
      rw [ofValues_cons, ofValues_cons]
      simp only [Except.toOption, Option.map_some, places]
      rw [Option.map_injective Function.injective_id hlow,
        Option.map_injective (fun _ _ => Int.neg_inj.1) hhigh]

end Bounds

/-! ## A table after many calls -/

namespace Calibration

/-- The table after a call, which stays as it was if the call is refused. -/
def take (c : Calibration) (call : OutputId × List Single) : Calibration :=
  match c.record call.1 call.2 with
  | .ok c' => c'
  | .error _ => c

/-- The table after calls on an empty table. -/
def recorded (calls : List (OutputId × List Single)) : Calibration := calls.foldl take {}

/-- All values that calls bring for a connector, batch after batch. -/
def valuesAt (o : OutputId) (calls : List (OutputId × List Single)) : List Single :=
  (calls.filter (·.1 = o)).flatMap (·.2)

theorem record_eq_error {c : Calibration} {o : OutputId} {values : List Single}
    {e : DerivationError} :
    c.record o values = .error e ↔ values = [] ∧ e = .emptyRange := by
  cases values with
  | nil => exact ⟨fun h => ⟨rfl, (Except.error.inj h).symm⟩, fun h => congrArg _ h.2.symm⟩
  | cons v vs =>
    constructor
    · intro h
      cases h
    · rintro ⟨h, -⟩
      cases h

/-- A call adds its batch to the values of its connector. -/
theorem get?_take {c : Calibration} {o : OutputId} {seen : List Single}
    (h : c.get? o = (Bounds.ofValues seen).toOption) (call : OutputId × List Single) :
    (c.take call).get? o = (Bounds.ofValues (seen ++ valuesAt o [call])).toOption := by
  obtain ⟨k, values⟩ := call
  cases values with
  | nil =>
    have hbatch : valuesAt o [(k, [])] = [] := by simp [valuesAt]
    rw [hbatch, List.append_nil]
    exact h
  | cons v vs =>
    obtain ⟨b, hb⟩ : ∃ b, Bounds.ofValues (v :: vs) = .ok b := ⟨_, rfl⟩
    have htake : c.take (k, v :: vs) = c.insert k ((c.get? k).elim b (·.union b)) := by
      simp only [take, record, hb]
      rfl
    rw [htake, get?_insert]
    by_cases hk : o = k
    · subst hk
      have hbatch : valuesAt o [(o, v :: vs)] = v :: vs := by simp [valuesAt]
      rw [if_pos rfl, h, hbatch]
      cases seen with
      | nil =>
        rw [List.nil_append, hb]
        rfl
      | cons w ws =>
        obtain ⟨a, ha⟩ : ∃ a, Bounds.ofValues (w :: ws) = .ok a := ⟨_, rfl⟩
        rw [ha, Bounds.ofValues_append ha hb]
        rfl
    · have hbatch : valuesAt o [(k, v :: vs)] = [] := by simp [valuesAt, Ne.symm hk]
      rw [if_neg hk, h, hbatch, List.append_nil]

/-- Calls add their batches one after another. -/
theorem get?_foldl_take {c : Calibration} {o : OutputId} (seen : List Single)
    (h : c.get? o = (Bounds.ofValues seen).toOption) (calls : List (OutputId × List Single)) :
    (calls.foldl take c).get? o = (Bounds.ofValues (seen ++ valuesAt o calls)).toOption := by
  induction calls generalizing c seen with
  | nil =>
    rw [List.foldl_nil, h, valuesAt, List.filter_nil, List.flatMap_nil, List.append_nil]
  | cons call calls ih =>
    have hsplit : valuesAt o (call :: calls) = valuesAt o [call] ++ valuesAt o calls := by
      unfold valuesAt
      rw [← List.flatMap_append, ← List.filter_append]
      rfl
    rw [List.foldl_cons, ih _ (get?_take h call), hsplit, List.append_assoc]

theorem get?_recorded (o : OutputId) (calls : List (OutputId × List Single)) :
    (recorded calls).get? o = (Bounds.ofValues (valuesAt o calls)).toOption :=
  get?_foldl_take [] rfl calls

/-- **Calibration does not depend on batches or order.** After any calls on an empty table,
some of them perhaps refused, and for every connector:

* the range recorded is the range of all its values in one batch, and there is none if it
  was given no value;
* its ends are among the values, and no value that is a number lies outside; with no such
  value both ends are NaN;
* calls that bring the same values in another order, in other batches and among other
  calls for other connectors, record a range with the same ends, up to the sign of a zero.

A call is refused exactly if it brings no value, and the table then stays as it was. -/
theorem recording_order_free (calls : List (OutputId × List Single)) (o : OutputId) :
    (recorded calls).get? o = (Bounds.ofValues (valuesAt o calls)).toOption ∧
    (∀ b, (recorded calls).get? o = some b →
      b.low ∈ valuesAt o calls ∧ b.high ∈ valuesAt o calls ∧
      (∀ v ∈ valuesAt o calls, v ≠ .nan → b.low ≤ v ∧ v ≤ b.high) ∧
      ((∀ v ∈ valuesAt o calls, v = .nan) → b = ⟨.nan, .nan⟩)) ∧
    (∀ calls', (valuesAt o calls).Perm (valuesAt o calls') →
      ((recorded calls).get? o).map Bounds.places =
        ((recorded calls').get? o).map Bounds.places) ∧
    (∀ (c : Calibration) values e,
      c.record o values = .error e ↔ values = [] ∧ e = .emptyRange) ∧
    ∀ c : Calibration, c.take (o, []) = c := by
  refine ⟨get?_recorded o calls, fun b hb => ?_, fun calls' hperm => ?_,
    fun c values e => record_eq_error, fun c => rfl⟩
  · rw [get?_recorded] at hb
    have hvalues : Bounds.ofValues (valuesAt o calls) = .ok b := by
      cases h : Bounds.ofValues (valuesAt o calls) with
      | error e =>
        rw [h] at hb
        cases hb
      | ok b' =>
        rw [h] at hb
        cases hb
        rfl
    obtain ⟨hlow, hhigh, hbetween⟩ := Bounds.extremes_of_ofValues hvalues
    refine ⟨hlow, hhigh, hbetween, fun hnan => ?_⟩
    obtain ⟨low, high⟩ := b
    have hlow : low = .nan := hnan low hlow
    have hhigh : high = .nan := hnan high hhigh
    rw [hlow, hhigh]
  · rw [get?_recorded, get?_recorded]
    exact Bounds.places_of_perm hperm

end Calibration

end FixedNet
