/-
**Calibration.** A table of the ranges observed at output connectors. It is kept
in the order of the connectors with one entry for each, so two tables that agree
on every connector are equal.
-/
import FixedNet.Quantize.Derive

set_option autoImplicit false

namespace FixedNet

/-- The ranges observed so far. -/
structure Calibration where
  entries : List (OutputId × Bounds) := []
deriving DecidableEq

namespace Calibration

instance : Inhabited Calibration := ⟨{}⟩

/-- The entries with the one for `o` put in place, in the order of connectors. -/
def put (o : OutputId) (b : Bounds) : List (OutputId × Bounds) → List (OutputId × Bounds)
  | [] => [(o, b)]
  | e :: rest =>
    if o = e.1 then (o, b) :: rest
    else if o.before e.1 then (o, b) :: e :: rest
    else e :: put o b rest

variable (c : Calibration)

/-- The range recorded for a connector. -/
def get? (o : OutputId) : Option Bounds := c.entries.lookup o

/-- Whether a range is recorded for a connector. -/
def contains (o : OutputId) : Bool := (c.get? o).isSome

/-- The number of connectors with a range. -/
def size : Nat := c.entries.length

/-- The range recorded for a connector, or the connector that lacks one. -/
def get (o : OutputId) : Except DerivationError Bounds :=
  match c.get? o with
  | some b => .ok b
  | none => .error (.missingCalibration o)

/-- Records a range in place of what was recorded. -/
def insert (o : OutputId) (b : Bounds) : Calibration := ⟨put o b c.entries⟩

theorem lookup_cons_eq {κ β : Type} [DecidableEq κ] (k p : κ) (b : β) (rest : List (κ × β)) :
    ((k, b) :: rest).lookup p = if p = k then some b else rest.lookup p := by
  by_cases h : p = k
  · simp [h]
  · rw [List.lookup_cons, beq_eq_false_iff_ne.2 h, if_neg h]

theorem lookup_map_pair {κ β : Type} [DecidableEq κ] (v : κ → β) (l : List κ) (p : κ) :
    (l.map fun k => (k, v k)).lookup p = if p ∈ l then some (v p) else none := by
  induction l with
  | nil => rfl
  | cons k l ih =>
    rw [List.map_cons, lookup_cons_eq, ih]
    by_cases hp : p = k
    · simp [hp]
    · simp [hp]

/-- Recording a range changes what is recorded for that connector only. -/
theorem get?_insert (o p : OutputId) (b : Bounds) :
    (c.insert o b).get? p = if p = o then some b else c.get? p := by
  unfold insert get?
  induction c.entries with
  | nil => simp [put, lookup_cons_eq]
  | cons e rest ih =>
    obtain ⟨k, d⟩ := e
    by_cases hk : o = k
    · by_cases hp : p = k <;> simp [put, lookup_cons_eq, hk, hp]
    · by_cases hb : o.before k = true
      · simp [put, lookup_cons_eq, hk, hb]
      · by_cases hp : p = k
        · simp [put, hk, hb, hp, Ne.symm hk]
        · simpa [put, lookup_cons_eq, hk, hb, hp] using ih

/-- Widens the recorded range so that it holds the observed values. -/
def record (o : OutputId) (values : List Single) : Except DerivationError Calibration := do
  let observed ← Bounds.ofValues values
  return c.insert o ((c.get? o).elim observed (·.union observed))

/-- Gives `new` the range recorded for `old`. -/
def copy (old new : OutputId) : Except DerivationError Calibration := do
  return c.insert new (← c.get old)

end Calibration

end FixedNet
