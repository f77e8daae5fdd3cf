/-
**Flags on nodes and connectors.** A set of flags. There is one flag so far: the
tensor belongs to a region to be quantised.
-/

set_option autoImplicit false

namespace FixedNet

/-- A set of flags. -/
structure Attributes where
  needsQuantize : Bool := false
deriving DecidableEq

namespace Attributes

/-- No flag. -/
def empty : Attributes := {}

/-- The flag of a region to be quantised. -/
def quantize : Attributes := { needsQuantize := true }

/-- The flags of either set. -/
def union (a b : Attributes) : Attributes := ⟨a.needsQuantize || b.needsQuantize⟩

/-- The flags of the first set that are not in the second. -/
def diff (a b : Attributes) : Attributes := ⟨a.needsQuantize && !b.needsQuantize⟩

/-- Whether every flag of the second set is in the first. -/
def contains (a b : Attributes) : Bool := a.needsQuantize || !b.needsQuantize

/-- Whether no flag is set. -/
def isEmpty (a : Attributes) : Bool := !a.needsQuantize

instance : ToString Attributes :=
  ⟨fun a => if a.needsQuantize then "needs_quantize" else "none"⟩

theorem contains_union_quantize (a : Attributes) : (a.union .quantize).contains .quantize := by
  simp [contains, union, quantize]

/-- A flag that is set already is not set anew. -/
theorem union_quantize_of_contains {a : Attributes} (h : a.contains .quantize) :
    a.union .quantize = a := by
  obtain ⟨flag⟩ := a
  cases flag with
  | false => cases h
  | true => rfl

end Attributes

end FixedNet
