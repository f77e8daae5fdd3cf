/-
**Arithmetic and order on binary floating-point numbers.**

Each operation computes its exact result in units and rounds once through
`Binary.nearest`; NaN, infinities and the sign of zero are settled beforehand.
The order is the order of the extended line, on which `position` places every
number but the NaN, and the two zeros share a place.
-/
import FixedNet.Binary.Basic

set_option autoImplicit false

namespace FixedNet.Binary

variable {f : Format}

/-! ## Arithmetic -/

/-- A count of units with its sign, as an integer. -/
def signed (negative : Bool) (units : Nat) : Int :=
  if negative then -(units : Int) else units

/-- Flips the sign. -/
def negate : Binary f → Binary f
  | .nan => .nan
  | .infinite s => .infinite !s
  | .finite s u h => .finite (!s) u h

/-- The rounded sum. An exact zero is negative only if both terms are. -/
def add : Binary f → Binary f → Binary f
  | .nan, _ => .nan
  | _, .nan => .nan
  | .infinite s, .infinite t => if s = t then .infinite s else .nan
  | .infinite s, .finite .. => .infinite s
  | .finite .., .infinite t => .infinite t
  | .finite s u _, .finite t v _ =>
    let sum := signed s u + signed t v
    nearest (if sum = 0 then s && t else decide (sum < 0)) sum.natAbs 1

/-- The rounded product. -/
def mul : Binary f → Binary f → Binary f
  | .nan, _ => .nan
  | _, .nan => .nan
  | .infinite s, .infinite t => .infinite (s != t)
  | .infinite s, .finite t v _ => if v = 0 then .nan else .infinite (s != t)
  | .finite s u _, .infinite t => if u = 0 then .nan else .infinite (s != t)
  | .finite s u _, .finite t v _ => nearest (s != t) (u * v) (2 ^ f.unitBits)

/-- The rounded quotient. -/
def div : Binary f → Binary f → Binary f
  | .nan, _ => .nan
  | _, .nan => .nan
  | .infinite _, .infinite _ => .nan
  | .infinite s, .finite t _ _ => .infinite (s != t)
  | .finite s _ _, .infinite t => zero (s != t)
  | .finite s u _, .finite t v _ =>
    if v = 0 then if u = 0 then .nan else .infinite (s != t)
    else nearest (s != t) (u * 2 ^ f.unitBits) v

instance : Neg (Binary f) := ⟨negate⟩
instance : Add (Binary f) := ⟨add⟩
instance : Sub (Binary f) := ⟨fun a b => a + -b⟩
instance : Mul (Binary f) := ⟨mul⟩
instance : Div (Binary f) := ⟨div⟩

/-! ## Numbers from integers and from other formats -/

/-- The number nearest to an integer. -/
def ofInt (n : Int) : Binary f :=
  nearest (decide (n < 0)) (n.natAbs * 2 ^ f.unitBits) 1

/-- The number nearest to the fraction `num / den`. -/
def ofFraction (num den : Nat) : Binary f := nearest false (num * 2 ^ f.unitBits) den

/-- The number nearest to a number of another format. -/
def convert {g : Format} (f : Format) : Binary g → Binary f
  | .nan => .nan
  | .infinite s => .infinite s
  | .finite s u _ => nearest s (u * 2 ^ f.unitBits) (2 ^ g.unitBits)

/-- The power of two with exponent `e`, zero below the unit and infinite beyond
the range. -/
def twoPow (e : Int) : Binary f :=
  if e + f.unitBits < 0 then zero false
  else if f.magnitudeBits ≤ e + f.unitBits then .infinite false
  else nearest false (2 ^ (e + f.unitBits).toNat) 1

/-! ## Order -/

/-- The place on the extended line, in units. The infinities stand at the first
count of units that is out of range; a NaN has no place. -/
def position : Binary f → Option Int
  | .nan => none
  | .infinite s => some (signed s (2 ^ f.magnitudeBits))
  | .finite s u _ => some (signed s u)

/-- Whether both numbers have a place and the first stands strictly before. -/
def lt (a b : Binary f) : Bool :=
  match a.position, b.position with
  | some x, some y => decide (x < y)
  | _, _ => false

/-- Whether both numbers have a place and the first does not stand after. -/
def le (a b : Binary f) : Bool :=
  match a.position, b.position with
  | some x, some y => decide (x ≤ y)
  | _, _ => false

instance : LT (Binary f) := ⟨fun a b => a.lt b = true⟩
instance : LE (Binary f) := ⟨fun a b => a.le b = true⟩

instance (a b : Binary f) : Decidable (a < b) := inferInstanceAs (Decidable (a.lt b = true))
instance (a b : Binary f) : Decidable (a ≤ b) := inferInstanceAs (Decidable (a.le b = true))

theorem position_eq_none_iff {x : Binary f} : x.position = none ↔ x = .nan := by
  cases x <;> simp [position]

theorem lt_iff {a b : Binary f} :
    a < b ↔ ∃ x y, a.position = some x ∧ b.position = some y ∧ x < y := by
  change a.lt b = true ↔ _
  unfold lt
  cases a.position with
  | none => simp
  | some x => cases b.position <;> simp

theorem le_iff {a b : Binary f} :
    a ≤ b ↔ ∃ x y, a.position = some x ∧ b.position = some y ∧ x ≤ y := by
  change a.le b = true ↔ _
  unfold le
  cases a.position with
  | none => simp
  | some x => cases b.position <;> simp

/-- Whether the number is neither a NaN nor infinite. -/
def isFinite : Binary f → Bool
  | .finite .. => true
  | _ => false

/-- The lesser of two numbers. A NaN yields to the other one. -/
def min (a b : Binary f) : Binary f :=
  if a = .nan then b else if b < a then b else a

/-- The greater of two numbers. A NaN yields to the other one. -/
def max (a b : Binary f) : Binary f :=
  if a = .nan then b else if a < b then b else a

/-! ## Integers from numbers -/

/-- The integer nearest to a signed count of units, a tie going away from zero. -/
def roundHalfAway (f : Format) (negative : Bool) (units : Nat) : Int :=
  signed negative ((2 * units + 2 ^ f.unitBits) / 2 ^ (f.unitBits + 1))

/-- The nearest integer, a tie going away from zero; none without a finite
value. -/
def toInt? : Binary f → Option Int
  | .finite s u _ => some (roundHalfAway f s u)
  | _ => none

/-- The nearest integer held within `0` and `top`. The infinities give the two
ends, and a NaN gives zero. -/
def clampTo (x : Binary f) (top : Nat) : Nat :=
  match x with
  | .nan => 0
  | .infinite s => if s then 0 else top
  | .finite s u _ => Nat.min (roundHalfAway f s u).toNat top

end FixedNet.Binary
