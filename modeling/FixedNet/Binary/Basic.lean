/-
**Binary floating point, every finite value a whole number of units.**

The smallest positive value of a binary interchange format divides every other
finite value of that format, so a finite number is fixed by its sign and by how
many of these units it holds. This file takes that count as the number itself.
There is no separate exponent to normalise: two finite numbers of one sign are
equal exactly when their counts are, exact sums and products are sums and
products of natural numbers, and rounding is the only place where the format's
precision enters.

* `Format` gives the width and the precision; unit and range follow from them.
* `Binary` is a number of the format: a NaN, a signed infinity or a signed
  count of units that the format can hold.
* `Binary.nearest` rounds a quotient of naturals to the format, ties to the even
  significand. All arithmetic is exact arithmetic followed by this one function.
* `Binary.ofBits` and `Binary.toBits` read and write the encoding in bits.
-/
import FixedNet.Word

set_option autoImplicit false

namespace FixedNet

/-! ## Formats -/

/-- A binary interchange format. `width` counts all bits of the encoding and
`precision` the bits of a significand, its leading one included. -/
structure Format where
  width : Nat
  precision : Nat
  one_le_precision : 1 ≤ precision := by decide
  precision_lt_width : precision + 2 ≤ width := by decide
deriving DecidableEq

namespace Format

/-- The 32-bit format: 24 bits of significand. -/
def single : Format := ⟨32, 24, by decide, by decide⟩

/-- The 64-bit format: 53 bits of significand. -/
def double : Format := ⟨64, 53, by decide, by decide⟩

variable (f : Format)

/-- The unit, the smallest positive value, is `2 ^ -unitBits`. -/
def unitBits : Nat := 2 ^ (f.width - f.precision - 1) + f.precision - 3

/-- Finite magnitudes are below `2 ^ magnitudeBits` units. -/
def magnitudeBits : Nat := f.precision + 2 ^ (f.width - f.precision) - 3

/-- The format holds `units` units: they are below the range, and their binary
form has at most `precision` digits once trailing zeros are dropped. -/
def Fits (units : Nat) : Prop :=
  units < 2 ^ f.magnitudeBits ∧ ∃ m k, m < 2 ^ f.precision ∧ units = m * 2 ^ k

/-- How many low bits a magnitude of `units` units has beyond the precision. The
values of the format near `units` are the multiples of `2 ^ excess`. -/
def excess (units : Nat) : Nat := units.log2 + 1 - f.precision

@[simp] theorem unitBits_single : single.unitBits = 149 := rfl

@[simp] theorem magnitudeBits_single : single.magnitudeBits = 277 := rfl

@[simp] theorem unitBits_double : double.unitBits = 1074 := rfl

@[simp] theorem magnitudeBits_double : double.magnitudeBits = 2098 := rfl

theorem fits_zero : f.Fits 0 :=
  ⟨Nat.two_pow_pos _, 0, 0, Nat.two_pow_pos _, by simp⟩

theorem lt_two_pow_excess (units : Nat) : units < 2 ^ (f.precision + f.excess units) := by
  refine Nat.lt_of_lt_of_le Nat.lt_log2_self (Nat.pow_le_pow_right (by decide) ?_)
  unfold excess
  omega

end Format

/-! ## Rounding a quotient -/

/-- The integer nearest to `num / den`, a tie going to the even neighbour. -/
def roundHalfEven (num den : Nat) : Nat :=
  let floor := num / den
  let twice := 2 * (num % den)
  if twice < den then floor
  else if den < twice then floor + 1
  -- A tie: an even floor stays, an odd one goes up.
  else floor + floor % 2

theorem roundHalfEven_le (num den : Nat) : roundHalfEven num den ≤ num / den + 1 := by
  have := Nat.mod_lt (num / den) (show 0 < 2 by decide)
  unfold roundHalfEven
  dsimp only
  split
  · omega
  · split <;> omega

/-- The count of units nearest to `num / den` units among the multiples of the
format's spacing at that magnitude. -/
def Format.roundUnits (f : Format) (num den : Nat) : Nat :=
  let spacing := 2 ^ f.excess (num / den)
  roundHalfEven num (den * spacing) * spacing

/-- A rounded count has no more digits than the format holds: it is at most
`2 ^ precision` times the spacing, and that largest count is a power of two. -/
theorem Format.roundUnits_digits (f : Format) (num den : Nat) :
    ∃ m k, m < 2 ^ f.precision ∧ f.roundUnits num den = m * 2 ^ k := by
  have hfloor : num / (den * 2 ^ f.excess (num / den)) < 2 ^ f.precision := by
    rw [← Nat.div_div_eq_div_mul, Nat.div_lt_iff_lt_mul (Nat.two_pow_pos _), ← Nat.pow_add]
    exact f.lt_two_pow_excess _
  have hround := roundHalfEven_le num (den * 2 ^ f.excess (num / den))
  rcases Nat.lt_or_ge (roundHalfEven num (den * 2 ^ f.excess (num / den))) (2 ^ f.precision)
    with h | h
  · exact ⟨_, _, h, rfl⟩
  · have heq : roundHalfEven num (den * 2 ^ f.excess (num / den)) = 2 ^ f.precision := by omega
    refine ⟨1, f.precision + f.excess (num / den), ?_, ?_⟩
    · exact Nat.one_lt_two_pow (by have := f.one_le_precision; omega)
    · simp [roundUnits, heq, Nat.pow_add]

/-! ## Numbers -/

/-- A number of the format `f`. Zero comes with either sign; all NaNs are one. -/
inductive Binary (f : Format) where
  | nan
  | infinite (negative : Bool)
  | finite (negative : Bool) (units : Nat) (fits : f.Fits units)
deriving DecidableEq

/-- A number of the 32-bit format. -/
abbrev Single := Binary .single

/-- A number of the 64-bit format. -/
abbrev Double := Binary .double

namespace Binary

variable {f : Format}

/-- Zero with the given sign. -/
def zero (negative : Bool) : Binary f := .finite negative 0 f.fits_zero

instance : Inhabited (Binary f) := ⟨zero false⟩

/-- The number nearest to `num / den` units with the given sign. Ties go to the
even significand, and what rounds beyond the range becomes infinite. -/
def nearest (negative : Bool) (num den : Nat) : Binary f :=
  if h : f.roundUnits num den < 2 ^ f.magnitudeBits then
    .finite negative (f.roundUnits num den) ⟨h, f.roundUnits_digits num den⟩
  else
    .infinite negative

/-! ## Encoding -/

/-- The count of units that an exponent field below its largest value and a
fraction field encode: a zero field is the subnormal range, every other field
adds the hidden leading one. -/
def decodeUnits (f : Format) (exponent fraction : Nat) : Nat :=
  if exponent = 0 then fraction
  else (2 ^ (f.precision - 1) + fraction) * 2 ^ (exponent - 1)

theorem fits_decodeUnits {exponent fraction : Nat}
    (he : exponent < 2 ^ (f.width - f.precision) - 1)
    (hf : fraction < 2 ^ (f.precision - 1)) :
    f.Fits (decodeUnits f exponent fraction) := by
  have hp := f.one_le_precision
  have hpow : 2 ^ f.precision = 2 * 2 ^ (f.precision - 1) := by
    rw [← Nat.pow_succ', Nat.succ_eq_add_one, Nat.sub_add_cancel hp]
  unfold decodeUnits
  split
  · refine ⟨Nat.lt_of_lt_of_le hf (Nat.pow_le_pow_right (by decide) ?_), fraction, 0, ?_, ?_⟩
    · have : 2 ^ 2 ≤ 2 ^ (f.width - f.precision) :=
        Nat.pow_le_pow_right (by decide) (by have := f.precision_lt_width; omega)
      unfold Format.magnitudeBits
      omega
    · omega
    · simp
  · refine ⟨?_, _, _, (by omega : 2 ^ (f.precision - 1) + fraction < 2 ^ f.precision), rfl⟩
    calc (2 ^ (f.precision - 1) + fraction) * 2 ^ (exponent - 1)
        < 2 ^ f.precision * 2 ^ (exponent - 1) :=
          Nat.mul_lt_mul_of_pos_right (by omega) (Nat.two_pow_pos _)
      _ = 2 ^ (f.precision + (exponent - 1)) := (Nat.pow_add ..).symm
      _ ≤ 2 ^ f.magnitudeBits :=
          Nat.pow_le_pow_right (by decide) (by unfold Format.magnitudeBits; omega)

/-- Reads an encoding: from the top a sign bit, the exponent field and the
fraction field. Only the low `width` bits of `bits` count. -/
def ofBits (bits : Nat) : Binary f :=
  let negative := bits / 2 ^ (f.width - 1) % 2 = 1
  let exponent := bits / 2 ^ (f.precision - 1) % 2 ^ (f.width - f.precision)
  let fraction := bits % 2 ^ (f.precision - 1)
  if h : exponent < 2 ^ (f.width - f.precision) - 1 then
    .finite negative (decodeUnits f exponent fraction)
      (fits_decodeUnits h (Nat.mod_lt _ (Nat.two_pow_pos _)))
  else if fraction = 0 then .infinite negative
  else .nan

/-- The sign bit of an encoding. -/
def signBits (f : Format) (negative : Bool) : Nat :=
  if negative then 2 ^ (f.width - 1) else 0

/-- Writes the encoding. A finite magnitude drops its excess bits, and each
dropped bit counts the exponent field up by one; the leading one of a normal
significand carries into that field. The NaN is written as the quiet NaN. -/
def toBits : Binary f → Nat
  | .nan => (2 ^ (f.width - f.precision + 1) - 1) * 2 ^ (f.precision - 2)
  | .infinite negative =>
    signBits f negative + (2 ^ (f.width - f.precision) - 1) * 2 ^ (f.precision - 1)
  | .finite negative units _ =>
    signBits f negative + f.excess units * 2 ^ (f.precision - 1) + units / 2 ^ f.excess units

end Binary

end FixedNet
