/-
**Exact values.** A finite number of a binary format is a rational, its count of units
times the unit. This file says when the arithmetic of a format gives the exact value:

* Rounding leaves alone every count of units that the format holds
  (`Binary.nearest_of_fits`). All exactness comes from this.
* A single scaled by a power of two keeps its significand, so its product with a moderate
  power of two is exact in double precision (`Binary.value?_mul_twoPow`).
* Rounding a number to an integer is rounding its value, a tie going away from zero
  (`Binary.toInt?_eq`).
-/
import FixedNet.Binary.Arithmetic
import Mathlib.Algebra.Order.Field.Power
import Mathlib.Data.Rat.Floor
import Mathlib.Tactic.Linarith

set_option autoImplicit false

namespace FixedNet

/-! ## Counts that a format holds -/

theorem roundHalfEven_mul (n : Nat) {den : Nat} (h : 0 < den) :
    roundHalfEven (n * den) den = n := by
  simp [roundHalfEven, Nat.mul_div_cancel _ h, h]

namespace Format

variable {f g : Format} {units : Nat}

/-- A count that the format holds is a multiple of the spacing at its magnitude. -/
theorem Fits.two_pow_excess_dvd (h : f.Fits units) : 2 ^ f.excess units ∣ units := by
  obtain ⟨-, m, k, hm, rfl⟩ := h
  rcases Nat.eq_zero_or_pos (m * 2 ^ k) with hzero | hpos
  · simp [hzero]
  have hlog : (m * 2 ^ k).log2 < f.precision + k := by
    rw [Nat.log2_lt (by omega), Nat.pow_add]
    exact Nat.mul_lt_mul_of_pos_right hm (Nat.two_pow_pos k)
  have hle : f.excess (m * 2 ^ k) ≤ k := by
    unfold excess
    omega
  exact Nat.dvd_trans (Nat.pow_dvd_pow 2 hle) (Nat.dvd_mul_left _ _)

theorem roundUnits_of_fits (h : f.Fits units) {den : Nat} (hden : 0 < den) :
    f.roundUnits (units * den) den = units := by
  obtain ⟨q, hq⟩ := h.two_pow_excess_dvd
  have hquotient : units * den = q * (den * 2 ^ f.excess units) := by
    conv_lhs => rw [hq]
    ac_rfl
  unfold roundUnits
  dsimp only
  rw [Nat.mul_div_cancel _ hden, hquotient,
    roundHalfEven_mul q (Nat.mul_pos hden (Nat.two_pow_pos _)), Nat.mul_comm, ← hq]

/-- `f` holds every number of `g`, also moved by up to `margin` binary places: its
precision is no less, and its unit and its range leave room on both sides. -/
structure Extends (f g : Format) (margin : Nat) : Prop where
  precision : g.precision ≤ f.precision
  below : g.unitBits + margin ≤ f.unitBits
  above : g.magnitudeBits + (f.unitBits - g.unitBits) + margin ≤ f.magnitudeBits
  one : f.unitBits + margin < f.magnitudeBits

/-- Doubles extend singles by far more than thirty-two places. -/
theorem double_extends_single : double.Extends single 32 := by
  constructor <;> decide

theorem Extends.fits {margin : Nat} (h : f.Extends g margin) (hunits : g.Fits units) {k : Nat}
    (hk : k ≤ f.unitBits - g.unitBits + margin) : f.Fits (units * 2 ^ k) := by
  have habove := h.above
  obtain ⟨hlt, m, j, hm, rfl⟩ := hunits
  refine ⟨?_, m, j + k, ?_, ?_⟩
  · calc m * 2 ^ j * 2 ^ k < 2 ^ g.magnitudeBits * 2 ^ k :=
        Nat.mul_lt_mul_of_pos_right hlt (Nat.two_pow_pos k)
      _ = 2 ^ (g.magnitudeBits + k) := (Nat.pow_add ..).symm
      _ ≤ 2 ^ f.magnitudeBits := Nat.pow_le_pow_right (by decide) (by omega)
  · exact Nat.lt_of_lt_of_le hm (Nat.pow_le_pow_right (by decide) h.precision)
  · rw [Nat.pow_add, Nat.mul_assoc]

theorem fits_two_pow {k : Nat} (h : k < f.magnitudeBits) : f.Fits (2 ^ k) := by
  refine ⟨Nat.pow_lt_pow_right (by decide) h, 1, k, ?_, (Nat.one_mul _).symm⟩
  exact Nat.one_lt_two_pow (by have := f.one_le_precision; omega)

end Format

namespace Binary

variable {f g : Format} {units : Nat}

/-- **Rounding is exact** on what the format holds. -/
theorem nearest_of_fits (negative : Bool) (h : f.Fits units) {den : Nat} (hden : 0 < den) :
    (nearest negative (units * den) den : Binary f) = .finite negative units h := by
  have hunits := f.roundUnits_of_fits h hden
  unfold nearest
  rw [dif_pos (by rw [hunits]; exact h.1)]
  simp only [hunits]

/-! ## Values -/

/-- The value of a finite number. -/
def value? : Binary f → Option ℚ
  | .finite s u _ => some ((signed s u : ℚ) * 2 ^ (-(f.unitBits : ℤ)))
  | _ => none

theorem isFinite_iff {x : Binary f} : x.isFinite ↔ ∃ r, x.value? = some r := by
  cases x <;> simp [isFinite, value?]

/-- Zero divides the numbers as it divides their values. -/
theorem not_le_zero_iff {x : Binary f} {r : ℚ} (h : x.value? = some r) :
    ¬x ≤ .zero false ↔ 0 < r := by
  cases x with
  | nan => simp [value?] at h
  | infinite s => simp [value?] at h
  | finite s u hu =>
    have hle : (.finite s u hu : Binary f) ≤ .zero false ↔ signed s u ≤ 0 := decide_eq_true_iff
    simp only [value?, Option.some.injEq] at h
    rw [hle, not_le, ← h, mul_pos_iff_of_pos_right (zpow_pos two_pos _), Int.cast_pos]

/-! ## Scaling by a power of two -/

theorem signed_mul (negative : Bool) (a b : Nat) :
    signed negative (a * b) = signed negative a * b := by
  cases negative <;> simp [signed]

theorem twoPow_eq {e : Int} (hlow : 0 ≤ e + f.unitBits)
    (hhigh : e + f.unitBits < f.magnitudeBits) :
    (twoPow e : Binary f) =
      .finite false (2 ^ (e + f.unitBits).toNat) (Format.fits_two_pow (by omega)) := by
  unfold twoPow
  rw [if_neg (by omega), if_neg (by omega)]
  have hfits : f.Fits (2 ^ (e + f.unitBits).toNat) := Format.fits_two_pow (by omega)
  simpa using nearest_of_fits false hfits Nat.one_pos

section Extends

variable {margin : Nat} (h : f.Extends g margin)
include h

theorem convert_finite (negative : Bool) (hunits : g.Fits units) :
    (finite negative units hunits).convert f =
      .finite negative (units * 2 ^ (f.unitBits - g.unitBits))
        (h.fits hunits (Nat.le_add_right _ _)) := by
  have hbelow := h.below
  have hpow : 2 ^ f.unitBits = 2 ^ (f.unitBits - g.unitBits) * 2 ^ g.unitBits := by
    rw [← Nat.pow_add, Nat.sub_add_cancel (by omega)]
  simp only [convert]
  rw [hpow, ← Nat.mul_assoc, nearest_of_fits negative _ (Nat.two_pow_pos _)]

/-- Within the margin, the product with a power of two only moves the count of units. -/
theorem convert_mul_twoPow (negative : Bool) (hunits : g.Fits units) {e : Int}
    (hlow : -margin ≤ e) (hhigh : e ≤ margin) :
    ∃ hfits : f.Fits (units * 2 ^ (e + (f.unitBits - g.unitBits : ℕ)).toNat),
      (finite negative units hunits).convert f * twoPow e = .finite negative _ hfits := by
  have hbelow := h.below
  have hone := h.one
  have hfits := h.fits hunits (k := (e + (f.unitBits - g.unitBits : ℕ)).toNat) (by omega)
  have hpow : 2 ^ (f.unitBits - g.unitBits) * 2 ^ (e + f.unitBits).toNat =
      2 ^ (e + (f.unitBits - g.unitBits : ℕ)).toNat * 2 ^ f.unitBits := by
    rw [← Nat.pow_add, ← Nat.pow_add]
    congr 1
    omega
  refine ⟨hfits, ?_⟩
  rw [convert_finite h, twoPow_eq (by omega) (by omega)]
  change nearest (negative != false) (units * 2 ^ (f.unitBits - g.unitBits) *
    2 ^ (e + f.unitBits).toNat) (2 ^ f.unitBits) = _
  rw [Nat.mul_assoc, hpow, ← Nat.mul_assoc, nearest_of_fits _ hfits (Nat.two_pow_pos _),
    Bool.bne_false]

/-- **Scaling is exact.** Taken in the extending format, the product with a power of two
within the margin has the exact product as its value, for subnormal numbers too. -/
theorem value?_mul_twoPow {x : Binary g} {r : ℚ} (hr : x.value? = some r) {e : Int}
    (hlow : -margin ≤ e) (hhigh : e ≤ margin) :
    (x.convert f * .twoPow e).value? = some (r * 2 ^ e) := by
  cases x with
  | nan => simp [value?] at hr
  | infinite s => simp [value?] at hr
  | finite s u hu =>
    obtain ⟨hfits, hproduct⟩ := convert_mul_twoPow h s hu hlow hhigh
    have hbelow := h.below
    have hexponent : ((2 ^ (e + (f.unitBits - g.unitBits : ℕ)).toNat : ℕ) : ℚ) *
        2 ^ (-(f.unitBits : ℤ)) = 2 ^ (-(g.unitBits : ℤ)) * 2 ^ e := by
      rw [Nat.cast_pow, Nat.cast_ofNat, ← zpow_natCast, ← zpow_add₀ two_ne_zero,
        ← zpow_add₀ two_ne_zero]
      congr 1
      omega
    simp only [value?, Option.some.injEq] at hr
    simp only [hproduct, value?, Option.some.injEq, ← hr, signed_mul, Int.cast_mul,
      Int.cast_natCast]
    rw [mul_assoc, mul_assoc, hexponent]

end Extends

end Binary

/-! ## Rounding to an integer -/

/-- The integer nearest to a rational, a tie going away from zero. -/
def halfAway (q : ℚ) : ℤ := if q < 0 then -⌊1 / 2 - q⌋ else ⌊q + 1 / 2⌋

theorem halfAway_of_nonneg {q : ℚ} (h : 0 ≤ q) : halfAway q = ⌊q + 1 / 2⌋ :=
  if_neg (not_lt.2 h)

theorem halfAway_neg (q : ℚ) : halfAway (-q) = -halfAway q := by
  rcases lt_trichotomy q 0 with h | rfl | h
  · rw [halfAway_of_nonneg (by linarith), halfAway, if_pos h, neg_neg]
    congr 1
    ring
  · have hzero : ⌊(0 : ℚ) + 1 / 2⌋ = 0 := Int.floor_eq_iff.2 (by norm_num)
    rw [neg_zero, halfAway_of_nonneg le_rfl, hzero, neg_zero]
  · rw [halfAway_of_nonneg h.le, halfAway, if_pos (by linarith)]
    congr 2
    ring

theorem halfAway_units (units bits : ℕ) :
    halfAway ((units : ℚ) * 2 ^ (-(bits : ℤ))) =
      ((2 * units + 2 ^ bits) / 2 ^ (bits + 1) : ℕ) := by
  have hvalue : (units : ℚ) * 2 ^ (-(bits : ℤ)) + 1 / 2 =
      ((2 * units + 2 ^ bits : ℕ) : ℚ) / ((2 ^ (bits + 1) : ℕ) : ℚ) := by
    push_cast
    rw [zpow_neg, zpow_natCast, pow_succ]
    field_simp
  rw [halfAway_of_nonneg (by positivity), hvalue, Rat.floor_natCast_div_natCast]
  norm_cast

theorem Binary.toInt?_eq {f : Format} (x : Binary f) : x.toInt? = x.value?.map halfAway := by
  cases x with
  | nan => rfl
  | infinite s => rfl
  | finite s u h =>
    have hunits := halfAway_units u f.unitBits
    cases s with
    | false =>
      simp only [toInt?, value?, Option.map_some, roundHalfAway, signed, Bool.false_eq_true,
        if_false, Int.cast_natCast, hunits]
    | true =>
      simp only [toInt?, value?, Option.map_some, roundHalfAway, signed, if_true, Int.cast_neg,
        Int.cast_natCast, neg_mul, halfAway_neg, hunits]

end FixedNet
