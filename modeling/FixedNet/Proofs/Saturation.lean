/-
**Saturation that cannot be seen.** Requantising multiplies an accumulator and adds half a
unit in the last place, and both may leave the signed 64-bit range, where they saturate.
The code is the one that exact arithmetic gives all the same, as long as the shift leaves
at least eight bits of a saturated word: what is lost lies beyond a byte then, on the same
side as the exact result (`Multiplier.toCode_eq_of_shift_le`).

With fifty-five places the largest word still shifts to 255. With fifty-six it shifts to
127, although that shift is accepted, so the bound is the best there is.
-/
import FixedNet.Proofs.Parameters
import Mathlib.Data.Rat.Floor
import Mathlib.Tactic.Ring

set_option autoImplicit false

namespace FixedNet

/-! ## Sums that saturate -/

/-- A product and a positive term, each added with saturation: either the exact sum, or both
the sums are at the top of the range or beyond, or both are within the term doubled of its
bottom or below. -/
theorem saturate_add_cases (product : Int) {half : Int} (hpos : 0 < half) (hle : half < 2 ^ 62) :
    saturate (saturate product + half) = product + half ∨
    (2 ^ 63 - 1 ≤ saturate (saturate product + half) ∧ 2 ^ 63 - 1 ≤ product + half) ∨
    (saturate (saturate product + half) < -2 ^ 63 + 2 * half ∧
      product + half < -2 ^ 63 + 2 * half) := by
  rcases Int.lt_or_le product (-2 ^ 63) with hlow | hlow
  · rw [saturate_of_lt hlow, saturate_of_mem (by omega) (by omega)]
    omega
  rcases Int.lt_or_le product (2 ^ 63) with hhigh | hhigh
  · rw [saturate_of_mem hlow hhigh]
    rcases Int.lt_or_le (product + half) (2 ^ 63) with hsum | hsum
    · exact .inl (saturate_of_mem (by omega) hsum)
    · rw [saturate_of_ge hsum]
      omega
  · rw [saturate_of_ge hhigh, saturate_of_ge (by omega)]
    omega

/-! ## Codes -/

/-- An integer scaled down by `scale`, moved by an offset and held within a byte. -/
def byteOf (scale offset x : Int) : Int := max 0 (min (x / scale + offset) 255)

section Beyond

variable {scale words offset : Int} (hscale : 0 < scale) (hword : scale * words = 2 ^ 63)
  (hwords : 256 ≤ words) (hoffset : 0 ≤ offset ∧ offset ≤ 255)
include hscale hword hwords hoffset

/-- At the top of the signed range the byte is full. -/
theorem byteOf_of_ge {x : Int} (h : 2 ^ 63 - 1 ≤ x) : byteOf scale offset x = 255 := by
  have hquotient : words - 1 ≤ x / scale := by
    rw [Int.le_ediv_iff_mul_le hscale, Int.sub_mul, Int.one_mul, Int.mul_comm, hword]
    omega
  unfold byteOf
  omega

/-- Within one unit of the scale of the bottom of the signed range the byte is zero. -/
theorem byteOf_of_lt {x : Int} (h : x < -2 ^ 63 + scale) : byteOf scale offset x = 0 := by
  have hquotient : x / scale < -words + 1 := by
    rw [Int.ediv_lt_iff_lt_mul hscale, Int.add_mul, Int.one_mul, Int.neg_mul, Int.mul_comm, hword]
    exact h
  unfold byteOf
  omega

/-- Saturating on the way to a byte changes nothing. -/
theorem byteOf_saturate (product : Int) {half : Int} (hhalf : scale = 2 * half) :
    byteOf scale offset (saturate (saturate product + half)) =
      byteOf scale offset (product + half) := by
  have hle : half < 2 ^ 62 := by nlinarith
  rcases saturate_add_cases product (by omega) hle with h | ⟨h, h'⟩ | ⟨h, h'⟩
  · rw [h]
  · rw [byteOf_of_ge hscale hword hwords hoffset h, byteOf_of_ge hscale hword hwords hoffset h']
  · rw [← hhalf] at h h'
    rw [byteOf_of_lt hscale hword hwords hoffset h, byteOf_of_lt hscale hword hwords hoffset h']

end Beyond

/-! ## Requantising -/

namespace Multiplier

theorem toNat_toCode (m : Multiplier) (offset acc : Int) :
    ((m.toCode offset acc).toNat : Int) =
      byteOf (2 ^ m.shift.toNat) offset
        (saturate (saturate (acc * m.mantissa) + 2 ^ (m.shift - 1).toNat)) := by
  unfold toCode byteOf
  rw [UInt8.toNat_ofNat']
  omega

/-- The floor that exact arithmetic takes, as a division of integers. -/
theorem floor_shift {m : Multiplier} (hshift : 1 ≤ m.shift) (acc : Int) :
    ⌊((acc : ℚ) * m.mantissa + 2 ^ (m.shift - 1)) / 2 ^ m.shift⌋ =
      (acc * m.mantissa + 2 ^ (m.shift - 1).toNat) / 2 ^ m.shift.toNat := by
  obtain ⟨k, hk⟩ := Int.eq_ofNat_of_zero_le (show 0 ≤ m.shift - 1 by omega)
  have hk' : m.shift = ((k + 1 : ℕ) : ℤ) := by omega
  have hfloor := Rat.floor_intCast_div_natCast (acc * m.mantissa + 2 ^ k) (2 ^ (k + 1))
  rw [hk, hk', Int.toNat_natCast, Int.toNat_natCast, zpow_natCast, zpow_natCast]
  push_cast at hfloor
  exact hfloor

/-- **Saturation is not observable** up to a shift of fifty-five places, for an offset that is
a byte: the code is that of exact arithmetic. -/
theorem toCode_eq_of_shift_le {m : Multiplier} {offset : Int}
    (hshift : 1 ≤ m.shift ∧ m.shift ≤ 55) (hoffset : 0 ≤ offset ∧ offset ≤ 255) (acc : Int) :
    ((m.toCode offset acc).toNat : ℤ) =
      max 0 (min (⌊((acc : ℚ) * m.mantissa + 2 ^ (m.shift - 1)) / 2 ^ m.shift⌋ + offset) 255) := by
  obtain ⟨k, hk⟩ := Int.eq_ofNat_of_zero_le (show 0 ≤ m.shift - 1 by omega)
  have hk' : m.shift = ((k + 1 : ℕ) : ℤ) := by omega
  have hword : (2 : ℤ) ^ (k + 1) * 2 ^ (62 - k) = 2 ^ 63 := by
    rw [← Int.pow_add]
    congr 1
    omega
  have hwords : (2 : ℤ) ^ 8 ≤ 2 ^ (62 - k) := pow_le_pow_right₀ (by decide) (by omega)
  rw [floor_shift hshift.1, toNat_toCode, hk, hk', Int.toNat_natCast, Int.toNat_natCast]
  exact byteOf_saturate (by positivity) hword hwords hoffset _ (Int.pow_succ' ..)

end Multiplier

/-- **Saturation in the range of lowering.** For every accumulator and mantissa, with a shift
of one to fifty-five places and a byte as offset, the code is the floor of the exact
quotient, moved by the offset and held within a byte. Lowering emits nothing else: its
shifts go up to thirty-two, and its offsets are zero points of bytes. -/
theorem saturation_unobservable :
    (∀ (m : Multiplier) (offset acc : Int),
      1 ≤ m.shift → m.shift ≤ 55 → 0 ≤ offset → offset ≤ 255 →
        ((m.toCode offset acc).toNat : ℤ) =
          max 0 (min (⌊((acc : ℚ) * m.mantissa + 2 ^ (m.shift - 1)) / 2 ^ m.shift⌋ + offset)
            255)) ∧
    ∀ (config : CodeLimits) (conv : FloatConv) (c : Calibration) (source output : OutputId)
      (p : FixedPoint.Parameters),
      FixedPoint.Parameters.derive config conv c source output = .ok p →
        (1 ≤ (p.fixedConv conv).rescale.multiplier.shift ∧
          (p.fixedConv conv).rescale.multiplier.shift ≤ 32) ∧
        0 ≤ (p.fixedConv conv).rescale.outputOffset ∧
          (p.fixedConv conv).rescale.outputOffset ≤ 255 := by
  refine ⟨fun m offset acc hpos hle hlow hhigh => ?_, fun config conv c source output p hp => ?_⟩
  · exact Multiplier.toCode_eq_of_shift_le ⟨hpos, hle⟩ ⟨hlow, hhigh⟩ acc
  · have hemitted := FixedPoint.Parameters.emitted_of_derive hp
    exact ⟨hemitted.shift, hemitted.outputOffset⟩

-- One place more and saturation shows: the exact quotient is far above a byte.
example : Multiplier.toCode ⟨2, 56⟩ 0 (2 ^ 63 - 1) = 127 ∧
    255 ≤ ((2 ^ 63 - 1) * 2 + 2 ^ 55) / 2 ^ 56 := by decide

end FixedNet
