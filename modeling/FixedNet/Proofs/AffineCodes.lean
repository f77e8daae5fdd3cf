/-
**Affine codes.** The scale and the zero point of a range are computed by three rounded
operations: the width, the low end times the number of steps, and the quotient of the two.
Each is within one part in `2 ^ 24` as long as it stays in the range of the format, and the
codes have at most sixteen bits, so the zero point is within one of the exact one.

A finite range may be too wide for that. If the product overflows, the zero point is held at
the last code, wherever zero lies in the range. If the width does, the scale is infinite and
the code of zero stands for no number. `AffineCode.usable_iff` says that nothing else goes
wrong.
-/
import FixedNet.Proofs.Multipliers
import FixedNet.Proofs.Normalizing

set_option autoImplicit false

namespace FixedNet

/-! ## A quotient of rounded numbers -/

/-- The quotient of two numbers that are known up to a share `δ` of them. -/
theorem abs_div_sub_div_le {a t p w δ : ℚ} (ha : 0 ≤ a) (ht : 0 < t) (hδ : δ ≤ 1 / 2)
    (hp : |p - a| ≤ a * δ) (hw : |w - t| ≤ t * δ) : |p / w - a / t| ≤ 4 * δ * (a / t) := by
  have hhalf : t / 2 ≤ w := by
    have hbelow := (abs_le.1 hw).1
    have hshare : t * δ ≤ t * (1 / 2) := mul_le_mul_of_nonneg_left hδ ht.le
    linarith
  have hwpos : 0 < w := by linarith
  -- Over a common denominator the two errors stand side by side.
  have hcross : |p * t - a * w| ≤ 2 * (a * t * δ) := by
    calc |p * t - a * w| = |(p - a) * t - a * (w - t)| := by ring_nf
      _ ≤ |(p - a) * t| + |a * (w - t)| := abs_sub _ _
      _ = |p - a| * t + a * |w - t| := by rw [abs_mul, abs_mul, abs_of_pos ht, abs_of_nonneg ha]
      _ ≤ a * δ * t + a * (t * δ) := by gcongr
      _ = 2 * (a * t * δ) := by ring
  have hnum : 0 ≤ 2 * (a * t * δ) := (abs_nonneg _).trans hcross
  calc |p / w - a / t| = |p * t - a * w| / (w * t) := by
        rw [div_sub_div _ _ hwpos.ne' ht.ne', abs_div, abs_of_pos (mul_pos hwpos ht), mul_comm w a]
    _ ≤ 2 * (a * t * δ) / (t / 2 * t) := by gcongr
    _ = 4 * δ * (a / t) := by
        field_simp
        ring

namespace Format

variable {f : Format}

/-- The rounded quotient of two counts, as a number. -/
theorem abs_roundUnits_ratio_sub_le (p : ℕ) {w : ℕ} (hw : 0 < w) :
    |(f.roundUnits (p * 2 ^ f.unitBits) w : ℚ) / 2 ^ f.unitBits - p / w| ≤
      1 / 2 ^ f.precision * (p / w) + 1 / 2 / 2 ^ f.unitBits := by
  have hunit : (0 : ℚ) < 2 ^ f.unitBits := by positivity
  have hwpos : (0 : ℚ) < w := by exact_mod_cast hw
  have hround := f.abs_roundUnits_sub_le (p * 2 ^ f.unitBits) hw
  push_cast at hround
  calc |(f.roundUnits (p * 2 ^ f.unitBits) w : ℚ) / 2 ^ f.unitBits - p / w|
      = |(f.roundUnits (p * 2 ^ f.unitBits) w : ℚ) - p * 2 ^ f.unitBits / w| /
          2 ^ f.unitBits := by
        rw [← abs_of_pos hunit, ← abs_div, abs_of_pos hunit, sub_div]
        congr 2
        field_simp
    _ ≤ (p * 2 ^ f.unitBits / w / 2 ^ f.precision + 1 / 2) / 2 ^ f.unitBits := by gcongr
    _ = 1 / 2 ^ f.precision * (p / w) + 1 / 2 / 2 ^ f.unitBits := by field_simp

/-- Two whole counts of units, each rounded, and their quotient as a number: three roundings
in all. -/
theorem abs_roundUnits_quotient_sub_le (a : ℕ) {t : ℕ} (ht : 0 < t) :
    |(f.roundUnits (f.roundUnits a 1 * 2 ^ f.unitBits) (f.roundUnits t 1) : ℚ) /
      2 ^ f.unitBits - a / t| ≤ 8 / 2 ^ f.precision * (a / t) + 1 / 2 ^ f.unitBits := by
  have htpos : (0 : ℚ) < t := by exact_mod_cast ht
  have hwpos := f.roundUnits_one_pos ht
  have hδ := f.inv_two_pow_precision_le
  generalize hp : f.roundUnits a 1 = p
  generalize hw : f.roundUnits t 1 = w at hwpos
  have hquotient : |(p : ℚ) / w - a / t| ≤ 4 * (1 / 2 ^ f.precision) * (a / t) := by
    refine abs_div_sub_div_le (Nat.cast_nonneg a) htpos hδ ?_ ?_
    · rw [mul_one_div, ← hp]
      exact f.abs_roundUnits_one_sub_le a
    · rw [mul_one_div, ← hw]
      exact f.abs_roundUnits_one_sub_le t
  have hround := f.abs_roundUnits_ratio_sub_le p hwpos
  have hshare : 1 / 2 ^ f.precision * ((a : ℚ) / t) ≤ 1 / 2 * (a / t) := by gcongr
  have hupper : (p : ℚ) / w ≤ 3 * (a / t) := by linarith [(abs_le.1 hquotient).2]
  have hlast : 1 / (2 : ℚ) ^ f.precision * (p / w) ≤ 1 / 2 ^ f.precision * (3 * (a / t)) := by
    gcongr
  have hnonneg : (0 : ℚ) ≤ 1 / 2 ^ f.precision * (a / t) := by positivity
  have hhalf : (1 : ℚ) / 2 / 2 ^ f.unitBits ≤ 1 / 2 ^ f.unitBits := by gcongr; norm_num
  calc |(f.roundUnits (p * 2 ^ f.unitBits) w : ℚ) / 2 ^ f.unitBits - a / t|
      ≤ |(f.roundUnits (p * 2 ^ f.unitBits) w : ℚ) / 2 ^ f.unitBits - p / w| +
          |(p : ℚ) / w - a / t| := abs_sub_le _ _ _
    _ ≤ 7 * (1 / 2 ^ f.precision * (a / t)) + 1 / 2 / 2 ^ f.unitBits := by linarith
    _ ≤ 8 * (1 / 2 ^ f.precision * (a / t)) + 1 / 2 ^ f.unitBits := by linarith
    _ = 8 / 2 ^ f.precision * (a / t) + 1 / 2 ^ f.unitBits := by ring

/-- A whole count of units, rounded, and a share of it, rounded again. The share has to be
large enough for half a unit not to matter. -/
theorem abs_roundUnits_share_sub_le {t q : ℕ} (hq : 0 < q) (hlarge : 2 ^ f.precision * q ≤ t) :
    |(f.roundUnits (f.roundUnits t 1) q : ℚ) - t / q| ≤ 4 / 2 ^ f.precision * (t / q) := by
  have hqpos : (0 : ℚ) < q := by exact_mod_cast hq
  have herror := f.abs_roundUnits_one_sub_le t
  have hupper := (f.roundUnits_one_bounds t).2
  generalize f.roundUnits t 1 = w at *
  have hround := f.abs_roundUnits_sub_le w hq
  have hshare : |(w : ℚ) / q - t / q| ≤ t / q / 2 ^ f.precision := by
    rw [← sub_div, abs_div, abs_of_pos hqpos, div_right_comm]
    gcongr
  -- So the half unit of the last rounding counts for no more than the others.
  have hunit : (1 : ℚ) ≤ t / q / 2 ^ f.precision := by
    rw [le_div_iff₀ (by positivity), le_div_iff₀ hqpos, one_mul]
    exact_mod_cast hlarge
  have hlast : (w : ℚ) / q / 2 ^ f.precision ≤ 3 * t / 2 / q / 2 ^ f.precision := by gcongr
  calc |(f.roundUnits w q : ℚ) - t / q|
      ≤ |(f.roundUnits w q : ℚ) - w / q| + |(w : ℚ) / q - t / q| := abs_sub_le _ _ _
    _ ≤ 3 * t / 2 / q / 2 ^ f.precision + 1 / 2 + t / q / 2 ^ f.precision := by linarith
    _ = 5 / 2 * (t / q / 2 ^ f.precision) + 1 / 2 := by ring
    _ ≤ 4 * (t / q / 2 ^ f.precision) := by linarith
    _ = 4 / 2 ^ f.precision * (t / q) := by ring

end Format

/-! ## Numbers and codes -/

namespace Binary

variable {f : Format} {x y : Binary f}

theorem IsRounded.of_scale {num den c : ℕ} (hc : 0 < c) (h : x.IsRounded (num * c) (den * c)) :
    x.IsRounded num den := by
  rwa [IsRounded, Format.roundUnits_scale num den hc] at h

theorem counts_ofInt {n : ℕ} (hn : n < 2 ^ f.precision)
    (hf : f.precision + f.unitBits ≤ f.magnitudeBits) :
    (ofInt n : Binary f).Counts (n * 2 ^ f.unitBits) := by
  have hfits : f.Fits (n * 2 ^ f.unitBits) := by
    refine ⟨?_, n, f.unitBits, hn, rfl⟩
    calc n * 2 ^ f.unitBits < 2 ^ f.precision * 2 ^ f.unitBits :=
          Nat.mul_lt_mul_of_pos_right hn (Nat.two_pow_pos _)
      _ = 2 ^ (f.precision + f.unitBits) := (Nat.pow_add ..).symm
      _ ≤ 2 ^ f.magnitudeBits := Nat.pow_le_pow_right two_pos hf
  have hsign : decide ((n : ℤ) < 0) = false := by simp
  have hround := nearest_of_fits false hfits Nat.one_pos
  refine ⟨false, hfits, ?_, fun h => by cases h⟩
  unfold ofInt
  rw [hsign, Int.natAbs_natCast, ← hround, Nat.mul_one]

theorem infinite_div {n : ℕ} (hy : y.Counts n) (hpos : 0 < n) :
    infinite false / y = .infinite false := by
  obtain ⟨s, hn, rfl, hs⟩ := hy
  cases s with
  | false => rfl
  | true => exact absurd (hs rfl) hpos.ne'

theorem value?_zero_mul {n : ℕ} (hx : x.Counts 0) (hy : y.Counts n) :
    (x * y).value? = some 0 := by
  have hround := roundUnits_zero f (Nat.two_pow_pos f.unitBits)
  have hproduct := hx.mul hy
  rw [Nat.zero_mul] at hproduct
  have hcounts := hproduct.counts (by
    rw [hround]
    exact Nat.two_pow_pos f.magnitudeBits)
  rw [hcounts.value?, hround, Nat.cast_zero, zero_mul]

/-- The code of a number that is not negative. -/
theorem clampTo_eq {v : ℚ} (h : x.value? = some v) (hv : 0 ≤ v) (top : ℕ) :
    (x.clampTo top : ℤ) = Min.min (halfAway v) top := by
  have hint : x.toInt? = some (halfAway v) := by rw [toInt?_eq, h, Option.map_some]
  have hnonneg : 0 ≤ halfAway v := by
    rw [halfAway_of_nonneg hv]
    exact Int.floor_nonneg.2 (by linarith)
  cases x with
  | nan => cases h
  | infinite s => cases h
  | finite s u hu =>
    have hround : roundHalfAway f s u = halfAway v := Option.some.inj hint
    unfold clampTo
    dsimp only
    rw [hround]
    change ((Min.min (halfAway v).toNat top : ℕ) : ℤ) = _
    omega

end Binary

/-- Holding a number to a bound takes it no further from what keeps to the bound. -/
theorem abs_min_sub_le {h top x : ℚ} (hx : x ≤ top) : |min h top - x| ≤ |h - x| := by
  rcases le_total h top with hle | hle
  · rw [min_eq_left hle]
  · rw [min_eq_right hle, abs_of_nonneg (by linarith), abs_of_nonneg (by linarith)]
    linarith

theorem Format.precision_single : Format.single.precision = 24 := rfl

namespace Bounds.Spans

variable {r : Bounds} {m n : ℕ} (h : r.Spans m n) {q : ℕ} (hpos : 0 < q) (hq : q < 2 ^ 16)

/-! ## The scale and the zero point -/

section Scale

theorem counts_steps {q : ℕ} (hq : q < 2 ^ 16) :
    (.ofInt q : Single).Counts (q * 2 ^ Format.single.unitBits) :=
  Binary.counts_ofInt (hq.trans (by decide)) (by decide)

/-- The exact place of zero is among the codes. -/
theorem exact_le (m n : ℕ) (hsome : 0 < n + m) (q : ℕ) : ((m * q : ℕ) : ℚ) / (n + m : ℕ) ≤ q := by
  rw [div_le_iff₀ (by exact_mod_cast hsome), mul_comm m q]
  exact_mod_cast Nat.mul_le_mul_left q (Nat.le_add_left m n)

/-- The quotient of the rounded product and the rounded width is close to the exact place of
zero, so it is far from the end of the range. -/
theorem quotient_bounds (m n : ℕ) (hsome : 0 < n + m) {q : ℕ} (hq : q < 2 ^ 16) {z : ℕ}
    (hz : Format.single.roundUnits (Format.single.roundUnits (m * q) 1 *
      2 ^ Format.single.unitBits) (Format.single.roundUnits (n + m) 1) = z) :
    |(z : ℚ) / 2 ^ Format.single.unitBits - (m * q : ℕ) / (n + m : ℕ)| ≤ 1 / 2 ∧
      z < 2 ^ Format.single.magnitudeBits := by
  have hexact := exact_le m n hsome q
  have hsteps : (q : ℚ) ≤ 2 ^ 16 := by exact_mod_cast hq.le
  have herror : |(z : ℚ) / 2 ^ Format.single.unitBits - (m * q : ℕ) / (n + m : ℕ)| ≤ 1 / 2 := by
    -- Eight parts in `2 ^ 24` of at most `2 ^ 16` steps.
    rw [← hz]
    refine (Format.abs_roundUnits_quotient_sub_le (m * q) hsome).trans ?_
    rw [Format.precision_single, Format.unitBits_single]
    linarith
  refine ⟨herror, ?_⟩
  have hle : (z : ℚ) ≤ 2 ^ 17 * 2 ^ Format.single.unitBits := by
    rw [← div_le_iff₀ (by positivity)]
    linarith [(abs_le.1 herror).2]
  calc z ≤ 2 ^ 17 * 2 ^ Format.single.unitBits := by exact_mod_cast hle
    _ < 2 ^ Format.single.magnitudeBits := by
      rw [← Nat.pow_add]
      exact Nat.pow_lt_pow_right one_lt_two (by decide)

include h

theorem product (hq : q < 2 ^ 16) : (-r.low * .ofInt q).IsRounded (m * q) 1 := by
  refine Binary.IsRounded.of_scale (Nat.two_pow_pos Format.single.unitBits) ?_
  rw [Nat.one_mul, Nat.mul_assoc]
  exact h.low.mul (counts_steps hq)

variable (hfinite : r.width.isFinite)
include hfinite

theorem counts_width : r.width.Counts (Format.single.roundUnits (n + m) 1) :=
  h.width.counts (h.width.isFinite_iff.1 hfinite)

include hpos hq in
/-- As long as the width is finite, so is the scale, and it is the exact one up to one part
in `2 ^ 22`. -/
theorem scale (hwide : 2 ^ 64 ≤ n + m) : ∃ k : ℕ, (r.width / .ofInt q).Counts k ∧ 0 < k ∧
    |(k : ℚ) - (n + m : ℕ) / q| ≤ 1 / 2 ^ 22 * ((n + m : ℕ) / q) := by
  have hwidth := h.counts_width hfinite
  have hlarge : 2 ^ 64 ≤ Format.single.roundUnits (n + m) 1 :=
    Format.le_roundUnits Nat.one_pos (Format.fits_two_pow (by decide)) (by omega)
  have hrounded : (r.width / .ofInt q).IsRounded (Format.single.roundUnits (n + m) 1) q :=
    (hwidth.div (counts_steps hq) (Nat.mul_pos hpos (Nat.two_pow_pos _))).of_scale
      (Nat.two_pow_pos _)
  have herror := Format.abs_roundUnits_share_sub_le (f := .single) (t := n + m) hpos (by
    rw [Format.precision_single]
    omega)
  have hle := Format.roundUnits_le hpos hwidth.fits (Nat.le_mul_of_pos_right _ hpos)
  have hone : 2 ^ 0 ≤ Format.single.roundUnits (Format.single.roundUnits (n + m) 1) q :=
    Format.le_roundUnits hpos (Format.fits_two_pow (by decide)) (by omega)
  refine ⟨_, hrounded.counts (hle.trans_lt hwidth.fits.1), hone, herror.trans_eq ?_⟩
  rw [Format.precision_single]
  norm_num

include hq in
/-- As long as the product is finite too, their quotient is within one half of the exact
place of zero. -/
theorem quotient (hsome : 0 < n + m) (hproduct : (-r.low * .ofInt q).isFinite) :
    ∃ v : ℚ, (-r.low * .ofInt q / r.width).value? = some v ∧ 0 ≤ v ∧
      |v - (m * q : ℕ) / (n + m : ℕ)| ≤ 1 / 2 := by
  have hcounts := (h.product hq).counts ((h.product hq).isFinite_iff.1 hproduct)
  have hquotient := hcounts.div (h.counts_width hfinite) (Format.roundUnits_one_pos hsome)
  obtain ⟨herror, hbound⟩ := quotient_bounds m n hsome hq rfl
  refine ⟨_, (hquotient.counts hbound).value?, ?_, ?_⟩
  · positivity
  · rw [zpow_neg, zpow_natCast, ← div_eq_mul_inv]
    exact herror

include hq in
/-- Rounding to a code adds another half, and holding the code to the last one nothing. -/
theorem zeroPoint (hsome : 0 < n + m) (hproduct : (-r.low * .ofInt q).isFinite) :
    |(((-r.low * .ofInt q / r.width).clampTo q : ℕ) : ℚ) - (m * q : ℕ) / (n + m : ℕ)| ≤ 1 := by
  obtain ⟨v, hvalue, hv, herror⟩ := h.quotient hq hfinite hsome hproduct
  have hclamp : (((-r.low * .ofInt q / r.width).clampTo q : ℕ) : ℚ) = min (halfAway v : ℚ) q := by
    exact_mod_cast congrArg (Int.cast : ℤ → ℚ) (Binary.clampTo_eq hvalue hv q)
  rw [hclamp]
  calc |min (halfAway v : ℚ) q - (m * q : ℕ) / (n + m : ℕ)|
      ≤ |(halfAway v : ℚ) - (m * q : ℕ) / (n + m : ℕ)| := abs_min_sub_le (exact_le m n hsome q)
    _ ≤ |(halfAway v : ℚ) - v| + |v - (m * q : ℕ) / (n + m : ℕ)| := abs_sub_le _ _ _
    _ ≤ 1 := by linarith [abs_halfAway_sub_le hv]

include hq in
/-- An infinite product gives the last code, whatever the range. -/
theorem zeroPoint_iff (hsome : 0 < n + m) :
    |(((-r.low * .ofInt q / r.width).clampTo q : ℕ) : ℚ) - (m * q : ℕ) / (n + m : ℕ)| ≤ 1 ↔
      (-r.low * .ofInt q).isFinite ∨ (q : ℚ) - (m * q : ℕ) / (n + m : ℕ) ≤ 1 := by
  by_cases hproduct : (-r.low * .ofInt q).isFinite
  · exact iff_of_true (h.zeroPoint hq hfinite hsome hproduct) (.inl hproduct)
  · have hlast : (-r.low * .ofInt q / r.width).clampTo q = q := by
      rw [(h.product hq).eq_infinite hproduct,
        Binary.infinite_div (h.counts_width hfinite) (Format.roundUnits_one_pos hsome)]
      rfl
    rw [hlast, or_iff_right hproduct, abs_of_nonneg (sub_nonneg.2 (exact_le m n hsome q))]

end Scale

include h hpos hq in
/-- An infinite width gives an infinite scale. -/
theorem scale_of_not_isFinite (hinfinite : ¬ r.width.isFinite) :
    r.width / .ofInt q = .infinite false := by
  rw [h.width.eq_infinite hinfinite]
  exact Binary.infinite_div (counts_steps hq) (Nat.mul_pos hpos (Nat.two_pow_pos _))

include h hpos hq in
theorem zero_lt_scale (hwide : 2 ^ 64 ≤ n + m) : .zero false < r.width / .ofInt q := by
  by_cases hfinite : r.width.isFinite
  · obtain ⟨k, hk, hkpos, -⟩ := h.scale hpos hq hfinite hwide
    rw [Binary.lt_iff]
    exact ⟨_, _, (Binary.counts_zero false).position, hk.position, by omega⟩
  · rw [h.scale_of_not_isFinite hpos hq hfinite]
    decide +kernel

include h hpos hq in
/-- A scale that is finite is the exact one up to one part in `2 ^ 22`. -/
theorem abs_scale_sub_le (hwide : 2 ^ 64 ≤ n + m) {s unit : ℚ}
    (hunit : 2 ^ (-(Format.single.unitBits : ℤ)) = unit)
    (hs : (r.width / .ofInt q).value? = some s) :
    |s - (n + m : ℕ) * unit / q| ≤ 1 / 2 ^ 22 * ((n + m : ℕ) * unit / q) := by
  have hfinite : r.width.isFinite := by
    by_contra hinfinite
    rw [h.scale_of_not_isFinite hpos hq hinfinite] at hs
    cases hs
  obtain ⟨k, hk, -, herror⟩ := h.scale hpos hq hfinite hwide
  have hpositive : 0 < unit := by
    rw [← hunit]
    positivity
  rw [hk.value?, Option.some.injEq, hunit] at hs
  have hfactor : s - (n + m : ℕ) * unit / q = ((k : ℚ) - (n + m : ℕ) / q) * unit := by
    rw [← hs]
    ring
  rw [hfactor, abs_mul, abs_of_pos hpositive, mul_div_right_comm, ← mul_assoc]
  exact mul_le_mul_of_nonneg_right herror hpositive.le

include h in
/-- The ends of the range as numbers, with what the code is to be measured by. -/
theorem values (hsome : 0 < n + m) (q : ℕ) {unit : ℚ}
    (hunit : 2 ^ (-(Format.single.unitBits : ℤ)) = unit) :
    ∃ low high : ℚ, r.low.value? = some low ∧ r.high.value? = some high ∧ low < high ∧
      high - low = (n + m : ℕ) * unit ∧
      -low * q / (high - low) = (m * q : ℕ) / (n + m : ℕ) := by
  have hpositive : 0 < unit := by
    rw [← hunit]
    positivity
  have hwidth : (0 : ℚ) < n + m := by exact_mod_cast hsome
  have hlow := Binary.value?_of_position h.isFinite_low h.position_low
  have hhigh := h.high.value?
  rw [hunit] at hlow hhigh
  have hdiff : (n : ℚ) * unit - ((-(m : ℤ) : ℤ) : ℚ) * unit = (n + m : ℕ) * unit := by
    push_cast
    ring
  refine ⟨_, _, hlow, hhigh, ?_, hdiff, ?_⟩
  · rw [← sub_pos, hdiff]
    positivity
  · rw [hdiff]
    push_cast
    field_simp

end Bounds.Spans

namespace AffineCode

theorem maxCode_bounds {bits : ℕ} (hbits : 1 ≤ bits ∧ bits ≤ 16) :
    0 < maxCode bits ∧ maxCode bits < 2 ^ 16 := by
  have hlow : 2 ^ 1 ≤ 2 ^ bits := Nat.pow_le_pow_right two_pos hbits.1
  have hhigh : 2 ^ bits ≤ 2 ^ 16 := Nat.pow_le_pow_right two_pos hbits.2
  unfold maxCode
  omega

theorem ofBounds_of_normalize {b r : Bounds} {bits : ℕ} (hbits : 1 ≤ bits ∧ bits ≤ 16)
    (h : b.normalize = .ok r) :
    ofBounds b bits = .ok { scale := r.width / .ofInt (maxCode bits)
                            zeroPoint := (-r.low * .ofInt (maxCode bits) / r.width).clampTo
                              (maxCode bits) } := by
  unfold ofBounds
  rw [if_neg (not_not.2 hbits), h]
  rfl

/-- The code serves a range from `low` to `high`: its scale is a number, it puts zero within
one step of where the range has it, and the code of zero stands for zero. -/
structure Usable (code : AffineCode) (bits : ℕ) (low high : ℚ) : Prop where
  scale : code.scale.isFinite
  zeroPoint : |(code.zeroPoint : ℚ) - -low * maxCode bits / (high - low)| ≤ 1
  decode : (code.decode code.zeroPoint).value? = some 0

/-- With a finite scale, the zero point always stands for zero. -/
theorem value?_decode_zeroPoint {code : AffineCode} {k : ℕ} (h : code.scale.Counts k) :
    (code.decode code.zeroPoint).value? = some 0 := by
  have hzero := Binary.counts_ofInt (f := .single) (n := 0) (by decide) (by decide)
  rw [Nat.zero_mul] at hzero
  rw [decode, sub_self, wrap_zero]
  exact Binary.value?_zero_mul hzero h

/-- **Which ranges get a usable code.** For every range with finite ends in order and every
width of codes from one to sixteen bits there is a code, with a positive scale and a zero
point among the codes. A scale that is finite is the exact one up to one part in `2 ^ 22`.
The code is usable exactly if the rounded width of the normalised range is finite and so is
the product of its low end with the number of steps, but for ranges that have zero within
one step of their high end: there the last code, which an infinite product gives, is right. -/
theorem usable_iff (b : Bounds) (hlow : b.low.isFinite) (hhigh : b.high.isFinite)
    (hle : b.low ≤ b.high) (bits : ℕ) (hbits : 1 ≤ bits ∧ bits ≤ 16) :
    ∃ r code low high, b.normalize = .ok r ∧ ofBounds b bits = .ok code ∧
      r.low.value? = some low ∧ r.high.value? = some high ∧ low < high ∧
      .zero false < code.scale ∧ 0 ≤ code.zeroPoint ∧ code.zeroPoint ≤ maxCode bits ∧
      (∀ s, code.scale.value? = some s →
        |s - (high - low) / maxCode bits| ≤ 1 / 2 ^ 22 * ((high - low) / maxCode bits)) ∧
      (code.Usable bits low high ↔ r.width.isFinite ∧
        ((-r.low * .ofInt (maxCode bits)).isFinite ∨
          (maxCode bits : ℚ) - -low * maxCode bits / (high - low) ≤ 1)) := by
  obtain ⟨r, hr⟩ : ∃ r, b.normalize = .ok r :=
    ⟨_, Bounds.normalize_eq_ok.2 ⟨⟨hlow, hhigh, hle⟩, rfl⟩⟩
  obtain ⟨i, j, n, -, -, hspans, -, hwide, -⟩ := Bounds.spans_of_normalize hr
  obtain ⟨hpos, hq⟩ := maxCode_bounds hbits
  have hof := ofBounds_of_normalize hbits hr
  have hclamp := Binary.clampTo_le (-r.low * .ofInt (maxCode bits) / r.width) (maxCode bits)
  have hsome := Nat.lt_of_lt_of_le (Nat.two_pow_pos 64) hwide
  obtain ⟨low, high, hlowValue, hhighValue, hlt, hwidth, hexact⟩ :=
    hspans.values hsome (maxCode bits) rfl
  refine ⟨r, _, low, high, hr, hof, hlowValue, hhighValue, hlt,
    hspans.zero_lt_scale hpos hq hwide, Int.natCast_nonneg _, Int.ofNat_le.2 hclamp,
    fun s hs => ?_, ?_⟩
  · rw [hwidth]
    exact hspans.abs_scale_sub_le hpos hq hwide rfl hs
  · by_cases hfinite : r.width.isFinite
    · obtain ⟨k, hk, -, -⟩ := hspans.scale hpos hq hfinite hwide
      rw [hexact, and_iff_right hfinite, ← hspans.zeroPoint_iff hq hfinite hsome]
      constructor
      · rintro ⟨-, hpoint, -⟩
        rw [hexact] at hpoint
        exact_mod_cast hpoint
      · intro hpoint
        refine ⟨hk.isFinite, ?_, value?_decode_zeroPoint hk⟩
        rw [hexact]
        exact_mod_cast hpoint
    · -- The scale alone rules such a code out.
      refine iff_of_false ?_ fun h => hfinite h.1
      rintro ⟨hscale, -, -⟩
      rw [hspans.scale_of_not_isFinite hpos hq hfinite] at hscale
      cases hscale

/-- The range from minus one to one in eight bits, where zero falls halfway between two
codes. -/
theorem usable_iff_unit_range : ∃ code low high,
    ofBounds ⟨.ofInt (-1), .ofInt 1⟩ 8 = .ok code ∧ code.zeroPoint = 128 ∧
      low = -1 ∧ high = 1 ∧ code.Usable 8 low high := by
  obtain ⟨r, code, low, high, hr, hcode, hlow, hhigh, -, -, -, -, -, hiff⟩ :=
    usable_iff ⟨.ofInt (-1), .ofInt 1⟩ (by decide +kernel) (by decide +kernel)
      (by decide +kernel) 8 (by decide)
  have hnormal : Bounds.normalize ⟨.ofInt (-1), .ofInt 1⟩ = .ok ⟨.ofInt (-1), .ofInt 1⟩ := by
    decide +kernel
  obtain rfl := Except.ok.inj (hnormal.symm.trans hr)
  dsimp only at hlow hhigh
  refine ⟨code, low, high, hcode, ?_, ?_, ?_, hiff.2 ⟨by decide +kernel, .inl (by decide +kernel)⟩⟩
  · have hpoint : (ofBounds ⟨.ofInt (-1), .ofInt 1⟩ 8).toOption.map zeroPoint = some 128 := by
      decide +kernel
    rw [hcode] at hpoint
    exact Option.some.inj hpoint
  · have hvalue : (Binary.ofInt (-1) : Single).value? = some (-1) := by decide +kernel
    rw [hvalue] at hlow
    exact (Option.some.inj hlow).symm
  · have hvalue : (Binary.ofInt 1 : Single).value? = some 1 := by decide +kernel
    rw [hvalue] at hhigh
    exact (Option.some.inj hhigh).symm

/-- Two finite ranges with zero in the middle. From `-2 ^ 126` to `2 ^ 126` the product
overflows, and eight bits give the last code to zero instead of the middle one. Twice as wide
a range has an infinite width, and the code of zero stands for no number. -/
theorem not_usable_of_overflow :
    (∃ code low high, ofBounds ⟨-.twoPow 126, .twoPow 126⟩ 8 = .ok code ∧
      (-.twoPow 126 : Single).value? = some low ∧ (.twoPow 126 : Single).value? = some high ∧
      code.zeroPoint = 255 ∧ ¬ code.Usable 8 low high) ∧
    ∃ code low high, ofBounds ⟨-.twoPow 127, .twoPow 127⟩ 8 = .ok code ∧
      (-.twoPow 127 : Single).value? = some low ∧ (.twoPow 127 : Single).value? = some high ∧
      code.decode code.zeroPoint = .nan ∧ ¬ code.Usable 8 low high := by
  constructor
  · refine ⟨⟨.twoPow 127 / .ofInt 255, 255⟩, -2 ^ 126, 2 ^ 126, by decide +kernel,
      by decide +kernel, by decide +kernel, rfl, ?_⟩
    rintro ⟨-, hpoint, -⟩
    norm_num [maxCode, abs_le] at hpoint
  · refine ⟨⟨.infinite false, 0⟩, -2 ^ 127, 2 ^ 127, by decide +kernel, by decide +kernel,
      by decide +kernel, by decide +kernel, ?_⟩
    rintro ⟨hscale, -, -⟩
    cases hscale

end AffineCode

end FixedNet
