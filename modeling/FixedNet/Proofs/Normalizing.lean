/-
**Normal ranges.** Normalising extends a range to zero and, if it is too narrow then, raises
its high end to give it a fixed width. The width is computed by one rounded operation and the
raised end by another, so that raising does not lower the end, and that a range once widened
is left alone, are facts about rounding. Both follow from one: rounding does not cross a
number of the format. A rounded width below the bound means an exact width below it, so the
old end is a number of the format below the exact new one. And a range that was widened once
and still counts as narrow, because its width rounds down, is widened to the same end.

* `Bounds.Spans`: a range that holds zero, by the counts of units on its two sides.
* `Bounds.Spans.widen`: what widening makes of it.
-/
import FixedNet.Quantize.Derive
import FixedNet.Proofs.Rounding

set_option autoImplicit false

namespace FixedNet

/-! ## Places and values -/

namespace Binary

variable {f : Format} {x : Binary f}

theorem position_neg (x : Binary f) : (-x).position = x.position.map (- ·) := by
  cases x with
  | nan => rfl
  | infinite s =>
    change some (signed (!s) _) = some (-signed s _)
    cases s <;> simp [signed]
  | finite s u h =>
    change some (signed (!s) u) = some (-signed s u)
    cases s <;> simp [signed]

theorem isFinite_neg (x : Binary f) : (-x).isFinite = x.isFinite := by
  cases x <;> rfl

theorem ne_nan_of_isFinite (h : x.isFinite) : x ≠ .nan := by
  rintro rfl
  cases h

theorem exists_position_of_isFinite (h : x.isFinite) : ∃ i, x.position = some i := by
  cases x with
  | nan => cases h
  | infinite s => cases h
  | finite s u hu => exact ⟨_, rfl⟩

theorem value?_of_position (h : x.isFinite) {i : ℤ} (hi : x.position = some i) :
    x.value? = some ((i : ℚ) * 2 ^ (-(f.unitBits : ℤ))) := by
  cases x with
  | nan => cases h
  | infinite s => cases h
  | finite s u hu => rw [value?, Option.some.inj hi]

theorem counts_zero (negative : Bool) : (zero negative : Binary f).Counts 0 :=
  ⟨negative, f.fits_zero, rfl, fun _ => rfl⟩

end Binary

namespace Bounds

/-! ## The two steps of normalising -/

/-- The range extended to zero. -/
def held (b : Bounds) : Bounds := ⟨b.low.min (.zero false), b.high.max (.zero false)⟩

/-- The range with its high end raised if it is too narrow. -/
def widen (b : Bounds) : Bounds :=
  if b.width.position = some 0 then { b with high := b.low + pointWidth }
  else if b.width < minWidth then { b with high := b.low + minWidth }
  else b

theorem normalize_eq (b : Bounds) :
    b.normalize = if !b.low.isFinite || !b.high.isFinite || decide (b.high < b.low) then
      .error (.invalidRange b) else .ok b.held.widen := by
  unfold normalize widen held
  dsimp only
  split
  · rfl
  · split
    · rfl
    · split
      · rfl
      · rfl

/-- The condition of normalising, in the terms of the order. -/
theorem not_lt_iff {b : Bounds} (hlow : b.low.isFinite) (hhigh : b.high.isFinite) :
    ¬ b.high < b.low ↔ b.low ≤ b.high := by
  obtain ⟨i, hi⟩ := Binary.exists_position_of_isFinite hlow
  obtain ⟨j, hj⟩ := Binary.exists_position_of_isFinite hhigh
  simp [Binary.lt_iff, Binary.le_iff, hi, hj]

theorem normalize_eq_ok {b r : Bounds} : b.normalize = .ok r ↔
    (b.low.isFinite ∧ b.high.isFinite ∧ b.low ≤ b.high) ∧ r = b.held.widen := by
  rw [normalize_eq]
  split
  · next h =>
    refine iff_of_false (by simp) ?_
    rintro ⟨⟨hlow, hhigh, hle⟩, -⟩
    have hlt := (not_lt_iff hlow hhigh).2 hle
    simp [hlow, hhigh, hlt] at h
  · next h =>
    simp only [Bool.or_eq_true, Bool.not_eq_true', decide_eq_true_eq, not_or,
      Bool.not_eq_false] at h
    obtain ⟨⟨hlow, hhigh⟩, hlt⟩ := h
    simp [hlow, hhigh, (not_lt_iff hlow hhigh).1 hlt, eq_comm]

theorem normalize_eq_error {b : Bounds} {e : DerivationError} (h : b.normalize = .error e) :
    e = .invalidRange b := by
  rw [normalize_eq] at h
  split at h
  · exact (Except.error.inj h).symm
  · cases h

/-! ## Ranges that hold zero -/

/-- The range from `m` units below zero to `n` units above. -/
structure Spans (b : Bounds) (m n : ℕ) : Prop where
  low : (-b.low).Counts m
  high : b.high.Counts n

variable {b : Bounds} {m n : ℕ}

/-- Extended to zero, a range spans what it has on either side of it. -/
theorem spans_held (hlow : b.low.isFinite) (hhigh : b.high.isFinite) {i j : ℤ}
    (hi : b.low.position = some i) (hj : b.high.position = some j) :
    b.held.Spans (-i).toNat j.toNat where
  low := by
    unfold held Binary.min
    dsimp only
    rw [if_neg (Binary.ne_nan_of_isFinite hlow)]
    split
    · next hpos =>
      have hi : (-i).toNat = 0 := by
        simp [Binary.lt_iff, (Binary.counts_zero false).position, hi] at hpos
        omega
      rw [hi]
      exact Binary.counts_zero true
    · next hneg =>
      have hi' : i ≤ 0 := by
        simpa [Binary.lt_iff, (Binary.counts_zero false).position, hi] using hneg
      refine Binary.counts_of_position (by rwa [Binary.isFinite_neg]) ?_
      rw [Binary.position_neg, hi, Option.map_some, Int.toNat_of_nonneg (by omega)]
  high := by
    unfold held Binary.max
    dsimp only
    rw [if_neg (Binary.ne_nan_of_isFinite hhigh)]
    split
    · next hneg =>
      have hj : j.toNat = 0 := by
        simp [Binary.lt_iff, (Binary.counts_zero false).position, hj] at hneg
        omega
      rw [hj]
      exact Binary.counts_zero false
    · next hpos =>
      have hj' : 0 ≤ j := by
        simpa [Binary.lt_iff, (Binary.counts_zero false).position, hj] using hpos
      refine Binary.counts_of_position hhigh ?_
      rw [hj, Int.toNat_of_nonneg hj']

namespace Spans

variable (h : b.Spans m n)
include h

theorem position_low : b.low.position = some (-(m : ℤ)) := by
  obtain ⟨s, hm, hx, hs⟩ := Binary.exists_of_neg_counts h.low
  rw [hx, Binary.position, hs]

theorem isFinite_low : b.low.isFinite := by
  rw [← Binary.isFinite_neg]
  exact h.low.isFinite

theorem low_le_high : b.low ≤ b.high := by
  rw [Binary.le_iff]
  exact ⟨_, _, h.position_low, h.high.position, by omega⟩

theorem held_eq : b.held = b := by
  have hzero := (Binary.counts_zero (f := .single) false).position
  have hlow : ¬ (Binary.zero false : Single) < b.low := by
    simp [Binary.lt_iff, hzero, h.position_low]
  have hhigh : ¬ b.high < (Binary.zero false : Single) := by
    simp [Binary.lt_iff, hzero, h.high.position]
  unfold held Binary.min Binary.max
  rw [if_neg (Binary.ne_nan_of_isFinite h.isFinite_low), if_neg hlow,
    if_neg (Binary.ne_nan_of_isFinite h.high.isFinite), if_neg hhigh]

theorem width : b.width.IsRounded (n + m) 1 := h.high.add h.low

theorem isNormalized (hpos : 0 < n + m) : b.isNormalized := by
  have hzero := (Binary.counts_zero (f := .single) false).position
  have hlow : b.low ≤ .zero false := by
    simp [Binary.le_iff, hzero, h.position_low]
  have hhigh : (.zero false : Single) ≤ b.high := by
    simp [Binary.le_iff, hzero, h.high.position]
  have hlt : b.low < b.high := by
    rw [Binary.lt_iff]
    exact ⟨_, _, h.position_low, h.high.position, by omega⟩
  simp [Bounds.isNormalized, h.isFinite_low, h.high.isFinite, hlow, hhigh, hlt]

end Spans

/-! ## Widening -/

/-- The two widths, in units. -/
theorem exists_widths : ∃ narrow point, minWidth.Counts narrow ∧ pointWidth.Counts point ∧
    2 ^ 65 ≤ narrow ∧ narrow ≤ point := by
  refine ⟨10737418 * 2 ^ 119, 13421773 * 2 ^ 122, ?_, ?_, ?_, ?_⟩
  · exact Binary.counts_of_position (by decide +kernel) (by decide +kernel)
  · exact Binary.counts_of_position (by decide +kernel) (by decide +kernel)
  · decide +kernel
  · decide +kernel

namespace Spans

variable (h : b.Spans m n)
include h

theorem widen_of_point (hpoint : n + m = 0) :
    b.widen = { b with high := b.low + pointWidth } := by
  refine if_pos (h.width.position_eq_zero_iff.2 ?_)
  rw [hpoint, Binary.roundUnits_zero _ Nat.one_pos]

/-- The choice of widening, in units: infinity, too, stands beyond the bound. -/
theorem widen_eq {narrow : ℕ} (hnarrow : minWidth.Counts narrow) (hpos : 0 < n + m) :
    b.widen = if Format.single.roundUnits (n + m) 1 < narrow then
      { b with high := b.low + minWidth } else b := by
  have hwidth : b.width.position ≠ some 0 := by
    rw [Ne, h.width.position_eq_zero_iff]
    exact (Format.roundUnits_one_pos hpos).ne'
  unfold Bounds.widen
  rw [if_neg hwidth]
  simp only [h.width.lt_iff hnarrow]

/-- Raised to a width that it does not exceed, a range spans no less than before. -/
theorem raise {w : Single} {k : ℕ} (hw : w.Counts k) (hk : n + m ≤ k) :
    { b with high := b.low + w : Bounds }.Spans m (Format.single.roundUnits (k - m) 1) ∧
      n ≤ Format.single.roundUnits (k - m) 1 := by
  have hle : Format.single.roundUnits (k - m) 1 ≤ k :=
    Format.roundUnits_le Nat.one_pos hw.fits (by omega)
  have hhigh := h.low.add_of_neg hw (by omega)
  exact ⟨⟨h.low, hhigh.counts (hle.trans_lt hw.fits.1)⟩,
    Format.le_roundUnits Nat.one_pos h.high.fits (by omega)⟩

/-- Widening keeps the low end and does not lower the high one, the range it leaves has some
width, and done again it changes nothing. -/
theorem widen : ∃ n', b.widen.Spans m n' ∧ n ≤ n' ∧ 2 ^ 64 ≤ n' + m ∧
    b.widen.widen = b.widen := by
  obtain ⟨narrow, point, hnarrow, hpoint, hsome, hle⟩ := exists_widths
  rcases Nat.eq_zero_or_pos (n + m) with hzero | hpos
  · -- The raised end is exact here, since the low end is zero.
    obtain ⟨rfl, rfl⟩ : n = 0 ∧ m = 0 := by omega
    have hexact : Format.single.roundUnits point 1 = point := by
      simpa using Format.single.roundUnits_of_fits hpoint.fits Nat.one_pos
    obtain ⟨hspans, -⟩ := h.raise hpoint (Nat.zero_le point)
    rw [Nat.sub_zero, hexact] at hspans
    rw [h.widen_of_point hzero]
    refine ⟨point, hspans, Nat.zero_le _, by omega, ?_⟩
    rw [hspans.widen_eq hnarrow (by omega), if_neg]
    rw [Nat.add_zero, hexact]
    omega
  · have hwiden := h.widen_eq hnarrow hpos
    split at hwiden
    · next hlt =>
      have hsum : n + m < narrow := by
        by_contra hge
        have hnot : narrow ≤ Format.single.roundUnits (n + m) 1 :=
          Format.le_roundUnits Nat.one_pos hnarrow.fits (by omega)
        omega
      obtain ⟨hspans, hraised⟩ := h.raise hnarrow hsum.le
      have hwide : 2 ^ 64 ≤ Format.single.roundUnits (narrow - m) 1 + m := by
        rcases le_total (2 ^ 64) m with hm | hm
        · omega
        · have hpower : 2 ^ 64 ≤ Format.single.roundUnits (narrow - m) 1 :=
            Format.le_roundUnits Nat.one_pos (Format.fits_two_pow (by decide)) (by omega)
          omega
      rw [hwiden]
      refine ⟨_, hspans, hraised, hwide, ?_⟩
      -- Should it still count as narrow, it is raised to the same end.
      rw [hspans.widen_eq hnarrow (by omega)]
      split <;> rfl
    · next hge =>
      have hwide : 2 ^ 64 ≤ n + m := by
        by_contra hlt
        have hpower : Format.single.roundUnits (n + m) 1 ≤ 2 ^ 64 :=
          Format.roundUnits_le Nat.one_pos (Format.fits_two_pow (by decide)) (by omega)
        omega
      rw [hwiden]
      exact ⟨n, h, le_rfl, hwide, hwiden⟩

end Spans

/-! ## Normalising -/

/-- A normalised range, in units of the one it came from. -/
theorem spans_of_normalize {r : Bounds} (h : b.normalize = .ok r) :
    ∃ (i j : ℤ) (n : ℕ), b.low.position = some i ∧ b.high.position = some j ∧
      r.Spans (-i).toNat n ∧ j.toNat ≤ n ∧ 2 ^ 64 ≤ n + (-i).toNat ∧ r.normalize = .ok r := by
  obtain ⟨⟨hlow, hhigh, -⟩, rfl⟩ := normalize_eq_ok.1 h
  obtain ⟨i, hi⟩ := Binary.exists_position_of_isFinite hlow
  obtain ⟨j, hj⟩ := Binary.exists_position_of_isFinite hhigh
  obtain ⟨n, hspans, hle, hwide, hagain⟩ := (spans_held hlow hhigh hi hj).widen
  refine ⟨i, j, n, hi, hj, hspans, hle, hwide, normalize_eq_ok.2 ⟨?_, ?_⟩⟩
  · exact ⟨hspans.isFinite_low, hspans.high.isFinite, hspans.low_le_high⟩
  · rw [hspans.held_eq, hagain]

/-- **Normalising is total on ranges, covers and settles at once.** It succeeds exactly on
the ranges with finite ends in order, and refuses any other by naming it. A range that it
gives

* can be mapped by an affine code;
* starts at the lesser of the old low end and zero, and ends no earlier than the old high
  end and zero, so widening does not shrink it;
* is its own normal form. -/
theorem normalize_covers (b : Bounds) :
    ((∃ r, b.normalize = .ok r) ↔ b.low.isFinite ∧ b.high.isFinite ∧ b.low ≤ b.high) ∧
    (∀ e, b.normalize = .error e → e = .invalidRange b) ∧
    ∀ r, b.normalize = .ok r →
      r.isNormalized ∧
      (∃ low high high', b.low.value? = some low ∧ b.high.value? = some high ∧
        r.low.value? = some (min low 0) ∧ r.high.value? = some high' ∧ max high 0 ≤ high') ∧
      r.normalize = .ok r := by
  refine ⟨⟨?_, ?_⟩, fun e he => normalize_eq_error he, fun r hr => ?_⟩
  · rintro ⟨r, hr⟩
    exact (normalize_eq_ok.1 hr).1
  · intro hvalid
    exact ⟨_, normalize_eq_ok.2 ⟨hvalid, rfl⟩⟩
  · obtain ⟨hlow, hhigh, -⟩ := (normalize_eq_ok.1 hr).1
    obtain ⟨i, j, n, hi, hj, hspans, hle, hwide, hagain⟩ := spans_of_normalize hr
    refine ⟨hspans.isNormalized (by omega), ?_, hagain⟩
    have hunit : (0 : ℚ) ≤ 2 ^ (-(Format.single.unitBits : ℤ)) := by positivity
    refine ⟨_, _, _, Binary.value?_of_position hlow hi, Binary.value?_of_position hhigh hj, ?_,
      hspans.high.value?, ?_⟩
    · have hmin : -((-i).toNat : ℤ) = min i 0 := by omega
      rw [Binary.value?_of_position hspans.isFinite_low hspans.position_low, hmin, Int.cast_min,
        min_mul_of_nonneg _ _ hunit, Int.cast_zero, zero_mul]
    · have hmax : max (j : ℚ) 0 ≤ n := by
        have : max j 0 ≤ (n : ℤ) := by omega
        exact_mod_cast this
      calc max ((j : ℚ) * 2 ^ (-(Format.single.unitBits : ℤ))) 0
          = max (j : ℚ) 0 * 2 ^ (-(Format.single.unitBits : ℤ)) := by
            rw [max_mul_of_nonneg _ _ hunit, zero_mul]
        _ ≤ n * 2 ^ (-(Format.single.unitBits : ℤ)) := mul_le_mul_of_nonneg_right hmax hunit

end Bounds

end FixedNet
