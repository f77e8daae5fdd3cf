/-
**Rounding, in units.** All arithmetic of a format goes through one rounding of a quotient
of naturals to a count of units. This file says what that rounding can do to a quotient:

* It does not cross a number of the format: one that is not above the quotient is not above
  the rounded count, and one that is not below is not below (`Format.le_roundUnits`,
  `Format.roundUnits_le`).
* It moves a whole number of units by at most one part in `2 ^ precision`, and any other
  quotient by at most half a unit more (`Format.abs_roundUnits_one_sub_le`,
  `Format.abs_roundUnits_sub_le`). Sums of numbers are whole numbers of units, so nothing is
  lost where they are small.

`Binary.Counts` then carries this over to sums, products and quotients of numbers that are
not negative.
-/
import FixedNet.Proofs.ExactValue
import Mathlib.Data.Nat.Cast.Order.Field

set_option autoImplicit false

namespace FixedNet

/-! ## The nearest integer -/

theorem div_le_roundHalfEven (num den : Nat) : num / den ≤ roundHalfEven num den := by
  unfold roundHalfEven
  dsimp only
  split
  · exact le_rfl
  · split <;> omega

theorem le_roundHalfEven {n num den : Nat} (hden : 0 < den) (h : n * den ≤ num) :
    n ≤ roundHalfEven num den :=
  ((Nat.le_div_iff_mul_le hden).2 h).trans (div_le_roundHalfEven num den)

theorem roundHalfEven_le_of_le {n num den : Nat} (hden : 0 < den) (h : num ≤ n * den) :
    roundHalfEven num den ≤ n := by
  rcases h.eq_or_lt with rfl | hlt
  · rw [roundHalfEven_mul n hden]
  · have hfloor : num / den < n := (Nat.div_lt_iff_lt_mul hden).2 hlt
    exact (roundHalfEven_le num den).trans hfloor

theorem roundHalfEven_cases (num den : Nat) :
    (roundHalfEven num den = num / den ∧ 2 * (num % den) ≤ den) ∨
      (roundHalfEven num den = num / den + 1 ∧ den ≤ 2 * (num % den)) := by
  have hparity := Nat.mod_two_eq_zero_or_one (num / den)
  unfold roundHalfEven
  dsimp only
  split
  · omega
  · split <;> omega

/-- Rounding to an integer moves a quotient by at most one half. -/
theorem abs_roundHalfEven_sub_le (num : Nat) {den : Nat} (hden : 0 < den) :
    |(roundHalfEven num den : ℚ) - num / den| ≤ 1 / 2 := by
  have hpos : (0 : ℚ) < den := by exact_mod_cast hden
  have hdiv : (den : ℚ) * (num / den : ℕ) + (num % den : ℕ) = num := by
    exact_mod_cast Nat.div_add_mod num den
  have hmod : ((num % den : ℕ) : ℚ) < den := by exact_mod_cast Nat.mod_lt num hden
  have hnonneg : (0 : ℚ) ≤ (num % den : ℕ) := Nat.cast_nonneg _
  rw [abs_le, neg_le_sub_iff_le_add, sub_le_iff_le_add, div_le_iff₀ hpos, ← sub_le_iff_le_add',
    le_div_iff₀ hpos]
  rcases roundHalfEven_cases num den with ⟨h, hside⟩ | ⟨h, hside⟩
  · have hside : 2 * ((num % den : ℕ) : ℚ) ≤ den := by exact_mod_cast hside
    rw [h]
    constructor <;> linarith
  · have hside : (den : ℚ) ≤ 2 * (num % den : ℕ) := by exact_mod_cast hside
    rw [h]
    push_cast
    constructor <;> linarith

theorem roundHalfEven_scale (num den : Nat) {c : Nat} (hc : 0 < c) :
    roundHalfEven (num * c) (den * c) = roundHalfEven num den := by
  have hlow : 2 * (num % den * c) < den * c ↔ 2 * (num % den) < den := by
    rw [← mul_assoc, Nat.mul_lt_mul_right hc]
  have hhigh : den * c < 2 * (num % den * c) ↔ den < 2 * (num % den) := by
    rw [← mul_assoc, Nat.mul_lt_mul_right hc]
  simp only [roundHalfEven, Nat.mul_div_mul_right _ _ hc, Nat.mul_mod_mul_right, hlow, hhigh]

/-! ## The nearest count of units -/

namespace Format

variable (f : Format)

/-- Beyond the precision, a count is at least the least significand times its spacing. -/
theorem two_pow_le_of_excess {units : Nat} (h : 0 < f.excess units) :
    2 ^ (f.precision - 1 + f.excess units) ≤ units := by
  have hp := f.one_le_precision
  have hzero : units ≠ 0 := by
    rintro rfl
    unfold excess at h
    simp at h
    omega
  have hexponent : f.precision - 1 + f.excess units = units.log2 := by
    unfold excess at h ⊢
    omega
  rw [hexponent]
  exact Nat.log2_self_le hzero

theorem excess_mono {m n : Nat} (h : m ≤ n) : f.excess m ≤ f.excess n := by
  have hlog : m.log2 ≤ n.log2 := by
    rcases Nat.eq_zero_or_pos m with rfl | hm
    · simp
    · exact (Nat.le_log2 (by omega)).2 ((Nat.log2_self_le (by omega)).trans h)
  unfold excess
  omega

variable {f}

/-- A number of the format that is not above a quotient is not above its rounding. -/
theorem le_roundUnits {units num den : Nat} (hden : 0 < den) (hu : f.Fits units)
    (h : units * den ≤ num) : units ≤ f.roundUnits num den := by
  have hspacing : 0 < den * 2 ^ f.excess (num / den) := Nat.mul_pos hden (Nat.two_pow_pos _)
  have hfloor : units ≤ num / den := (Nat.le_div_iff_mul_le hden).2 h
  rcases (f.excess_mono hfloor).eq_or_lt with he | he
  · -- In the last binade the number is itself a multiple of the spacing.
    obtain ⟨n, hn⟩ := hu.two_pow_excess_dvd
    rw [he] at hn
    have hle : n * (den * 2 ^ f.excess (num / den)) ≤ num := by
      calc n * (den * 2 ^ f.excess (num / den)) = 2 ^ f.excess (num / den) * n * den := by ring
        _ ≤ num := by rwa [← hn]
    calc units = n * 2 ^ f.excess (num / den) := by rw [mul_comm, ← hn]
      _ ≤ f.roundUnits num den := Nat.mul_le_mul_right _ (le_roundHalfEven hspacing hle)
  · -- In an earlier one it is below a power of two that is not above the quotient.
    have hp := f.one_le_precision
    have hpower := f.two_pow_le_of_excess (Nat.zero_lt_of_lt he)
    have hbelow : units < 2 ^ (f.precision - 1 + f.excess (num / den)) :=
      (f.lt_two_pow_excess units).trans_le (Nat.pow_le_pow_right (by decide) (by omega))
    have hle : 2 ^ (f.precision - 1) * (den * 2 ^ f.excess (num / den)) ≤ num := by
      calc 2 ^ (f.precision - 1) * (den * 2 ^ f.excess (num / den))
          = 2 ^ (f.precision - 1 + f.excess (num / den)) * den := by rw [Nat.pow_add]; ring
        _ ≤ num := (Nat.le_div_iff_mul_le hden).1 hpower
    calc units ≤ 2 ^ (f.precision - 1) * 2 ^ f.excess (num / den) := by
          rw [← Nat.pow_add]
          exact hbelow.le
      _ ≤ f.roundUnits num den := Nat.mul_le_mul_right _ (le_roundHalfEven hspacing hle)

/-- A number of the format that is not below a quotient is not below its rounding. -/
theorem roundUnits_le {units num den : Nat} (hden : 0 < den) (hu : f.Fits units)
    (h : num ≤ units * den) : f.roundUnits num den ≤ units := by
  have hspacing : 0 < den * 2 ^ f.excess (num / den) := Nat.mul_pos hden (Nat.two_pow_pos _)
  have hfloor : num / den ≤ units := by
    rw [← Nat.mul_div_cancel units hden]
    exact Nat.div_le_div_right h
  obtain ⟨n, hn⟩ : 2 ^ f.excess (num / den) ∣ units :=
    (Nat.pow_dvd_pow 2 (f.excess_mono hfloor)).trans hu.two_pow_excess_dvd
  have hle : num ≤ n * (den * 2 ^ f.excess (num / den)) := by
    calc num ≤ units * den := h
      _ = n * (den * 2 ^ f.excess (num / den)) := by rw [hn]; ring
  calc f.roundUnits num den ≤ n * 2 ^ f.excess (num / den) :=
        Nat.mul_le_mul_right _ (roundHalfEven_le_of_le hspacing hle)
    _ = units := by rw [mul_comm, ← hn]

theorem roundUnits_scale (num den : Nat) {c : Nat} (hc : 0 < c) :
    f.roundUnits (num * c) (den * c) = f.roundUnits num den := by
  unfold roundUnits
  dsimp only
  rw [Nat.mul_div_mul_right _ _ hc, mul_right_comm, roundHalfEven_scale _ _ hc]

/-- Rounding moves a quotient by at most half the spacing at its magnitude. -/
theorem abs_roundUnits_sub_le_spacing (num : Nat) {den : Nat} (hden : 0 < den) :
    |(f.roundUnits num den : ℚ) - num / den| ≤ 2 ^ f.excess (num / den) / 2 := by
  have hspacing : (0 : ℚ) < 2 ^ f.excess (num / den) := by positivity
  have hpos : (0 : ℚ) < den := by exact_mod_cast hden
  have hround := abs_roundHalfEven_sub_le num (Nat.mul_pos hden (Nat.two_pow_pos (f.excess (num / den))))
  have hscaled : (f.roundUnits num den : ℚ) - num / den =
      ((roundHalfEven num (den * 2 ^ f.excess (num / den)) : ℚ) -
        num / ((den * 2 ^ f.excess (num / den) : ℕ) : ℚ)) * 2 ^ f.excess (num / den) := by
    unfold roundUnits
    push_cast
    field_simp
  rw [hscaled, abs_mul, abs_of_pos hspacing]
  linarith [mul_le_mul_of_nonneg_right hround hspacing.le]

theorem half_spacing_le (num den : Nat) (h : 0 < f.excess (num / den)) :
    (2 ^ f.excess (num / den) / 2 : ℚ) ≤ num / den / 2 ^ f.precision := by
  have hp := f.one_le_precision
  have hpower : 2 ^ f.precision * 2 ^ f.excess (num / den) ≤ 2 * (num / den) := by
    calc 2 ^ f.precision * 2 ^ f.excess (num / den)
        = 2 * 2 ^ (f.precision - 1 + f.excess (num / den)) := by
          rw [← Nat.pow_add, ← Nat.pow_succ']
          congr 1
          omega
      _ ≤ 2 * (num / den) := Nat.mul_le_mul_left 2 (f.two_pow_le_of_excess h)
  have hfloor : ((num / den : ℕ) : ℚ) ≤ num / den := Nat.cast_div_le
  have hcast : (2 ^ f.precision * 2 ^ f.excess (num / den) : ℚ) ≤ 2 * (num / den : ℕ) := by
    exact_mod_cast hpower
  rw [le_div_iff₀ (by positivity)]
  linarith

/-- The rounding of any quotient. -/
theorem abs_roundUnits_sub_le (num : Nat) {den : Nat} (hden : 0 < den) :
    |(f.roundUnits num den : ℚ) - num / den| ≤ num / den / 2 ^ f.precision + 1 / 2 := by
  have hspacing := f.abs_roundUnits_sub_le_spacing num hden
  have hnonneg : (0 : ℚ) ≤ num / den / 2 ^ f.precision := by positivity
  rcases Nat.eq_zero_or_pos (f.excess (num / den)) with he | he
  · rw [he, pow_zero] at hspacing
    linarith
  · linarith [half_spacing_le num den he]

/-- The rounding of a whole number of units: what is within the precision is exact. -/
theorem abs_roundUnits_one_sub_le (n : Nat) :
    |(f.roundUnits n 1 : ℚ) - n| ≤ n / 2 ^ f.precision := by
  have hspacing := f.abs_roundUnits_sub_le_spacing n Nat.one_pos
  have hhalf := half_spacing_le (f := f) n 1
  simp only [Nat.cast_one, div_one, Nat.div_one] at hspacing hhalf
  rcases Nat.eq_zero_or_pos (f.excess n) with he | he
  · have hexact : f.roundUnits n 1 = n := by
      have hround := roundHalfEven_mul n Nat.one_pos
      simp only [mul_one] at hround
      simp [roundUnits, he, hround]
    rw [hexact, sub_self, abs_zero]
    positivity
  · exact hspacing.trans (hhalf he)

theorem inv_two_pow_precision_le (f : Format) : 1 / (2 : ℚ) ^ f.precision ≤ 1 / 2 := by
  have hpower : (2 : ℚ) ^ 1 ≤ 2 ^ f.precision := pow_le_pow_right₀ one_le_two f.one_le_precision
  exact one_div_le_one_div_of_le two_pos (by linarith)

theorem roundUnits_one_bounds (n : Nat) :
    (n : ℚ) / 2 ≤ f.roundUnits n 1 ∧ (f.roundUnits n 1 : ℚ) ≤ 3 * n / 2 := by
  have herror := abs_le.1 (f.abs_roundUnits_one_sub_le n)
  have hshare : (n : ℚ) / 2 ^ f.precision ≤ n / 2 := by
    rw [div_eq_mul_one_div, div_eq_mul_one_div (n : ℚ) 2]
    exact mul_le_mul_of_nonneg_left f.inv_two_pow_precision_le (Nat.cast_nonneg n)
  constructor <;> linarith

theorem roundUnits_one_pos {n : Nat} (hn : 0 < n) : 0 < f.roundUnits n 1 := by
  have hpos : (0 : ℚ) < n := by exact_mod_cast hn
  have hround : (0 : ℚ) < f.roundUnits n 1 := by linarith [(f.roundUnits_one_bounds n).1]
  exact_mod_cast hround

end Format

/-! ## Numbers that are not negative -/

namespace Binary

variable {f : Format} {x y : Binary f} {m n : ℕ}

/-- The number is a count of `n` units. Zero units may have either sign. -/
def Counts (x : Binary f) (n : ℕ) : Prop :=
  ∃ s h, x = .finite s n h ∧ (s = true → n = 0)

theorem signed_of_zero {s : Bool} (h : s = true → n = 0) : signed s n = n := by
  cases s with
  | false => rfl
  | true => simp [signed, h rfl]

namespace Counts

theorem fits (h : x.Counts n) : f.Fits n := by
  obtain ⟨-, hn, -, -⟩ := h
  exact hn

theorem isFinite (h : x.Counts n) : x.isFinite := by
  obtain ⟨s, hn, rfl, -⟩ := h
  rfl

theorem position (h : x.Counts n) : x.position = some (n : ℤ) := by
  obtain ⟨s, hn, rfl, hs⟩ := h
  rw [Binary.position, signed_of_zero hs]

theorem value? (h : x.Counts n) : x.value? = some ((n : ℚ) * 2 ^ (-(f.unitBits : ℤ))) := by
  obtain ⟨s, hn, rfl, hs⟩ := h
  rw [Binary.value?, signed_of_zero hs, Int.cast_natCast]

end Counts

theorem counts_of_position (hx : x.isFinite) (h : x.position = some (n : ℤ)) : x.Counts n := by
  cases x with
  | nan => cases hx
  | infinite s => cases hx
  | finite s u hu =>
    rw [position, Option.some.injEq] at h
    have hu' : u = n := by
      unfold signed at h
      split at h <;> omega
    subst hu'
    refine ⟨s, hu, rfl, fun hs => ?_⟩
    simp only [signed, hs, if_true] at h
    omega

/-- The number is the rounding of `num / den` units, infinite beyond the range. -/
def IsRounded (x : Binary f) (num den : ℕ) : Prop :=
  (f.roundUnits num den < 2 ^ f.magnitudeBits ∧ x.Counts (f.roundUnits num den)) ∨
    (2 ^ f.magnitudeBits ≤ f.roundUnits num den ∧ x = .infinite false)

theorem roundUnits_zero (f : Format) {den : ℕ} (hden : 0 < den) : f.roundUnits 0 den = 0 := by
  simpa using f.roundUnits_of_fits f.fits_zero hden

theorem isRounded_nearest {s : Bool} {num den : ℕ} (hden : 0 < den) (hs : s = true → num = 0) :
    (nearest s num den : Binary f).IsRounded num den := by
  unfold nearest
  split
  · next hlt =>
    refine .inl ⟨hlt, s, _, rfl, fun h => ?_⟩
    rw [hs h, roundUnits_zero f hden]
  · next hge =>
    refine .inr ⟨not_lt.1 hge, ?_⟩
    cases s with
    | false => rfl
    | true =>
      rw [hs rfl, roundUnits_zero f hden] at hge
      exact absurd (Nat.two_pow_pos _) hge

namespace IsRounded

variable {num den : ℕ} (h : x.IsRounded num den)
include h

theorem isFinite_iff : x.isFinite ↔ f.roundUnits num den < 2 ^ f.magnitudeBits := by
  rcases h with ⟨hlt, hx⟩ | ⟨hge, rfl⟩
  · exact iff_of_true hx.isFinite hlt
  · exact iff_of_false (by simp [isFinite]) (not_lt.2 hge)

theorem counts (hlt : f.roundUnits num den < 2 ^ f.magnitudeBits) :
    x.Counts (f.roundUnits num den) := by
  rcases h with ⟨-, hx⟩ | ⟨hge, -⟩
  · exact hx
  · exact absurd hlt (not_lt.2 hge)

theorem eq_infinite (hx : ¬ x.isFinite) : x = .infinite false := by
  rcases h with ⟨-, hcounts⟩ | ⟨-, hinfinite⟩
  · exact absurd hcounts.isFinite hx
  · exact hinfinite

theorem position_eq_zero_iff : x.position = some 0 ↔ f.roundUnits num den = 0 := by
  rcases h with ⟨-, hx⟩ | ⟨hge, rfl⟩
  · rw [hx.position, Option.some.injEq]
    exact Nat.cast_eq_zero
  · have hpos := Nat.two_pow_pos f.magnitudeBits
    refine iff_of_false ?_ (by omega)
    rw [position, Option.some.injEq, signed, if_neg Bool.false_ne_true]
    omega

/-- Compared with a number of the format, the rounding is as good as its count: infinity
stands beyond the range. -/
theorem lt_iff (hy : y.Counts n) : x < y ↔ f.roundUnits num den < n := by
  have hrange := hy.fits.1
  rcases h with ⟨-, hx⟩ | ⟨hge, rfl⟩
  · simp [Binary.lt_iff, hx.position, hy.position]
  · refine iff_of_false ?_ (by omega)
    rw [Binary.lt_iff]
    rintro ⟨p, q, hp, hq, hlt⟩
    have hp : ((2 ^ f.magnitudeBits : ℕ) : ℤ) = p := Option.some.inj hp
    rw [hy.position, Option.some.injEq] at hq
    omega

end IsRounded

/-! ### Arithmetic -/

theorem Counts.add (hx : x.Counts m) (hy : y.Counts n) : (x + y).IsRounded (m + n) 1 := by
  obtain ⟨s, hm, rfl, hs⟩ := hx
  obtain ⟨t, hn, rfl, ht⟩ := hy
  change (nearest (if signed s m + signed t n = 0 then s && t
    else decide (signed s m + signed t n < 0)) (signed s m + signed t n).natAbs 1).IsRounded _ _
  rw [signed_of_zero hs, signed_of_zero ht]
  have hsum : ((m : ℤ) + n).natAbs = m + n := by omega
  rw [hsum]
  refine isRounded_nearest Nat.one_pos fun h => ?_
  split at h
  · omega
  · have := of_decide_eq_true h
    omega

theorem exists_of_neg_counts (h : (-x).Counts m) :
    ∃ s hm, x = .finite s m hm ∧ signed s m = -(m : ℤ) := by
  obtain ⟨s, hm, hx, hs⟩ := h
  cases x with
  | nan => cases hx
  | infinite t => cases hx
  | finite t u hu =>
    cases hx
    refine ⟨t, hu, rfl, ?_⟩
    cases t with
    | false => simp [signed, hs rfl]
    | true => rfl

/-- A difference that is not negative. -/
theorem Counts.add_of_neg (hx : (-x).Counts m) (hy : y.Counts n) (h : m ≤ n) :
    (x + y).IsRounded (n - m) 1 := by
  obtain ⟨s, hm, rfl, hs⟩ := exists_of_neg_counts hx
  obtain ⟨t, hn, rfl, ht⟩ := hy
  change (nearest (if signed s m + signed t n = 0 then s && t
    else decide (signed s m + signed t n < 0)) (signed s m + signed t n).natAbs 1).IsRounded _ _
  rw [hs, signed_of_zero ht]
  have hsum : (-(m : ℤ) + n).natAbs = n - m := by omega
  rw [hsum]
  refine isRounded_nearest Nat.one_pos fun h => ?_
  split at h
  · omega
  · have := of_decide_eq_true h
    omega

theorem Counts.mul (hx : x.Counts m) (hy : y.Counts n) :
    (x * y).IsRounded (m * n) (2 ^ f.unitBits) := by
  obtain ⟨s, hm, rfl, hs⟩ := hx
  obtain ⟨t, hn, rfl, ht⟩ := hy
  refine isRounded_nearest (Nat.two_pow_pos _) fun h => ?_
  cases s with
  | false =>
    cases t with
    | false => cases h
    | true => rw [ht rfl, Nat.mul_zero]
  | true => rw [hs rfl, Nat.zero_mul]

theorem Counts.div (hx : x.Counts m) (hy : y.Counts n) (hpos : 0 < n) :
    (x / y).IsRounded (m * 2 ^ f.unitBits) n := by
  obtain ⟨s, hm, rfl, hs⟩ := hx
  obtain ⟨t, hn, rfl, ht⟩ := hy
  change (if n = 0 then if m = 0 then .nan else .infinite (s != t)
    else nearest (s != t) (m * 2 ^ f.unitBits) n).IsRounded _ _
  rw [if_neg hpos.ne']
  refine isRounded_nearest hpos fun h => ?_
  cases t with
  | false =>
    cases s with
    | false => cases h
    | true => rw [hs rfl, Nat.zero_mul]
  | true => exact absurd (ht rfl) hpos.ne'

end Binary

end FixedNet
