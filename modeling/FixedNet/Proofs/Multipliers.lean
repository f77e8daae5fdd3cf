/-
**Multipliers.** The multiplier derived for a ratio has the largest shift at which the
mantissa, the ratio scaled by the shift and rounded, lies between one and the limit; a
ratio is refused exactly if there is no such shift.

The search goes down from the finest shift and gives up at the first mantissa below one.
Mantissas only fall with the shift, so nothing is missed by that: where the first mantissa
within the limit is below one, so are all that follow (`firstWithin?_of_mem`).

From the largest shift the accuracy follows. One place finer the mantissa would exceed the
limit, so the mantissa found is at least half the limit, and half a unit in its last place
is small compared with the ratio (`relative_error_le`).
-/
import FixedNet.Proofs.ExactValue
import FixedNet.Proofs.Parameters
import Mathlib.Order.Bounds.Basic

set_option autoImplicit false

namespace FixedNet

/-! ## Rounding half away from zero -/

theorem halfAway_mono {a b : ℚ} (ha : 0 ≤ a) (h : a ≤ b) : halfAway a ≤ halfAway b := by
  rw [halfAway_of_nonneg ha, halfAway_of_nonneg (ha.trans h)]
  exact Int.floor_le_floor (by linarith)

theorem abs_halfAway_sub_le {q : ℚ} (h : 0 ≤ q) : |(halfAway q : ℚ) - q| ≤ 1 / 2 := by
  rw [halfAway_of_nonneg h, abs_le]
  have hle := Int.floor_le (q + 1 / 2)
  have hlt := Int.lt_floor_add_one (q + 1 / 2)
  constructor <;> linarith

/-- Rounding goes above an integer only from half a place above it. -/
theorem lt_halfAway_iff {q : ℚ} (h : 0 ≤ q) {n : ℤ} : n < halfAway q ↔ (n : ℚ) + 1 / 2 ≤ q := by
  rw [halfAway_of_nonneg h, ← Int.add_one_le_iff, Int.le_floor, Int.cast_add, Int.cast_one]
  constructor <;> intro h <;> linarith

namespace Multiplier

/-! ## Mantissas -/

section Mantissas

variable {ratio : Single} {r : ℚ} (hratio : ratio.value? = some r)
include hratio

/-- The mantissa at a shift is the exact one: no precision is lost in the product. -/
theorem mantissaAt_eq {s : Int} (hlow : -32 ≤ s) (hhigh : s ≤ 32) :
    mantissaAt ratio s = some (halfAway (r * 2 ^ s)) := by
  unfold mantissaAt
  rw [Binary.toInt?_eq, Binary.value?_mul_twoPow Format.double_extends_single hratio hlow hhigh,
    Option.map_some]

end Mantissas

theorem scaled_nonneg {r : ℚ} (hr : 0 < r) (s : ℤ) : 0 ≤ r * 2 ^ s :=
  (mul_pos hr (zpow_pos two_pos s)).le

/-- The mantissa of a positive ratio does not fall when the shift grows. -/
theorem mantissa_mono {r : ℚ} (hr : 0 < r) {s t : ℤ} (h : s ≤ t) :
    halfAway (r * 2 ^ s) ≤ halfAway (r * 2 ^ t) :=
  halfAway_mono (scaled_nonneg hr s)
    (mul_le_mul_of_nonneg_left (zpow_le_zpow_right₀ one_le_two h) hr.le)

/-! ## The search -/

/-- **The search misses nothing.** A shift whose mantissa keeps to the limit does not exceed
the shift that is found, and if none is found, its mantissa is below one: the search gives
up at the first mantissa within the limit, and those after it are no larger. -/
theorem firstWithin?_of_mem {ratio : Single} {r : ℚ} (hr : 0 < r) {limit : Int} {l : List Int}
    (hexact : ∀ s ∈ l, mantissaAt ratio s = some (halfAway (r * 2 ^ s)))
    (hdown : l.Pairwise (· > ·)) {t : Int} (ht : t ∈ l)
    (hlimit : halfAway (r * 2 ^ t) ≤ limit) :
    (∀ m, firstWithin? ratio limit l = some m → t ≤ m.shift) ∧
      (firstWithin? ratio limit l = none → halfAway (r * 2 ^ t) < 1) := by
  induction l with
  | nil => cases ht
  | cons s rest ih =>
    obtain ⟨hfirst, hrest⟩ := List.pairwise_cons.1 hdown
    have hle : t ≤ s := by
      rcases List.mem_cons.1 ht with rfl | ht
      · exact le_rfl
      · exact (hfirst t ht).le
    rw [firstWithin?, hexact s (.head _)]
    dsimp only
    split
    · next hover =>
      -- The shift `s` is passed over, so `t` is another one.
      have htail : t ∈ rest := (List.mem_cons.1 ht).resolve_left fun h => by subst h; omega
      exact ih (fun u hu => hexact u (.tail _ hu)) hrest htail
    · split
      · next hzero =>
        refine ⟨fun m hm => ?_, fun _ => (mantissa_mono hr hle).trans_lt hzero⟩
        cases hm
      · constructor
        · intro m hm
          cases hm
          exact hle
        · intro hnone
          cases hnone

theorem pairwise_shiftsDown (n : Nat) : (shiftsDown n).Pairwise (· > ·) := by
  unfold shiftsDown
  rw [List.pairwise_map]
  exact List.pairwise_lt_range.imp fun h => by omega

/-! ## The largest shift -/

/-- The shifts of a register of `maxBits` bits at which the mantissa of `r` lies between
one and the limit. -/
def shiftsWithin (r : ℚ) (maxBits limit : Int) : Set Int :=
  {s | (-maxBits ≤ s ∧ s ≤ maxBits) ∧ 1 ≤ halfAway (r * 2 ^ s) ∧ halfAway (r * 2 ^ s) ≤ limit}

section Result

variable {ratio : Single} {r : ℚ} (hratio : ratio.value? = some r) (hr : 0 < r)
  {maxBits limit : Int} (hbits : 1 ≤ maxBits ∧ maxBits ≤ 32)
include hratio hr hbits

/-- A whole register is searched without missing a shift. -/
theorem search_of_mem {t : Int} (ht : t ∈ shiftsWithin r maxBits limit) :
    ∃ m, firstWithin? ratio limit (shiftsDown maxBits.toNat) = some m ∧ t ≤ m.shift := by
  obtain ⟨hrange, hone, hlimit⟩ := ht
  have hexact : ∀ s ∈ shiftsDown maxBits.toNat,
      mantissaAt ratio s = some (halfAway (r * 2 ^ s)) := by
    intro s hs
    rw [mem_shiftsDown] at hs
    exact mantissaAt_eq hratio (by omega) (by omega)
  obtain ⟨hfound, hnone⟩ := firstWithin?_of_mem hr hexact (pairwise_shiftsDown _)
    (mem_shiftsDown.2 (by omega)) hlimit
  cases h : firstWithin? ratio limit (shiftsDown maxBits.toNat) with
  | none => exact absurd (hnone h) (by omega)
  | some m => exact ⟨m, rfl, hfound m h⟩

/-- The search finds the largest shift with a mantissa between one and the limit, and that
mantissa. -/
theorem isGreatest_of_search {m : Multiplier}
    (h : firstWithin? ratio limit (shiftsDown maxBits.toNat) = some m) :
    IsGreatest (shiftsWithin r maxBits limit) m.shift ∧
      m.mantissa = halfAway (r * 2 ^ m.shift) := by
  obtain ⟨hmem, hmantissa, hone, hlimit⟩ := firstWithin?_mem h
  have hrange := mem_shiftsDown.1 hmem
  rw [mantissaAt_eq hratio (by omega) (by omega)] at hmantissa
  have heq := Option.some.inj hmantissa
  refine ⟨⟨⟨by omega, heq ▸ hone, heq ▸ hlimit⟩, fun t ht => ?_⟩, heq.symm⟩
  obtain ⟨m', hm', hle⟩ := search_of_mem hratio hr hbits ht
  rw [h] at hm'
  cases hm'
  exact hle

end Result

section Ratio

variable {ratio : Single} {maxBits maxValue : Int} {signed : Bool}

/-- What a multiplier is derived from, and that its shift is the largest one. -/
theorem isGreatest_of_ofRatio {m : Multiplier}
    (h : ofRatio ratio maxBits maxValue signed = .ok m) :
    ∃ r, ratio.value? = some r ∧ 0 < r ∧ (1 ≤ maxBits ∧ maxBits ≤ 32) ∧
      IsGreatest (shiftsWithin r maxBits (mantissaLimit maxBits.toNat maxValue signed)) m.shift ∧
      m.mantissa = halfAway (r * 2 ^ m.shift) := by
  obtain ⟨hfinite, hpos, hbits, hfound⟩ := ofRatio_eq_ok.1 h
  obtain ⟨r, hratio⟩ := Binary.isFinite_iff.1 hfinite
  have hr : 0 < r := (Binary.not_le_zero_iff hratio).1 hpos
  exact ⟨r, hratio, hr, hbits, isGreatest_of_search hratio hr hbits hfound⟩

/-- Half a unit in the last place bounds the error. -/
theorem abs_sub_le {r : ℚ} (hr : 0 < r) {s : ℤ} {n : ℤ} (hn : n = halfAway (r * 2 ^ s)) :
    |(n : ℚ) / 2 ^ s - r| ≤ 2 ^ (-(s + 1)) := by
  have hpow : (0 : ℚ) < 2 ^ s := zpow_pos two_pos s
  have herror : |(n : ℚ) - r * 2 ^ s| ≤ 1 / 2 := hn ▸ abs_halfAway_sub_le (scaled_nonneg hr s)
  calc |(n : ℚ) / 2 ^ s - r| = |(n : ℚ) - r * 2 ^ s| / 2 ^ s := by
        rw [← abs_of_pos hpow, ← abs_div, abs_of_pos hpow, sub_div,
          mul_div_cancel_right₀ _ hpow.ne']
    _ ≤ 1 / 2 / 2 ^ s := div_le_div_of_nonneg_right herror hpow.le
    _ = 2 ^ (-(s + 1)) := by
        rw [zpow_neg, zpow_add_one₀ two_ne_zero]
        field_simp

/-- One place finer than the largest shift the mantissa would exceed the limit, so the
scaled ratio is at least half of the limit and a quarter. -/
theorem limit_le_of_isGreatest {r : ℚ} (hr : 0 < r) {limit s : ℤ}
    (h : IsGreatest (shiftsWithin r maxBits limit) s) (hs : s < maxBits) :
    (limit : ℚ) + 1 / 2 ≤ 2 * (r * 2 ^ s) := by
  obtain ⟨⟨⟨hlow, -⟩, hone, -⟩, hmax⟩ := h
  have hover : limit < halfAway (r * 2 ^ (s + 1)) := by
    by_contra hle
    have hone' := hone.trans (mantissa_mono hr (Int.le_add_one le_rfl))
    have := hmax ⟨⟨by omega, by omega⟩, hone', not_lt.1 hle⟩
    omega
  have hhalf := (lt_halfAway_iff (scaled_nonneg hr (s + 1))).1 hover
  rw [zpow_add_one₀ two_ne_zero] at hhalf
  linarith

/-- The bound in units of the limit, as the largest shift and half a unit in the last place
give it. -/
theorem relative_error_le {r : ℚ} (hr : 0 < r) {limit s n : ℤ}
    (hgreatest : IsGreatest (shiftsWithin r maxBits limit) s) (hs : s < maxBits)
    (hn : n = halfAway (r * 2 ^ s)) :
    (2 * (limit : ℚ) + 1) * |(n : ℚ) / 2 ^ s - r| ≤ 2 * r := by
  have hlimit := limit_le_of_isGreatest hr hgreatest hs
  have hpow : (0 : ℚ) < 2 ^ (s + 1) := zpow_pos two_pos _
  have hone : (1 : ℚ) ≤ limit := by
    exact_mod_cast hgreatest.1.2.1.trans hgreatest.1.2.2
  calc (2 * (limit : ℚ) + 1) * |(n : ℚ) / 2 ^ s - r|
      ≤ (2 * (limit : ℚ) + 1) * 2 ^ (-(s + 1)) :=
        mul_le_mul_of_nonneg_left (abs_sub_le hr hn) (by linarith)
    _ ≤ 2 * r * 2 ^ (s + 1) * 2 ^ (-(s + 1)) := by
        refine mul_le_mul_of_nonneg_right ?_ (zpow_pos two_pos _).le
        rw [zpow_add_one₀ two_ne_zero]
        linarith
    _ = 2 * r := by rw [zpow_neg, mul_assoc, mul_inv_cancel₀ hpow.ne', mul_one]

/-- **Relative accuracy.** A multiplier whose shift is not the largest of its register has a
mantissa of at least half the limit, and its relative error is at most `2 / (2 * limit + 1)`.
At the limit of the default configuration these are two parts in 511. -/
theorem ofRatio_relative_error {m : Multiplier}
    (h : ofRatio ratio maxBits maxValue signed = .ok m) (hshift : m.shift < maxBits) :
    (∃ r, ratio.value? = some r ∧
      mantissaLimit maxBits.toNat maxValue signed ≤ 2 * m.mantissa ∧
      (2 * (mantissaLimit maxBits.toNat maxValue signed : ℚ) + 1) *
        |(m.mantissa : ℚ) / 2 ^ m.shift - r| ≤ 2 * r ∧
      (mantissaLimit maxBits.toNat maxValue signed = 255 →
        |(m.mantissa : ℚ) / 2 ^ m.shift - r| ≤ 2 / 511 * r)) ∧
    mantissaLimit ({} : CodeLimits).multiplierBits.toNat
      ({} : CodeLimits).multiplierMax true = 255 := by
  obtain ⟨r, hratio, hr, -, hgreatest, hmantissa⟩ := isGreatest_of_ofRatio h
  have herror := relative_error_le hr hgreatest hshift hmantissa
  refine ⟨⟨r, hratio, ?_, herror, fun hdefault => ?_⟩, by decide⟩
  · have hlimit := limit_le_of_isGreatest hr hgreatest hshift
    have hround := (abs_le.1 (abs_halfAway_sub_le (scaled_nonneg hr m.shift))).1
    rw [← hmantissa] at hround
    -- Both are integers, so being above the limit less one half is enough.
    have hstrict : (mantissaLimit maxBits.toNat maxValue signed : ℚ) - 1 < 2 * m.mantissa := by
      linarith
    have : mantissaLimit maxBits.toNat maxValue signed - 1 < 2 * m.mantissa := by
      exact_mod_cast hstrict
    omega
  · rw [hdefault] at herror
    push_cast at herror
    linarith

/-- A ratio of one third, at the limits of the default configuration. -/
theorem ofRatio_relative_error_third :
    ofRatio (.ofFraction 1 3) 32 255 true = .ok ⟨171, 9⟩ ∧
    ∃ r, (.ofFraction 1 3 : Single).value? = some r ∧ |(171 : ℚ) / 2 ^ (9 : ℤ) - r| ≤ 2 / 511 * r := by
  have h : ofRatio (.ofFraction 1 3) 32 255 true = .ok ⟨171, 9⟩ := by decide +kernel
  obtain ⟨⟨r, hr, -, -, hdefault⟩, -⟩ := ofRatio_relative_error h (by decide)
  exact ⟨h, r, hr, hdefault (by decide)⟩

end Ratio

end Multiplier

end FixedNet
