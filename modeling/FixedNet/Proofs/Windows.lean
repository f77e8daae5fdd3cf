/-
**Windows in exact arithmetic.** As long as placing a window keeps to signed 64-bit words,
the words do not matter: the places are exactly those at which the window ends within the
padded axis (`Walk.lt_places_iff`), and a tap reads the axis at its exact position, or
nothing where that lies outside (`Walk.source_eq`). The position of a tap needs no
condition of its own. A window that is placed has all its taps on the padded axis, so only
the last difference can leave the words, where an axis is cropped in front and padded behind
up to their end (`Walk.position_overrun`); and what wraps around there is not read.
-/
import FixedNet.Window
import Mathlib.Tactic.Linarith
import Mathlib.Tactic.Ring

set_option autoImplicit false

namespace FixedNet.Walk

/-- Placing a window of `kernel` taps on an axis keeps to signed 64-bit words: the counts
are read as themselves, and neither the span of the window nor the padded axis leaves the
range. What else is computed lies between these. -/
structure Regular (w : Walk) (extent kernel : Nat) : Prop where
  extent_lt : extent < 2 ^ 63
  kernel_lt : kernel < 2 ^ 63
  stride_lt : w.stride < 2 ^ 63
  dilation_lt : w.dilation < 2 ^ 63
  span_lt : (max kernel 1 - 1) * max w.dilation 1 + 1 < 2 ^ 63
  padded_ge : -2 ^ 63 ≤ extent + w.padding.sum
  padded_lt : extent + w.padding.sum < 2 ^ 63

/-- The axis position of a tap in exact arithmetic. -/
def position (w : Walk) (place tap : Nat) : ℤ :=
  (place * w.stride + tap * w.dilation : ℕ) - w.padding.before.toInt

/-- What lies at a position of an axis: a place of the axis, or nothing outside. -/
def onAxis (extent : Nat) (position : ℤ) : Option Nat :=
  if 0 ≤ position ∧ position < extent then some position.toNat else none

variable {w : Walk} {extent kernel : Nat} (h : w.Regular extent kernel)
include h

theorem Regular.span_eq :
    w.span kernel = ((max kernel 1 - 1) * max w.dilation 1 + 1 : ℕ) := by
  have hkernel := h.kernel_lt
  have hdilation := h.dilation_lt
  have hspan : (signedWord (max kernel 1) - 1) * signedWord (max w.dilation 1) + 1 =
      ((max kernel 1 - 1) * max w.dilation 1 + 1 : ℕ) := by
    rw [signedWord_of_lt (by omega), signedWord_of_lt (by omega)]
    push_cast [Nat.le_max_right kernel 1]
    ring
  have hlt := h.span_lt
  unfold Walk.span
  rw [hspan]
  exact wrap_of_mem (by omega) (by omega)

/-- **Places of a window.** The window is placed exactly where it ends within the padded
axis. -/
theorem lt_places_iff {place : Nat} :
    place < w.places extent kernel ↔
      ((place * max w.stride 1 + ((max kernel 1 - 1) * max w.dilation 1 + 1) : ℕ) : ℤ) ≤
        extent + w.padding.sum := by
  have hpadded := h.padded_lt
  have hstride : max w.stride 1 < 2 ^ 63 := by have := h.stride_lt; omega
  have hpos : 0 < max w.stride 1 := by omega
  unfold places
  rw [h.span_eq, signedWord_of_lt h.extent_lt, signedWord_of_lt hstride,
    wrap_of_mem h.padded_ge hpadded]
  generalize (max kernel 1 - 1) * max w.dilation 1 + 1 = span
  generalize max w.stride 1 = stride at *
  generalize (extent : ℤ) + w.padding.sum = padded at *
  dsimp only
  split
  · have : 0 ≤ ((place * stride : ℕ) : ℤ) := Int.natCast_nonneg _
    push_cast at *
    omega
  · obtain ⟨gap, hgap⟩ := Int.eq_ofNat_of_zero_le (show 0 ≤ padded - span by omega)
    have hplaces : (padded - span).tdiv stride + 1 = (gap / stride + 1 : ℕ) := by
      rw [hgap, ← Int.ofNat_tdiv, Nat.cast_add, Nat.cast_one]
    have hquotient : gap / stride ≤ gap := Nat.div_le_self _ _
    rw [wrap_of_mem (by omega) (by omega), hplaces, unsignedWord_of_lt (by omega),
      Nat.lt_succ_iff, Nat.le_div_iff_mul_le hpos]
    push_cast at *
    omega

/-- What a tap reads lies on the axis. -/
theorem Regular.source_lt {place tap position : Nat}
    (hsource : w.source extent place tap = some position) : position < extent := by
  unfold source at hsource
  rw [signedWord_of_lt h.extent_lt] at hsource
  dsimp only at hsource
  split at hsource
  · have hposition := Option.some.inj hsource
    omega
  · cases hsource

/-- A placed window has all its taps on the padded axis. -/
theorem tap_lt (hstride : 0 < w.stride) {place tap : Nat}
    (hplace : place < w.places extent kernel) (htap : tap < kernel) :
    ((place * w.stride + tap * w.dilation : ℕ) : ℤ) < extent + w.padding.sum := by
  have hend := (lt_places_iff h).1 hplace
  have hreach : tap * w.dilation ≤ (max kernel 1 - 1) * max w.dilation 1 :=
    Nat.mul_le_mul (by omega) (by omega)
  rw [Nat.max_eq_left hstride] at hend
  omega

/-- The index of a tap of a placed window is a signed word. -/
theorem index_lt (hstride : 0 < w.stride) {place tap : Nat}
    (hplace : place < w.places extent kernel) (htap : tap < kernel) :
    place * w.stride + tap * w.dilation < 2 ^ 63 := by
  have hlt := tap_lt h hstride hplace htap
  have hpadded := h.padded_lt
  omega

/-- **Positions of taps.** A tap of a placed window reads the axis at its exact position. Where
the difference wraps around, the position lies past the axis, and the word before it: either way
nothing is read. -/
theorem source_eq (hstride : 0 < w.stride) {place tap : Nat}
    (hplace : place < w.places extent kernel) (htap : tap < kernel) :
    w.source extent place tap = onAxis extent (w.position place tap) := by
  have hextent := h.extent_lt
  have hlow := w.padding.before.le_toInt
  have hhigh := w.padding.before.toInt_lt
  have hindex := index_lt h hstride hplace htap
  unfold source onAxis position
  generalize place * w.stride + tap * w.dilation = index at *
  dsimp only
  rw [signedWord_of_lt hindex, signedWord_of_lt hextent]
  -- The sum is a signed word, so only the difference can leave them, and only upwards.
  rcases Int.lt_or_le ((index : ℤ) - w.padding.before.toInt) (2 ^ 63) with hin | hout
  · rw [wrap_of_mem (by omega) hin]
  · rw [wrap_of_ge hout (by omega), if_neg (by omega), if_neg (by omega)]

omit h

end FixedNet.Walk
