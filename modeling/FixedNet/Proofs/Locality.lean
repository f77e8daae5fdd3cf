/-
**Locality of convolutions.** An element of a convolution depends on the bias of its filter
and on what its taps read, in the order of the taps (`Convolution.accumulate_congr`). The
floating-point and the fixed-point kernel run the same loop over the taps, so what follows
from this holds of both, and bit for bit, since no sum is reordered.

* A convolution in groups is a dense convolution for each group, side by side: the channels
  of the operand and the filters are both cut into as many blocks as there are groups, and a
  block of the result is made from its own block of the operand (`groups_independent`).
* A convolution with strides takes every so many of the elements of the convolution with
  unit strides (`strides_subsample`).
-/
import FixedNet.Proofs.Accumulation
import Mathlib.Algebra.Order.Floor.Div

set_option autoImplicit false

namespace FixedNet

/-! ## Blocks of a tensor -/

namespace Tensor4

variable {α : Type} [Inhabited α]

/-- The block of a tensor that has the given extents and starts at an item and a channel. -/
def block (t : Tensor4 α) (item channel : Nat) (e : Extents) : Tensor4 α :=
  .ofFn e fun i j y x => (t.get? (item + i) (channel + j) y x).getD default

/-- Some of the channels of a tensor, in all its items. -/
def channels (t : Tensor4 α) (first count : Nat) : Tensor4 α :=
  t.block 0 first { t.extents with inner := count }

@[simp] theorem extents_channels (t : Tensor4 α) (first count : Nat) :
    (t.channels first count).extents = { t.extents with inner := count } := rfl

/-- A block within the tensor holds the elements of the tensor. -/
theorem get?_block (t : Tensor4 α) (item channel : Nat) (e : Extents) {i j y x : Nat}
    (hi : i < e.outer) (hj : j < e.inner) (hitem : item + i < t.extents.outer)
    (hchannel : channel + j < t.extents.inner) (hrows : e.rows = t.extents.rows)
    (hcols : e.cols = t.extents.cols) :
    (t.block item channel e).get? i j y x = t.get? (item + i) (channel + j) y x := by
  unfold block
  rw [get?_ofFn]
  by_cases hplace : y < e.rows ∧ x < e.cols
  · obtain ⟨a, ha⟩ := Option.isSome_iff_exists.1
      (get?_isSome hitem hchannel (hrows ▸ hplace.1) (hcols ▸ hplace.2))
    simp [hi, hj, hplace, ha]
  · rw [hrows, hcols] at hplace
    simp [hi, hj, hrows, hcols, hplace, get?]

theorem get?_channels {t : Tensor4 α} {first count i j y x : Nat} (hi : i < t.extents.outer)
    (hj : j < count) (hchannel : first + j < t.extents.inner) :
    (t.channels first count).get? i j y x = t.get? i (first + j) y x := by
  have hitem : 0 + i < t.extents.outer := by omega
  have hblock := get?_block t 0 first { t.extents with inner := count } (y := y) (x := x) hi hj
    hitem hchannel rfl rfl
  rwa [Nat.zero_add] at hblock

theorem channels_ofFn {e : Extents} {first count : Nat} (h : first + count ≤ e.inner)
    (f : (i j y x : Nat) → α) :
    (ofFn e f).channels first count =
      ofFn { e with inner := count } fun i j y x => f i (first + j) y x := by
  unfold channels block
  refine ofFn_congr fun i j y x hi hj hy hx => ?_
  have hj' : first + j < e.inner := Nat.lt_of_lt_of_le (Nat.add_lt_add_left hj first) h
  rw [get?_ofFn, Nat.zero_add, if_pos ⟨hi, hj', hy, hx⟩, Option.getD_some]

/-- Tensors that agree on some channels have these in common. -/
theorem channels_congr {t t' : Tensor4 α} {first count : Nat} (he : t'.extents = t.extents)
    (h : ∀ i j y x, j < count → t'.get? i (first + j) y x = t.get? i (first + j) y x) :
    t'.channels first count = t.channels first count := by
  unfold channels block
  rw [he]
  apply ofFn_congr
  intro i j y x _ hj _ _
  rw [h _ _ _ _ hj]

end Tensor4

/-! ## What an element depends on -/

namespace Convolution

section Congruence

variable {ω β ξ α : Type} {c c' : Convolution ω β} {e e' : Extents}
  {filter filter' row row' col col' : Nat}

/-- Taps are found from the positions of the window and the extents of the weights. -/
theorem taps_eq_map (hrow : c.vertical.source e.rows row = c'.vertical.source e'.rows row')
    (hcol : c.horizontal.source e.cols col = c'.horizontal.source e'.cols col')
    (hweights : c.weights.extents.inner = c'.weights.extents.inner ∧
      c.weights.extents.rows = c'.weights.extents.rows ∧
      c.weights.extents.cols = c'.weights.extents.cols) :
    c.taps e filter row col = (c'.taps e' filter' row' col').map
      fun t => { t with channel := c.firstChannel filter + t.weightChannel } := by
  unfold taps
  rw [hrow, hcol, hweights.1, hweights.2.1, hweights.2.2]
  -- Only which taps have a source matters here, not where it is.
  obtain ⟨rowAt, hrowAt⟩ : ∃ f, f = c'.vertical.source e'.rows row' := ⟨_, rfl⟩
  obtain ⟨colAt, hcolAt⟩ : ∃ f, f = c'.horizontal.source e'.cols col' := ⟨_, rfl⟩
  rw [← hrowAt, ← hcolAt, List.map_flatMap]
  refine List.flatMap_congr fun k _ => ?_
  rw [List.map_flatMap]
  refine List.flatMap_congr fun ky _ => ?_
  cases rowAt ky with
  | none => rfl
  | some y => simp [List.map_filterMap, Function.comp_def]

/-- **An element depends on what its taps read.** Two elements of two convolutions have the
same accumulator if their windows meet the same positions, their filters have the same bias
and weights, and their groups find the same in the operands. -/
theorem accumulate_congr {x x' : Tensor4 ξ} {item : Nat} (start : β → α) (zero : α)
    (step : α → ξ → ω → α)
    (hrow : c.vertical.source x.extents.rows row = c'.vertical.source x'.extents.rows row')
    (hcol : c.horizontal.source x.extents.cols col = c'.horizontal.source x'.extents.cols col')
    (hweights : c.weights.extents.inner = c'.weights.extents.inner ∧
      c.weights.extents.rows = c'.weights.extents.rows ∧
      c.weights.extents.cols = c'.weights.extents.cols)
    (hbias : c.bias[filter]? = c'.bias[filter']?)
    (hread : ∀ k y z, k < c'.weights.extents.inner →
      x.get? item (c.firstChannel filter + k) y z = x'.get? item (c'.firstChannel filter' + k) y z)
    (hweight : ∀ k ky kx, k < c'.weights.extents.inner →
      c.weights.get? filter k ky kx = c'.weights.get? filter' k ky kx) :
    c.accumulate x start zero step item filter row col =
      c'.accumulate x' start zero step item filter' row' col' := by
  unfold accumulate
  rw [hbias, taps_eq_map hrow hcol hweights, List.foldl_map]
  refine List.foldl_ext _ _ _ fun acc t ht => ?_
  obtain ⟨⟨hk, -, -⟩, hchannel, -, -⟩ := exists_of_mem_taps ht
  simp only [absorb, hchannel, hread _ _ _ hk, hweight _ _ _ hk]

end Congruence

end Convolution

/-! ## Kernels -/

section Kernels

variable {ω β ξ υ : Type}

/-- A way of applying convolutions to operands. -/
abbrev Kernel (ω β ξ υ : Type) :=
  Convolution ω β → Tensor4 ξ → Except ConvolutionError (Tensor4 υ)

/-- The fixed-point kernel for one way of reading and writing codes. -/
def FixedConv.kernel (r : Rescale) : Kernel UInt8 Int UInt8 UInt8 :=
  fun c => FixedConv.apply { toConvolution := c, rescale := r }

/-- The kernel accepts the operands that fit, where its own parameters allow any, and then
gives what the loop over the taps gives, for an accumulator of its own. -/
def Kernel.Computes (kernel : Kernel ω β ξ υ) : Prop :=
  ∃ (α : Type) (start : β → α) (zero : α) (step : α → ξ → ω → α) (finish : α → υ) (ready : Prop),
    ∀ c x y, kernel c x = .ok y ↔
      ready ∧ c.Fits x.extents.inner ∧ y = c.result x start zero step finish

theorem FloatConv.computes_apply : Kernel.Computes FloatConv.apply := by
  refine ⟨Single, id, .zero false, fun acc a w => acc + a * w, id, True, fun c x y => ?_⟩
  rw [FloatConv.apply_eq_ok, true_and]

theorem FixedConv.computes_kernel (r : Rescale) : (FixedConv.kernel r).Computes :=
  ⟨Int, wrap 64, 0, r.step, r.multiplier.toCode r.outputOffset,
    1 ≤ r.multiplier.shift ∧ r.multiplier.shift ≤ 62, fun _ _ _ => FixedConv.apply_eq_ok⟩

end Kernels

/-! ## Groups -/

namespace Convolution

section Share

variable {ω β : Type} (c : Convolution ω β)

/-- The number of filters in a group. -/
def groupFilters : Nat := c.weights.extents.outer / c.groups

/-- The number of channels that a group reads. -/
def groupChannels : Nat := c.weights.extents.inner

variable {c} {channels : Nat}

/-- The groups share out the filters. -/
theorem Fits.groupFilters (h : c.Fits channels) :
    c.groups * c.groupFilters = c.weights.extents.outer :=
  Nat.mul_div_cancel' h.groups.2.2

theorem Fits.filters_le (h : c.Fits channels) {group : Nat} (hgroup : group < c.groups) :
    (group + 1) * c.groupFilters ≤ c.weights.extents.outer := by
  rw [← h.groupFilters]
  exact Nat.mul_le_mul_right _ hgroup

/-- The groups share out the channels. -/
theorem Fits.groupChannels (h : c.Fits channels) : c.groups * c.groupChannels = channels := by
  unfold Convolution.groupChannels
  rw [← h.perGroup]
  exact Nat.mul_div_cancel' h.groups.2.1

/-- A filter reads from the first channel of its group on. -/
theorem firstChannel_group {group filter : Nat} (hfilter : filter < c.groupFilters) :
    c.firstChannel (group * c.groupFilters + filter) = group * c.groupChannels := by
  unfold firstChannel
  exact congrArg (· * c.weights.extents.inner) (digit_div hfilter)

end Share

section Dense

variable {ω β : Type} [Inhabited ω] (c : Convolution ω β) (group : Nat)

/-- The filters of one group and their biases, as a dense convolution. -/
def dense : Convolution ω β where
  weights := c.weights.block (group * c.groupFilters) 0
    { c.weights.extents with outer := c.groupFilters }
  bias := c.bias.extract (group * c.groupFilters) ((group + 1) * c.groupFilters)
  groups := 1
  vertical := c.vertical
  horizontal := c.horizontal

@[simp] theorem extents_dense :
    (c.dense group).weights.extents = { c.weights.extents with outer := c.groupFilters } := rfl

@[simp] theorem vertical_dense : (c.dense group).vertical = c.vertical := rfl

@[simp] theorem horizontal_dense : (c.dense group).horizontal = c.horizontal := rfl

variable {c group}

/-- In a dense convolution every filter reads from the first channel on. -/
theorem firstChannel_dense {filter : Nat} (hfilter : filter < c.groupFilters) :
    (c.dense group).firstChannel filter = 0 := by
  have hone : (c.dense group).groups = 1 := rfl
  rw [firstChannel, extents_dense, hone, Nat.div_one, Nat.div_eq_of_lt hfilter, Nat.zero_mul]

variable {channels : Nat} (h : c.Fits channels) (hgroup : group < c.groups)
include h hgroup

/-- Each group is a dense convolution that fits the channels of the group. -/
theorem Fits.dense : (c.dense group).Fits c.groupChannels := by
  have hsize : (c.dense group).bias.size = c.groupFilters := by
    have hend := h.filters_le hgroup
    simp only [Convolution.dense, Array.size_extract, h.bias]
    rw [Nat.min_eq_left hend, Nat.succ_mul]
    omega
  constructor
  case strides => exact h.strides
  case dilations => exact h.dilations
  case groups => exact ⟨Nat.le_refl 1, Nat.one_dvd _, Nat.one_dvd _⟩
  case perGroup => exact Nat.div_one _
  case bias => exact hsize

/-- The bias of a filter of the group. -/
theorem bias_dense {filter : Nat} (hfilter : filter < c.groupFilters) :
    (c.dense group).bias[filter]? = c.bias[group * c.groupFilters + filter]? := by
  have hend := h.filters_le hgroup
  have hbias := h.bias
  rw [Nat.succ_mul] at hend
  simp only [Convolution.dense, Array.getElem?_extract, Nat.succ_mul]
  rw [if_pos (by omega)]

/-- The weights of a filter of the group. -/
theorem get?_weights_dense {filter k ky kx : Nat} (hfilter : filter < c.groupFilters)
    (hk : k < c.weights.extents.inner) :
    (c.dense group).weights.get? filter k ky kx =
      c.weights.get? (group * c.groupFilters + filter) k ky kx := by
  have hin : group * c.groupFilters + filter < c.weights.extents.outer := by
    rw [← h.groupFilters]
    exact digit_lt hgroup hfilter
  have hblock := Tensor4.get?_block c.weights (group * c.groupFilters) 0
    { c.weights.extents with outer := c.groupFilters } (y := ky) (x := kx) hfilter hk hin
    (by omega) rfl rfl
  rwa [Nat.zero_add] at hblock

end Dense

section Result

variable {ω β ξ υ α : Type} [Inhabited ω] [Inhabited ξ] [Inhabited υ] {c : Convolution ω β}
  {x : Tensor4 ξ}

/-- **A block of the result** is the result of its group on the channels of the group. -/
theorem result_dense (h : c.Fits x.extents.inner) {group : Nat} (hgroup : group < c.groups)
    (start : β → α) (zero : α) (step : α → ξ → ω → α) (finish : α → υ) :
    (c.dense group).result (x.channels (group * c.groupChannels) c.groupChannels) start zero step
        finish =
      (c.result x start zero step finish).channels (group * c.groupFilters) c.groupFilters := by
  have hextents : (c.dense group).resultExtents
      (x.channels (group * c.groupChannels) c.groupChannels).extents =
        { c.resultExtents x.extents with inner := c.groupFilters } := by
    simp only [resultExtents, extents_dense, vertical_dense, horizontal_dense,
      Tensor4.extents_channels]
  unfold result
  rw [Tensor4.channels_ofFn (Nat.succ_mul .. ▸ h.filters_le hgroup), hextents]
  refine Tensor4.ofFn_congr fun item filter row col hitem hfilter _ _ => congrArg finish ?_
  apply accumulate_congr
  case hrow => rfl
  case hcol => rfl
  case hweights => exact ⟨rfl, rfl, rfl⟩
  case hbias => exact bias_dense h hgroup hfilter
  case hread =>
    intro k y z hk
    rw [firstChannel_dense hfilter, firstChannel_group hfilter, Nat.zero_add]
    refine Tensor4.get?_channels hitem hk ?_
    rw [← h.groupChannels]
    exact digit_lt hgroup hk
  case hweight => exact fun k ky kx hk => get?_weights_dense h hgroup hfilter hk

end Result

end Convolution

section Groups

variable {ω β ξ υ : Type} [Inhabited ω] [Inhabited ξ] [Inhabited υ]

/-- The groups of a convolution do not meet. Whatever the kernel accepts, channels and filters
are shared out among the groups; the block of the result that belongs to a group is what the
kernel gives for the group alone, on its channels of the operand; and it stays the same in
every operand that agrees on these. -/
def Kernel.SplitsIntoGroups (kernel : Kernel ω β ξ υ) : Prop :=
  ∀ c x y, kernel c x = .ok y →
    x.extents.inner = c.groups * c.groupChannels ∧
    y.extents.inner = c.groups * c.groupFilters ∧
    ∀ group < c.groups,
      kernel (c.dense group) (x.channels (group * c.groupChannels) c.groupChannels) =
        .ok (y.channels (group * c.groupFilters) c.groupFilters) ∧
      ∀ x' : Tensor4 ξ, x'.extents = x.extents →
        (∀ item k row col, k < c.groupChannels →
          x'.get? item (group * c.groupChannels + k) row col =
            x.get? item (group * c.groupChannels + k) row col) →
        ∃ y', kernel c x' = .ok y' ∧
          y'.channels (group * c.groupFilters) c.groupFilters =
            y.channels (group * c.groupFilters) c.groupFilters

theorem Kernel.Computes.splitsIntoGroups {kernel : Kernel ω β ξ υ} (h : kernel.Computes) :
    kernel.SplitsIntoGroups := by
  obtain ⟨α, start, zero, step, finish, ready, hkernel⟩ := h
  intro c x y hy
  obtain ⟨hready, hfits, rfl⟩ := (hkernel c x y).1 hy
  refine ⟨hfits.groupChannels.symm, hfits.groupFilters.symm, fun group hgroup => ⟨?_, ?_⟩⟩
  · rw [hkernel, Convolution.result_dense hfits hgroup]
    exact ⟨hready, hfits.dense hgroup, rfl⟩
  · intro x' he hagree
    have hfits' : c.Fits x'.extents.inner := by rwa [he]
    refine ⟨_, (hkernel c x' _).2 ⟨hready, hfits', rfl⟩, ?_⟩
    rw [← Convolution.result_dense hfits hgroup, ← Convolution.result_dense hfits' hgroup,
      Tensor4.channels_congr he hagree]

/-- **Groups are independent**, in floating point and in fixed point: a convolution in groups is
the dense convolutions of its groups, side by side. -/
theorem groups_independent :
    Kernel.SplitsIntoGroups FloatConv.apply ∧
      ∀ r : Rescale, (FixedConv.kernel r).SplitsIntoGroups :=
  ⟨FloatConv.computes_apply.splitsIntoGroups,
    fun r => (FixedConv.computes_kernel r).splitsIntoGroups⟩

/-- The second group of two, on the second of two channels. -/
theorem groups_independent_grouped :
    ((FixedConv.grouped.value FixedConv.groupedOperand).channels 1 1).extents = ⟨1, 1, 2, 3⟩ ∧
    FixedConv.kernel FixedConv.grouped.rescale (FixedConv.grouped.dense 1)
        (FixedConv.groupedOperand.channels 1 1) =
      .ok ((FixedConv.grouped.value FixedConv.groupedOperand).channels 1 1) := by
  obtain ⟨-, -, hgroup⟩ := groups_independent.2 FixedConv.grouped.rescale
    FixedConv.grouped.toConvolution FixedConv.groupedOperand _ FixedConv.apply_grouped
  exact ⟨by decide +kernel, (hgroup 1 (by decide)).1⟩

end Groups

/-! ## Strides -/

namespace Walk

/-- The same walk in single steps. -/
def unitStride (w : Walk) : Walk := { w with stride := 1 }

/-- The window at a place of the walk is at a place of the walk in single steps. -/
theorem source_unitStride (w : Walk) (extent place : Nat) :
    w.unitStride.source extent (place * w.stride) = w.source extent place := by
  funext tap
  simp only [source, unitStride, Nat.mul_one]

variable {w : Walk} {extent kernel : Nat} (h : w.Regular extent kernel)
include h

theorem Regular.unitStride : w.unitStride.Regular extent kernel where
  extent_lt := h.extent_lt
  kernel_lt := h.kernel_lt
  stride_lt := show 1 < 2 ^ 63 by decide
  dilation_lt := h.dilation_lt
  span_lt := h.span_lt
  padded_ge := h.padded_ge
  padded_lt := h.padded_lt

/-- A walk takes the places of the walk in single steps that its stride divides. -/
theorem lt_places_iff_unitStride (hstride : 0 < w.stride) {place : Nat} :
    place < w.places extent kernel ↔ place * w.stride < w.unitStride.places extent kernel := by
  rw [lt_places_iff h, lt_places_iff h.unitStride, Nat.max_eq_left hstride]
  simp only [Walk.unitStride, Nat.max_self, Nat.mul_one]

theorem places_eq_ceilDiv (hstride : 0 < w.stride) :
    w.places extent kernel = w.unitStride.places extent kernel ⌈/⌉ w.stride := by
  refine eq_of_forall_lt_iff fun place => ?_
  rw [lt_places_iff_unitStride h hstride, ← not_le, ← not_le, ceilDiv_le_iff_le_mul hstride,
    Nat.mul_comm]

end Walk

namespace Convolution

variable {ω β ξ υ α : Type}

/-- The same convolution in single steps. -/
def unitStride (c : Convolution ω β) : Convolution ω β :=
  { c with vertical := c.vertical.unitStride, horizontal := c.horizontal.unitStride }

theorem Fits.unitStride {c : Convolution ω β} {channels : Nat} (h : c.Fits channels) :
    c.unitStride.Fits channels where
  strides := ⟨Nat.one_pos, Nat.one_pos⟩
  dilations := h.dilations
  groups := h.groups
  perGroup := h.perGroup
  bias := h.bias

theorem Fits.resultExtents_unitStride {c : Convolution ω β} {e : Extents} (h : c.Fits e.inner)
    (hrows : c.vertical.Regular e.rows c.weights.extents.rows)
    (hcols : c.horizontal.Regular e.cols c.weights.extents.cols) :
    c.resultExtents e =
      { c.unitStride.resultExtents e with
        rows := (c.unitStride.resultExtents e).rows ⌈/⌉ c.vertical.stride
        cols := (c.unitStride.resultExtents e).cols ⌈/⌉ c.horizontal.stride } := by
  simp only [resultExtents, Walk.places_eq_ceilDiv hrows h.strides.1,
    Walk.places_eq_ceilDiv hcols h.strides.2]
  rfl

variable (c : Convolution ω β) (x : Tensor4 ξ) (start : β → α) (zero : α) (step : α → ξ → ω → α)
  (finish : α → υ) (item filter row col : Nat)

theorem accumulate_unitStride :
    c.unitStride.accumulate x start zero step item filter (row * c.vertical.stride)
        (col * c.horizontal.stride) =
      c.accumulate x start zero step item filter row col := by
  apply accumulate_congr
  case hrow => exact c.vertical.source_unitStride _ _
  case hcol => exact c.horizontal.source_unitStride _ _
  case hweights => exact ⟨rfl, rfl, rfl⟩
  case hbias => rfl
  case hread => exact fun _ _ _ _ => rfl
  case hweight => exact fun _ _ _ _ => rfl

/-- The elements of a result. -/
theorem get?_result :
    (c.result x start zero step finish).get? item filter row col =
      if item < x.extents.outer ∧ filter < c.weights.extents.outer ∧
          row < c.vertical.places x.extents.rows c.weights.extents.rows ∧
          col < c.horizontal.places x.extents.cols c.weights.extents.cols then
        some (finish (c.accumulate x start zero step item filter row col))
      else none := by
  refine (Tensor4.get?_ofFn ..).trans (if_congr ?_ rfl rfl)
  simp only [resultExtents]

end Convolution

section Strides

variable {ω β ξ υ : Type}

/-- Strides leave out elements and do no more. Whatever the kernel accepts, it accepts in single
steps; the strides divide the extents of that result, rounding up; and each element is found
there at its place times the stride. -/
def Kernel.Subsamples (kernel : Kernel ω β ξ υ) : Prop :=
  ∀ c x y, kernel c x = .ok y →
    c.vertical.Regular x.extents.rows c.weights.extents.rows →
    c.horizontal.Regular x.extents.cols c.weights.extents.cols →
    ∃ y₁, kernel c.unitStride x = .ok y₁ ∧
      y.extents =
        { y₁.extents with
          rows := y₁.extents.rows ⌈/⌉ c.vertical.stride
          cols := y₁.extents.cols ⌈/⌉ c.horizontal.stride } ∧
      ∀ item filter row col, y.get? item filter row col =
        y₁.get? item filter (row * c.vertical.stride) (col * c.horizontal.stride)

theorem Kernel.Computes.subsamples {kernel : Kernel ω β ξ υ} (h : kernel.Computes) :
    kernel.Subsamples := by
  obtain ⟨α, start, zero, step, finish, ready, hkernel⟩ := h
  intro c x y hy hrows hcols
  obtain ⟨hready, hfits, rfl⟩ := (hkernel c x y).1 hy
  obtain ⟨hvertical, hhorizontal⟩ := hfits.strides
  refine ⟨_, (hkernel c.unitStride x _).2 ⟨hready, hfits.unitStride, rfl⟩, ?_, ?_⟩
  · exact hfits.resultExtents_unitStride hrows hcols
  · intro item filter row col
    rw [Convolution.get?_result, Convolution.get?_result, Convolution.accumulate_unitStride]
    refine if_congr ?_ rfl rfl
    rw [Walk.lt_places_iff_unitStride hrows hvertical,
      Walk.lt_places_iff_unitStride hcols hhorizontal]
    exact Iff.rfl

/-- **Strides subsample**, in floating point and in fixed point, as long as placing the windows
keeps to signed 64-bit words. -/
theorem strides_subsample :
    Kernel.Subsamples FloatConv.apply ∧ ∀ r : Rescale, (FixedConv.kernel r).Subsamples :=
  ⟨FloatConv.computes_apply.subsamples, fun r => (FixedConv.computes_kernel r).subsamples⟩

/-- Of three rows in single steps a stride of two takes the first and the last. -/
theorem strides_subsample_grouped :
    ∃ y₁, FixedConv.kernel FixedConv.grouped.rescale FixedConv.grouped.unitStride
        FixedConv.groupedOperand = .ok y₁ ∧
      (FixedConv.grouped.value FixedConv.groupedOperand).extents =
        { y₁.extents with rows := y₁.extents.rows ⌈/⌉ 2, cols := y₁.extents.cols ⌈/⌉ 1 } ∧
      (FixedConv.grouped.value FixedConv.groupedOperand).get? 0 1 1 2 = y₁.get? 0 1 2 2 := by
  obtain ⟨y₁, hy₁, hextents, helement⟩ := strides_subsample.2 FixedConv.grouped.rescale
    FixedConv.grouped.toConvolution FixedConv.groupedOperand _ FixedConv.apply_grouped
    FixedConv.regular_grouped.1 FixedConv.regular_grouped.2
  exact ⟨y₁, hy₁, hextents, helement 0 1 1 2⟩

end Strides

end FixedNet
