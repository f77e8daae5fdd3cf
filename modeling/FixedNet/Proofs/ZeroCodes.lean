/-
**Zero codes.** The fixed-point convolution adds an offset to each code that it reads, so the
code that an offset takes to zero contributes nothing to a sum. What a convolution leaves out
can be filled in with it:

* taps in the padding are skipped, and might as well read the zero code of the operand from a
  tensor that is padded with it and not padded further (`FixedConv.padding_reads_zeroCode`);
* taps between those of a dilated window do not exist, and might as well be there with the
  zero code of the weights (`FixedConv.dilation_stuffs_zeroCode`).

In both cases the two windows are placed alike, since the padded axis and the span of the
window are the same, and the two sums differ by terms that are zero.
-/
import FixedNet.Proofs.Accumulation

set_option autoImplicit false

namespace FixedNet

/-- The code that an offset takes to zero. -/
def zeroCode (offset : Int) : UInt8 := .ofNat (-offset).toNat

theorem zeroCode_add {offset : Int} (h : -255 ≤ offset ∧ offset ≤ 0) :
    ((zeroCode offset).toNat : Int) + offset = 0 := by
  unfold zeroCode
  rw [UInt8.toNat_ofNat']
  omega

/-! ## Results by their exact sums -/

namespace FixedConv

variable {c c' : FixedConv} {x x' : Tensor4 UInt8}

/-- The result holds the code of the exact sum, as a word, at each place. -/
theorem value_eq_ofFn (hfits : c.Fits x.extents.inner)
    (hrows : c.vertical.Regular x.extents.rows c.weights.extents.rows)
    (hcols : c.horizontal.Regular x.extents.cols c.weights.extents.cols) :
    c.value x = .ofFn (c.resultExtents x.extents) fun item filter row col =>
      c.rescale.multiplier.toCode c.rescale.outputOffset
        (wrap 64 (c.exactSum x item filter row col)) := by
  unfold value Convolution.result
  refine Tensor4.ofFn_congr fun item filter row col hitem hfilter hrow hcol => ?_
  simp only [Convolution.resultExtents] at hitem hfilter hrow hcol
  rw [← partialSum_length hfits hrows hcols hrow hcol,
    ← accumulatorAfter_eq hfits hrows hcols hitem hfilter, accumulatorAfter, List.take_length]
  rfl

/-- Two results are the same if they have the same places and the same exact sum at each. -/
theorem value_congr (hfits : c.Fits x.extents.inner)
    (hrows : c.vertical.Regular x.extents.rows c.weights.extents.rows)
    (hcols : c.horizontal.Regular x.extents.cols c.weights.extents.cols)
    (hfits' : c'.Fits x'.extents.inner)
    (hrows' : c'.vertical.Regular x'.extents.rows c'.weights.extents.rows)
    (hcols' : c'.horizontal.Regular x'.extents.cols c'.weights.extents.cols)
    (hrescale : c'.rescale = c.rescale)
    (hextents : c'.resultExtents x'.extents = c.resultExtents x.extents)
    (hsum : ∀ item filter row col, item < x.extents.outer → filter < c.weights.extents.outer →
      row < c.vertical.places x.extents.rows c.weights.extents.rows →
      col < c.horizontal.places x.extents.cols c.weights.extents.cols →
      c'.exactSum x' item filter row col = c.exactSum x item filter row col) :
    c'.value x' = c.value x := by
  rw [value_eq_ofFn hfits hrows hcols, value_eq_ofFn hfits' hrows' hcols', hextents, hrescale]
  refine Tensor4.ofFn_congr fun item filter row col hitem hfilter hrow hcol => ?_
  simp only [Convolution.resultExtents] at hitem hfilter hrow hcol
  rw [hsum item filter row col hitem hfilter hrow hcol]

/-- A refusal comes from the shift or from the check of the geometry. -/
theorem apply_eq_error {e : ConvolutionError} :
    FixedConv.apply c x = .error e ↔
      if 1 ≤ c.rescale.multiplier.shift ∧ c.rescale.multiplier.shift ≤ 62 then
        c.check x.extents = .error e
      else e = .badShift c.rescale.multiplier.shift := by
  unfold FixedConv.apply
  dsimp only
  by_cases hs : 1 ≤ c.rescale.multiplier.shift ∧ c.rescale.multiplier.shift ≤ 62
  · rw [if_neg (fun h => h hs), if_pos hs, except_bind_eq_error]
    constructor
    · rintro (h | ⟨_, -, h⟩)
      · exact h
      · cases h
    · exact .inl
  · rw [if_pos hs, if_neg hs]
    exact ⟨fun h => (Except.error.inj h).symm, fun h => h ▸ rfl⟩

/-- The kernel does the same if its checks come out the same, and the results with them. -/
theorem apply_congr (hrescale : c'.rescale = c.rescale)
    (hcheck : c'.check x'.extents = c.check x.extents)
    (hvalue : c.Fits x.extents.inner → c'.value x' = c.value x) :
    FixedConv.apply c' x' = FixedConv.apply c x := by
  cases happly : FixedConv.apply c x with
  | error e => rwa [apply_eq_error, hrescale, hcheck, ← apply_eq_error]
  | ok y =>
    obtain ⟨hshift, hfits, rfl⟩ := apply_eq_ok.1 happly
    have hfits' := Convolution.check_eq_ok.1 (hcheck.trans (Convolution.check_eq_ok.2 hfits))
    exact apply_eq_ok.2 ⟨hrescale ▸ hshift, hfits', (hvalue hfits).symm⟩

end FixedConv

/-! ## Padding -/

/-- An axis with its padding. What is cropped may be more than there is. -/
def Padding.extend (p : Padding) (extent : Nat) : Nat := (extent + p.sum).toNat

namespace Tensor4

/-- The tensor with its rows and columns padded, and new places filled. -/
def pad {α : Type} (t : Tensor4 α) (vertical horizontal : Padding) (fill : α) : Tensor4 α :=
  .ofFn
    { t.extents with
      rows := vertical.extend t.extents.rows
      cols := horizontal.extend t.extents.cols }
    fun i j q r =>
      let y : Int := q - vertical.before.toInt
      let x : Int := r - horizontal.before.toInt
      if (0 ≤ y ∧ y < t.extents.rows) ∧ 0 ≤ x ∧ x < t.extents.cols then
        (t.get? i j y.toNat x.toNat).getD fill
      else fill

theorem codeAt_pad {t : Tensor4 UInt8} {vertical horizontal : Padding} {i j q r : Nat}
    (hi : i < t.extents.outer) (hj : j < t.extents.inner)
    (hq : q < vertical.extend t.extents.rows) (hr : r < horizontal.extend t.extents.cols)
    (fill : UInt8) :
    (t.pad vertical horizontal fill).codeAt i j q r =
      if (0 ≤ (q : Int) - vertical.before.toInt ∧
            (q : Int) - vertical.before.toInt < t.extents.rows) ∧
          0 ≤ (r : Int) - horizontal.before.toInt ∧
            (r : Int) - horizontal.before.toInt < t.extents.cols then
        t.codeAt i j ((q : Int) - vertical.before.toInt).toNat
          ((r : Int) - horizontal.before.toInt).toNat
      else fill.toNat := by
  unfold codeAt pad
  rw [get?_ofFn, if_pos ⟨hi, hj, hq, hr⟩, Option.getD_some]
  dsimp only
  split
  · next hin =>
    obtain ⟨a, ha⟩ := Option.isSome_iff_exists.1
      (get?_isSome hi hj (y := ((q : Int) - vertical.before.toInt).toNat)
        (x := ((r : Int) - horizontal.before.toInt).toNat) (by omega) (by omega))
    rw [ha, Option.getD_some, Option.getD_some]
  · rfl

end Tensor4

namespace Walk

/-- The same walk on an axis that is not padded. -/
def unpadded (w : Walk) : Walk := { w with padding := .same 0 }

variable {w : Walk} {extent kernel : Nat} (h : w.Regular extent kernel)
include h

theorem Regular.unpadded : w.unpadded.Regular (w.padding.extend extent) kernel where
  extent_lt := by
    have := h.padded_lt
    unfold Padding.extend
    omega
  kernel_lt := h.kernel_lt
  stride_lt := h.stride_lt
  dilation_lt := h.dilation_lt
  span_lt := h.span_lt
  padded_ge := by
    simp only [Walk.unpadded, Padding.same, Padding.sum, Int32.toInt_zero]
    omega
  padded_lt := by
    have := h.padded_lt
    simp only [Walk.unpadded, Padding.same, Padding.sum, Padding.extend, Int32.toInt_zero] at *
    omega

/-- A window has the same places on the padded axis. -/
theorem places_unpadded :
    w.unpadded.places (w.padding.extend extent) kernel = w.places extent kernel := by
  refine eq_of_forall_lt_iff fun place => ?_
  rw [lt_places_iff h, lt_places_iff h.unpadded]
  simp only [Walk.unpadded, Padding.same, Padding.sum, Padding.extend, Int32.toInt_zero]
  omega

/-- A tap of a placed window meets the padded axis. -/
theorem tap_lt_extend (hstride : 0 < w.stride) {place tap : Nat}
    (hplace : place < w.places extent kernel) (htap : tap < kernel) :
    place * w.stride + tap * w.dilation < w.padding.extend extent := by
  have := tap_lt h hstride hplace htap
  unfold Padding.extend
  omega

end Walk

namespace FixedConv

/-- The same convolution without padding. -/
def unpadded (c : FixedConv) : FixedConv :=
  { c with vertical := c.vertical.unpadded, horizontal := c.horizontal.unpadded }

/-- The operand with its padding written out, as the code that counts as zero. -/
def padOperand (c : FixedConv) (x : Tensor4 UInt8) : Tensor4 UInt8 :=
  x.pad c.vertical.padding c.horizontal.padding (zeroCode c.rescale.inputOffset)

variable {c : FixedConv} {x : Tensor4 UInt8}

/-- Padding that is written out contributes nothing, and the rest what it did. -/
theorem contribution_unpadded
    (hinput : -255 ≤ c.rescale.inputOffset ∧ c.rescale.inputOffset ≤ 0)
    {item filter row col k ky kx : Nat} (hitem : item < x.extents.outer)
    (hchannel : c.firstChannel filter + k < x.extents.inner)
    (hy : row * c.vertical.stride + ky * c.vertical.dilation <
      c.vertical.padding.extend x.extents.rows)
    (hz : col * c.horizontal.stride + kx * c.horizontal.dilation <
      c.horizontal.padding.extend x.extents.cols) :
    c.unpadded.contribution (c.padOperand x) item filter row col k ky kx =
      c.contribution x item filter row col k ky kx := by
  have hq : (row * c.vertical.stride + ky * c.vertical.dilation : ℤ) =
      (row * c.vertical.stride + ky * c.vertical.dilation : ℕ) := by push_cast; rfl
  have hr : (col * c.horizontal.stride + kx * c.horizontal.dilation : ℤ) =
      (col * c.horizontal.stride + kx * c.horizontal.dilation : ℕ) := by push_cast; rfl
  unfold contribution
  simp only [unpadded, Walk.unpadded, Padding.same, Int32.toInt_zero, sub_zero]
  rw [hq, hr]
  generalize row * c.vertical.stride + ky * c.vertical.dilation = q at *
  generalize col * c.horizontal.stride + kx * c.horizontal.dilation = r at *
  have hin : (0 ≤ (q : ℤ) ∧ (q : ℤ) < (c.padOperand x).extents.rows) ∧
      0 ≤ (r : ℤ) ∧ (r : ℤ) < (c.padOperand x).extents.cols :=
    ⟨⟨Int.natCast_nonneg q, Int.ofNat_lt.2 hy⟩, Int.natCast_nonneg r, Int.ofNat_lt.2 hz⟩
  have hcode := Tensor4.codeAt_pad hitem hchannel hy hz (zeroCode c.rescale.inputOffset)
  rw [if_pos hin, Int.toNat_natCast, Int.toNat_natCast, padOperand]
  unfold Convolution.firstChannel at hcode
  rw [hcode]
  split
  · rfl
  · rw [zeroCode_add hinput, zero_mul]

section Padded

variable (hinput : -255 ≤ c.rescale.inputOffset ∧ c.rescale.inputOffset ≤ 0)
  (hrows : c.vertical.Regular x.extents.rows c.weights.extents.rows)
  (hcols : c.horizontal.Regular x.extents.cols c.weights.extents.cols)
include hinput hrows hcols

theorem exactSum_unpadded (hfits : c.Fits x.extents.inner) {item filter row col : Nat}
    (hitem : item < x.extents.outer) (hfilter : filter < c.weights.extents.outer)
    (hrow : row < c.vertical.places x.extents.rows c.weights.extents.rows)
    (hcol : col < c.horizontal.places x.extents.cols c.weights.extents.cols) :
    c.unpadded.exactSum (c.padOperand x) item filter row col =
      c.exactSum x item filter row col := by
  unfold exactSum
  refine congrArg (c.bias.getD filter 0 + ·) (Finset.sum_congr rfl fun k hk =>
    Finset.sum_congr rfl fun ky hky => Finset.sum_congr rfl fun kx hkx => ?_)
  rw [Finset.mem_range] at hk hky hkx
  exact contribution_unpadded hinput hitem (hfits.channel_lt hfilter hk)
    (Walk.tap_lt_extend hrows hfits.strides.1 hrow hky)
    (Walk.tap_lt_extend hcols hfits.strides.2 hcol hkx)

theorem value_unpadded (hfits : c.Fits x.extents.inner) :
    c.unpadded.value (c.padOperand x) = c.value x := by
  have hextents :
      c.unpadded.resultExtents (c.padOperand x).extents = c.resultExtents x.extents := by
    simp only [Convolution.resultExtents, ← Walk.places_unpadded hrows,
      ← Walk.places_unpadded hcols]
    rfl
  refine value_congr hfits hrows hcols ?_ ?_ ?_ rfl hextents ?_
  · exact ⟨hfits.strides, hfits.dilations, hfits.groups, hfits.perGroup, hfits.bias⟩
  · exact hrows.unpadded
  · exact hcols.unpadded
  · exact fun _ _ _ _ => exactSum_unpadded hinput hrows hcols hfits

end Padded

/-- **Skipped padding reads the zero code.** For an offset that takes the zero point of a byte
away, and windows placed within signed 64-bit words, a convolution with paddings, of either
sign, is the convolution without them on the padded operand. It is so accepted or refused. -/
theorem padding_reads_zeroCode (c : FixedConv) (x : Tensor4 UInt8)
    (hinput : -255 ≤ c.rescale.inputOffset ∧ c.rescale.inputOffset ≤ 0)
    (hrows : c.vertical.Regular x.extents.rows c.weights.extents.rows)
    (hcols : c.horizontal.Regular x.extents.cols c.weights.extents.cols) :
    FixedConv.apply c.unpadded (c.padOperand x) = FixedConv.apply c x := by
  refine apply_congr rfl ?_ (value_unpadded hinput hrows hcols)
  -- Paddings, rows and columns are not checked.
  rfl

/-- A row above, a column cropped on the left and two columns on the right. -/
theorem padding_reads_zeroCode_grouped :
    (grouped.padOperand groupedOperand).extents = ⟨1, 2, 4, 5⟩ ∧
    (grouped.padOperand groupedOperand).get? 0 1 0 0 = some 3 ∧
    (grouped.padOperand groupedOperand).get? 0 1 1 0 = groupedOperand.get? 0 1 0 1 ∧
    FixedConv.apply grouped.unpadded (grouped.padOperand groupedOperand) =
      .ok (grouped.value groupedOperand) := by
  refine ⟨by decide +kernel, by decide +kernel, by decide +kernel, ?_⟩
  exact (padding_reads_zeroCode grouped groupedOperand (by decide) regular_grouped.1
    regular_grouped.2).trans apply_grouped

end FixedConv

/-! ## Dilation -/

/-- The extent of `n` places that are `d` apart. -/
def stretch (n d : Nat) : Nat := (n - 1) * d + 1

theorem mul_lt_stretch {n d k : Nat} (hk : k < n) : k * d < stretch n d :=
  Nat.lt_succ_of_le (Nat.mul_le_mul_right d (by omega))

/-- A sum over a stretch whose terms vanish between the places is the sum over the places. -/
theorem sum_range_stretch {f : ℕ → ℤ} {n d : ℕ} (hn : 0 < n) (hd : 0 < d)
    (hf : ∀ q ∈ Finset.range (stretch n d), ¬d ∣ q → f q = 0) :
    ∑ q ∈ Finset.range (stretch n d), f q = ∑ k ∈ Finset.range n, f (k * d) := by
  have himage : ∑ q ∈ (Finset.range n).image (· * d), f q = ∑ k ∈ Finset.range n, f (k * d) :=
    Finset.sum_image fun k _ l _ hkl => Nat.eq_of_mul_eq_mul_right hd hkl
  rw [← himage]
  symm
  apply Finset.sum_subset
  · intro q hq
    obtain ⟨k, hk, rfl⟩ := Finset.mem_image.1 hq
    exact Finset.mem_range.2 (mul_lt_stretch (Finset.mem_range.1 hk))
  · intro q hq hbetween
    refine hf q hq fun ⟨k, hk⟩ => hbetween (Finset.mem_image.2 ⟨k, ?_, ?_⟩)
    · have hle : d * k ≤ d * (n - 1) := by
        rw [← hk, Nat.mul_comm d (n - 1)]
        exact Nat.le_of_lt_succ (Finset.mem_range.1 hq)
      have := Nat.le_of_mul_le_mul_left hle hd
      exact Finset.mem_range.2 (by omega)
    · rw [hk, Nat.mul_comm]

namespace Tensor4

/-- The tensor with its rows and columns spread apart, and the places between them filled. -/
def spread {α : Type} (t : Tensor4 α) (down across : Nat) (fill : α) : Tensor4 α :=
  .ofFn
    { t.extents with
      rows := stretch t.extents.rows down
      cols := stretch t.extents.cols across }
    fun i j q r =>
      if down ∣ q ∧ across ∣ r then (t.get? i j (q / down) (r / across)).getD fill else fill

section Spread

variable {t : Tensor4 UInt8} {down across i j : Nat} {fill : UInt8} (hi : i < t.extents.outer)
  (hj : j < t.extents.inner)
include hi hj

theorem codeAt_spread (hdown : 0 < down) (hacross : 0 < across) {y x : Nat}
    (hy : y < t.extents.rows) (hx : x < t.extents.cols) :
    (t.spread down across fill).codeAt i j (y * down) (x * across) = t.codeAt i j y x := by
  obtain ⟨a, ha⟩ := Option.isSome_iff_exists.1 (get?_isSome hi hj hy hx)
  unfold codeAt spread
  rw [get?_ofFn, if_pos ⟨hi, hj, mul_lt_stretch hy, mul_lt_stretch hx⟩]
  simp [hdown, hacross, ha]

theorem codeAt_spread_between {q r : Nat} (hq : q < stretch t.extents.rows down)
    (hr : r < stretch t.extents.cols across) (hbetween : ¬(down ∣ q ∧ across ∣ r)) :
    (t.spread down across fill).codeAt i j q r = fill.toNat := by
  unfold codeAt spread
  rw [get?_ofFn, if_pos ⟨hi, hj, hq, hr⟩, if_neg hbetween, Option.getD_some]

end Spread

end Tensor4

namespace Walk

/-- The same walk of a window without gaps. -/
def undilated (w : Walk) : Walk := { w with dilation := 1 }

variable {w : Walk} {extent kernel : Nat} (h : w.Regular extent kernel) (hkernel : 0 < kernel)
  (hdilation : 0 < w.dilation)
include h hkernel hdilation

theorem Regular.undilated : w.undilated.Regular extent (stretch kernel w.dilation) := by
  have hspan := h.span_lt
  rw [Nat.max_eq_left hkernel, Nat.max_eq_left hdilation] at hspan
  constructor
  case extent_lt => exact h.extent_lt
  case kernel_lt => exact hspan
  case stride_lt => exact h.stride_lt
  case dilation_lt => exact show 1 < 2 ^ 63 by decide
  case span_lt => simpa [stretch, Walk.undilated] using hspan
  case padded_ge => exact h.padded_ge
  case padded_lt => exact h.padded_lt

/-- A window has the same places if its gaps are filled. -/
theorem places_undilated :
    w.undilated.places extent (stretch kernel w.dilation) = w.places extent kernel := by
  refine eq_of_forall_lt_iff fun place => ?_
  rw [lt_places_iff h, lt_places_iff (h.undilated hkernel hdilation), Nat.max_eq_left hkernel,
    Nat.max_eq_left hdilation]
  simp [stretch, Walk.undilated]

end Walk

namespace FixedConv

/-- The same convolution with a window without gaps, its weights spread apart and stuffed with
the code that counts as zero. -/
def stuffed (c : FixedConv) : FixedConv :=
  { c with
    weights := c.weights.spread c.vertical.dilation c.horizontal.dilation
      (zeroCode c.rescale.weightOffset)
    vertical := c.vertical.undilated
    horizontal := c.horizontal.undilated }

variable {c : FixedConv} {x : Tensor4 UInt8} {item filter row col k : Nat}

theorem fits_stuffed {channels : Nat} (h : c.Fits channels) : c.stuffed.Fits channels where
  strides := h.strides
  dilations := ⟨Nat.one_pos, Nat.one_pos⟩
  groups := h.groups
  perGroup := h.perGroup
  bias := h.bias

/-- A weight that is spread apart contributes what it did. -/
theorem contribution_stuffed (hfilter : filter < c.weights.extents.outer)
    (hk : k < c.weights.extents.inner)
    (hdilations : 0 < c.vertical.dilation ∧ 0 < c.horizontal.dilation) {ky kx : Nat}
    (hky : ky < c.weights.extents.rows) (hkx : kx < c.weights.extents.cols) :
    c.stuffed.contribution x item filter row col k (ky * c.vertical.dilation)
        (kx * c.horizontal.dilation) =
      c.contribution x item filter row col k ky kx := by
  have hcode : c.stuffed.weights.codeAt filter k (ky * c.vertical.dilation)
      (kx * c.horizontal.dilation) = c.weights.codeAt filter k ky kx :=
    Tensor4.codeAt_spread hfilter hk hdilations.1 hdilations.2 hky hkx
  unfold contribution
  rw [hcode]
  simp only [stuffed, Walk.undilated, Nat.cast_mul, Nat.cast_one, mul_one]
  rfl

/-- A weight that is stuffed in contributes nothing. -/
theorem contribution_stuffed_between
    (hweight : -255 ≤ c.rescale.weightOffset ∧ c.rescale.weightOffset ≤ 0)
    (hfilter : filter < c.weights.extents.outer) (hk : k < c.weights.extents.inner) {qy qx : Nat}
    (hqy : qy < stretch c.weights.extents.rows c.vertical.dilation)
    (hqx : qx < stretch c.weights.extents.cols c.horizontal.dilation)
    (hbetween : ¬(c.vertical.dilation ∣ qy ∧ c.horizontal.dilation ∣ qx)) :
    c.stuffed.contribution x item filter row col k qy qx = 0 := by
  have hcode : c.stuffed.weights.codeAt filter k qy qx = (zeroCode c.rescale.weightOffset).toNat :=
    Tensor4.codeAt_spread_between hfilter hk hqy hqx hbetween
  have hzero : c.stuffed.weights.codeAt filter k qy qx + c.stuffed.rescale.weightOffset = 0 :=
    hcode ▸ zeroCode_add hweight
  unfold contribution
  dsimp only
  rw [hzero, mul_zero, ite_self]

section Stuffed

variable (hweight : -255 ≤ c.rescale.weightOffset ∧ c.rescale.weightOffset ≤ 0)
  (hkernel : 0 < c.weights.extents.rows ∧ 0 < c.weights.extents.cols)
include hweight hkernel

theorem exactSum_stuffed (hdilations : 0 < c.vertical.dilation ∧ 0 < c.horizontal.dilation)
    (hfilter : filter < c.weights.extents.outer) :
    c.stuffed.exactSum x item filter row col = c.exactSum x item filter row col := by
  unfold exactSum
  refine congrArg (c.bias.getD filter 0 + ·) (Finset.sum_congr rfl fun k hk => ?_)
  rw [Finset.mem_range] at hk
  -- First the rows that are stuffed in go, as a whole, then the columns in each row that is left.
  refine (sum_range_stretch hkernel.1 hdilations.1 fun qy hqy hbetween => ?_).trans
    (Finset.sum_congr rfl fun ky hky => ?_)
  · refine Finset.sum_eq_zero fun qx hqx => ?_
    rw [Finset.mem_range] at hqy hqx
    exact contribution_stuffed_between hweight hfilter hk hqy hqx fun h => hbetween h.1
  · rw [Finset.mem_range] at hky
    refine (sum_range_stretch hkernel.2 hdilations.2 fun qx hqx hbetween => ?_).trans
      (Finset.sum_congr rfl fun kx hkx => ?_)
    · rw [Finset.mem_range] at hqx
      exact contribution_stuffed_between hweight hfilter hk (mul_lt_stretch hky) hqx
        fun h => hbetween h.2
    · exact contribution_stuffed hfilter hk hdilations hky (Finset.mem_range.1 hkx)

theorem value_stuffed (hfits : c.Fits x.extents.inner)
    (hrows : c.vertical.Regular x.extents.rows c.weights.extents.rows)
    (hcols : c.horizontal.Regular x.extents.cols c.weights.extents.cols) :
    c.stuffed.value x = c.value x := by
  obtain ⟨hdown, hacross⟩ := hfits.dilations
  have hextents : c.stuffed.resultExtents x.extents = c.resultExtents x.extents := by
    simp only [Convolution.resultExtents, ← Walk.places_undilated hrows hkernel.1 hdown,
      ← Walk.places_undilated hcols hkernel.2 hacross]
    rfl
  refine value_congr hfits hrows hcols ?_ ?_ ?_ rfl hextents ?_
  · exact fits_stuffed hfits
  · exact hrows.undilated hkernel.1 hdown
  · exact hcols.undilated hkernel.2 hacross
  · exact fun _ _ _ _ _ hfilter _ _ => exactSum_stuffed hweight hkernel hfits.dilations hfilter

end Stuffed

/-- **A dilated window is one stuffed with the zero code.** Where a convolution with a window
that is not empty is accepted, with an offset that takes the zero point of a byte away from the
weights, and windows placed within signed 64-bit words, it has the result of the convolution
without dilation whose weights are spread apart and stuffed with the zero code. -/
theorem dilation_stuffs_zeroCode (c : FixedConv) (x y : Tensor4 UInt8)
    (hy : FixedConv.apply c x = .ok y)
    (hkernel : 0 < c.weights.extents.rows ∧ 0 < c.weights.extents.cols)
    (hweight : -255 ≤ c.rescale.weightOffset ∧ c.rescale.weightOffset ≤ 0)
    (hrows : c.vertical.Regular x.extents.rows c.weights.extents.rows)
    (hcols : c.horizontal.Regular x.extents.cols c.weights.extents.cols) :
    FixedConv.apply c.stuffed x = .ok y := by
  obtain ⟨hshift, hfits, rfl⟩ := apply_eq_ok.1 hy
  rw [apply_eq_ok, value_stuffed hweight hkernel hfits hrows hcols]
  exact ⟨hshift, fits_stuffed hfits, rfl⟩

/-- Columns of weights that are two apart are three columns, the one between them stuffed in. -/
theorem dilation_stuffs_zeroCode_grouped :
    grouped.stuffed.weights.extents = ⟨2, 1, 2, 3⟩ ∧
    grouped.stuffed.weights.data = #[3, 128, 250, 7, 128, 0, 128, 128, 1, 2, 128, 255] ∧
    FixedConv.apply grouped.stuffed groupedOperand = .ok (grouped.value groupedOperand) := by
  refine ⟨by decide +kernel, by decide +kernel, ?_⟩
  exact dilation_stuffs_zeroCode grouped groupedOperand _ apply_grouped (by decide) (by decide)
    regular_grouped.1 regular_grouped.2

end FixedConv

end FixedNet
