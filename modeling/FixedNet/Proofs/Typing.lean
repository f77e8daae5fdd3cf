/-
**Operators and types.** Whether an operator can be applied to a tensor depends on
the tensor's type alone, and so does the type of the result. `Op.Accepts` is the
exact condition, and the type of a result is the one that the operator's signature
declares: the extents that a convolution computes for its result are the extents
that its signature announces, whatever its steps, groups and paddings are.
-/
import FixedNet.Evaluation
import FixedNet.Proofs.Computation

set_option autoImplicit false

namespace FixedNet

/-! ## Convolutions that fit their operand -/

/-- Steps are positive, the groups divide channels and filters, each group has the
channels that the weights cover, and there is one bias for each filter. -/
structure Convolution.Fits {ω β : Type} (c : Convolution ω β) (channels : Nat) : Prop where
  strides : 0 < c.vertical.stride ∧ 0 < c.horizontal.stride
  dilations : 0 < c.vertical.dilation ∧ 0 < c.horizontal.dilation
  groups : 1 ≤ c.groups ∧ c.groups ∣ channels ∧ c.groups ∣ c.weights.extents.outer
  perGroup : channels / c.groups = c.weights.extents.inner
  bias : c.bias.size = c.weights.extents.outer

theorem Convolution.check_eq_ok {ω β : Type} {c : Convolution ω β} {e : Extents} :
    c.check e = .ok () ↔ c.Fits e.inner := by
  -- Four tests in a row, each of which stops at its own error.
  unfold Convolution.check
  simp only [bind, Except.bind, pure, Except.pure, throw, throwThe, MonadExceptOf.throw]
  constructor
  · intro h
    split at h
    · cases h
    · next hsteps =>
      split at h
      · cases h
      · next hgroups =>
        split at h
        · cases h
        · next hchannels =>
          split at h
          · cases h
          · next hbias =>
            refine ⟨by omega, by omega, ⟨by omega, ?_, ?_⟩, by omega, by omega⟩
            · exact Nat.dvd_of_mod_eq_zero (by omega)
            · exact Nat.dvd_of_mod_eq_zero (by omega)
  · rintro ⟨hstrides, hdilations, ⟨hone, hinner, houter⟩, hchannels, hbias⟩
    have hinner' := Nat.mod_eq_zero_of_dvd hinner
    have houter' := Nat.mod_eq_zero_of_dvd houter
    rw [if_neg (by omega), if_neg (by omega), if_neg (by omega), if_neg (by omega)]

/-- The floating-point convolution succeeds exactly on operands that fit. -/
theorem FloatConv.apply_eq_ok {c : FloatConv} {x y : Tensor4 Single} :
    FloatConv.apply c x = .ok y ↔ c.Fits x.extents.inner ∧
      y = c.result x id (.zero false) (fun acc a w => acc + a * w) id := by
  unfold FloatConv.apply
  rw [except_bind_eq_ok]
  constructor
  · rintro ⟨u, hu, hy⟩
    exact ⟨Convolution.check_eq_ok.1 hu, (Except.ok.inj hy).symm⟩
  · rintro ⟨hfits, rfl⟩
    exact ⟨(), Convolution.check_eq_ok.2 hfits, rfl⟩

/-- The fixed-point convolution on operands that fit. -/
def FixedConv.value (c : FixedConv) (x : Tensor4 UInt8) : Tensor4 UInt8 :=
  c.result x (wrap 64) 0 c.rescale.step (c.rescale.multiplier.toCode c.rescale.outputOffset)

/-- The fixed-point convolution succeeds exactly on operands that fit, with a shift
that a signed 64-bit integer can be shifted by. -/
theorem FixedConv.apply_eq_ok {c : FixedConv} {x y : Tensor4 UInt8} :
    FixedConv.apply c x = .ok y ↔
      (1 ≤ c.rescale.multiplier.shift ∧ c.rescale.multiplier.shift ≤ 62) ∧
      c.Fits x.extents.inner ∧ y = c.value x := by
  unfold FixedConv.apply
  dsimp only
  by_cases hs : 1 ≤ c.rescale.multiplier.shift ∧ c.rescale.multiplier.shift ≤ 62
  · rw [if_neg (fun h => h hs), except_bind_eq_ok]
    constructor
    · rintro ⟨u, hu, hy⟩
      exact ⟨hs, Convolution.check_eq_ok.1 hu, (Except.ok.inj hy).symm⟩
    · rintro ⟨-, hfits, rfl⟩
      exact ⟨(), Convolution.check_eq_ok.2 hfits, rfl⟩
  · rw [if_pos hs]
    refine ⟨fun h => (by cases h), ?_⟩
    rintro ⟨hshift, -⟩
    exact absurd hshift hs

/-! ## Rank four -/

theorem Tensor4.extents_of_ofTensor? {α : Type} {t : Tensor α} {x : Tensor4 α}
    (h : Tensor4.ofTensor? t = some x) :
    Extents.ofShape? t.shape = some x.extents ∧ x.toTensor = t := by
  unfold Tensor4.ofTensor? at h
  split at h
  · next e he =>
    cases h
    refine ⟨he, ?_⟩
    obtain ⟨shape, data, hsize⟩ := t
    cases Extents.shape_of_ofShape? he
    rfl
  · cases h

theorem Tensor4.ofTensor?_eq_some {α : Type} {t : Tensor α} {e : Extents}
    (h : Extents.ofShape? t.shape = some e) :
    ∃ x, Tensor4.ofTensor? t = some x ∧ x.extents = e := by
  unfold Tensor4.ofTensor?
  split
  · next e' he =>
    rw [h] at he
    cases he
    exact ⟨_, rfl, rfl⟩
  · next he =>
    rw [h] at he
    cases he

theorem Tensor.asRankFour_eq_ok {α : Type} {t : Tensor α} {node : String} {scalar : Scalar}
    {x : Tensor4 α} : t.asRankFour node scalar = .ok x ↔ Tensor4.ofTensor? t = some x := by
  unfold Tensor.asRankFour
  cases Tensor4.ofTensor? t with
  | none => simp
  | some y => simp

theorem Value.asNumbers_eq_ok {v : Value} {node : String} {t : Tensor Single} :
    v.asNumbers node = .ok t ↔ v = .numbers t := by
  cases v with
  | numbers s => simp [Value.asNumbers]
  | codes s => simp [Value.asNumbers]

theorem Value.asCodes_eq_ok {v : Value} {node : String} {t : Tensor UInt8} :
    v.asCodes node = .ok t ↔ v = .codes t := by
  cases v with
  | numbers s => simp [Value.asCodes]
  | codes s => simp [Value.asCodes]

theorem Value.check_eq_ok {v : Value} {node : String} {t : TensorType} {u : Unit} :
    v.check node t = .ok u ↔ v.type = t := by
  unfold Value.check
  by_cases h : v.type = t
  · simp [h]
  · simp [h]

/-- Numbers are what has the type of numbers. -/
theorem Value.eq_numbers_of_scalar {v : Value} (h : v.type.scalar = .f32) :
    ∃ t, v = .numbers t := by
  cases v with
  | numbers t => exact ⟨t, rfl⟩
  | codes t => exact absurd h (by simp [Value.type, Scalar.f32, Scalar.u8])

theorem Value.eq_codes_of_scalar {v : Value} (h : v.type.scalar = .u8) :
    ∃ t, v = .codes t := by
  cases v with
  | numbers t => exact absurd h (by simp [Value.type, Scalar.f32, Scalar.u8])
  | codes t => exact ⟨t, rfl⟩

/-! ## Operators -/

theorem Op.eq_input_of_kind {op : Op} (h : op.kind = .input) : op = .input := by
  cases op with
  | input => rfl
  | output | conv2d | quantize | dequantize | quantizedConv2d => cases h

theorem Op.eq_output_of_kind {op : Op} (h : op.kind = .output) : op = .output := by
  cases op with
  | output => rfl
  | input | conv2d | quantize | dequantize | quantizedConv2d => cases h

theorem Op.eq_conv2d_of_kind {op : Op} (h : op.kind = .conv2d) : ∃ c, op = .conv2d c := by
  cases op with
  | conv2d c => exact ⟨c, rfl⟩
  | input | output | quantize | dequantize | quantizedConv2d => cases h

/-- The signature of an operator on tensors of type `t`: a graph input has one output
of that type, a graph output one input, and every other operator one of each. -/
theorem Op.signature_cases {op : Op} {t : TensorType} {s : Signature}
    (h : op.signature t = .ok s) :
    op = .input ∧ s = ⟨[], [t]⟩ ∨ op = .output ∧ s = ⟨[t], []⟩ ∨
      op ≠ .input ∧ op ≠ .output ∧ ∃ u, s = ⟨[t], [u]⟩ := by
  cases op with
  | input => exact .inl ⟨rfl, (Except.ok.inj h).symm⟩
  | output => exact .inr (.inl ⟨rfl, (Except.ok.inj h).symm⟩)
  | quantize code => exact .inr (.inr ⟨nofun, nofun, _, (Except.ok.inj h).symm⟩)
  | dequantize code => exact .inr (.inr ⟨nofun, nofun, _, (Except.ok.inj h).symm⟩)
  | conv2d c =>
    obtain ⟨u, -, hu⟩ := except_bind_eq_ok.1 h
    exact .inr (.inr ⟨nofun, nofun, u, (Except.ok.inj hu).symm⟩)
  | quantizedConv2d c =>
    obtain ⟨u, -, hu⟩ := except_bind_eq_ok.1 h
    exact .inr (.inr ⟨nofun, nofun, u, (Except.ok.inj hu).symm⟩)

/-- A convolution fits the channels of a shape. -/
def Convolution.AcceptsShape {ω β : Type} (c : Convolution ω β) (s : Shape) : Prop :=
  ∃ channels, s[1]? = some channels ∧ c.Fits channels

theorem Convolution.acceptsShape_iff {ω β : Type} {c : Convolution ω β} {s : Shape}
    {e : Extents} (h : Extents.ofShape? s = some e) : c.AcceptsShape s ↔ c.Fits e.inner := by
  have hinner : s[1]? = some e.inner := by
    rw [← Extents.shape_of_ofShape? h]
    rfl
  simp [AcceptsShape, hinner]

theorem Convolution.scalar_of_resultType {ω β : Type} {c : Convolution ω β} {t u : TensorType}
    (h : c.resultType t = .ok u) : u.scalar = t.scalar := by
  unfold Convolution.resultType at h
  split at h
  · cases h
    rfl
  · cases h

/-- Only operands of rank four have a convolution declared for them. -/
theorem Convolution.extents_of_resultType {ω β : Type} {c : Convolution ω β}
    {t u : TensorType} (h : c.resultType t = .ok u) :
    ∃ e, Extents.ofShape? t.shape = some e := by
  unfold Convolution.resultType at h
  split at h
  · next e he => exact ⟨e, he⟩
  · cases h

/-- An operator that is declared for tensors of a type can be applied to them. -/
def Op.Accepts (op : Op) (t : TensorType) : Prop :=
  match op with
  | .input => True
  | .output => True
  | .conv2d c => t.scalar = .f32 ∧ c.AcceptsShape t.shape
  | .quantize _ => t.scalar = .f32
  | .dequantize _ => t.scalar = .u8
  | .quantizedConv2d c =>
    t.scalar = .u8 ∧ c.AcceptsShape t.shape ∧
      1 ≤ c.rescale.multiplier.shift ∧ c.rescale.multiplier.shift ≤ 62

theorem Op.evaluate_conv2d_eq_ok {c : FloatConv} {node : String} {v w : Value} :
    (Op.conv2d c).evaluate node v = .ok w ↔
      ∃ t x y, v = .numbers t ∧ Tensor4.ofTensor? t = some x ∧ FloatConv.apply c x = .ok y ∧
        w = .numbers y.toTensor := by
  unfold Op.evaluate
  simp only [except_bind_eq_ok, mapError_eq_ok, Value.asNumbers_eq_ok, Tensor.asRankFour_eq_ok]
  constructor
  · rintro ⟨t, ht, x, hx, y, hy, hw⟩
    exact ⟨t, x, y, ht, hx, hy, (Except.ok.inj hw).symm⟩
  · rintro ⟨t, x, y, ht, hx, hy, rfl⟩
    exact ⟨t, ht, x, hx, y, hy, rfl⟩

theorem Op.evaluate_quantizedConv2d_eq_ok {c : FixedConv} {node : String} {v w : Value} :
    (Op.quantizedConv2d c).evaluate node v = .ok w ↔
      ∃ t x y, v = .codes t ∧ Tensor4.ofTensor? t = some x ∧ FixedConv.apply c x = .ok y ∧
        w = .codes y.toTensor := by
  unfold Op.evaluate
  simp only [except_bind_eq_ok, mapError_eq_ok, Value.asCodes_eq_ok, Tensor.asRankFour_eq_ok]
  constructor
  · rintro ⟨t, ht, x, hx, y, hy, hw⟩
    exact ⟨t, x, y, ht, hx, hy, (Except.ok.inj hw).symm⟩
  · rintro ⟨t, x, y, ht, hx, hy, rfl⟩
    exact ⟨t, ht, x, hx, y, hy, rfl⟩

theorem Op.evaluate_quantize_eq_ok {code : AffineCode} {node : String} {v w : Value} :
    (Op.quantize code).evaluate node v = .ok w ↔
      ∃ t, v = .numbers t ∧ w = .codes (t.map code.encode) := by
  cases v with
  | numbers t =>
    show Except.ok (Value.codes (t.map code.encode)) = .ok w ↔ _
    simp [eq_comm]
  | codes t =>
    show Except.error _ = .ok w ↔ _
    simp

theorem Op.evaluate_dequantize_eq_ok {code : AffineCode} {node : String} {v w : Value} :
    (Op.dequantize code).evaluate node v = .ok w ↔
      ∃ t, v = .codes t ∧ w = .numbers (t.map fun c => code.decode c.toNat) := by
  cases v with
  | numbers t =>
    show Except.error _ = .ok w ↔ _
    simp
  | codes t =>
    show Except.ok (Value.numbers (t.map fun c => code.decode c.toNat)) = .ok w ↔ _
    simp [eq_comm]

/-- **What operators accept.** Where its signature is declared, an operator succeeds
exactly on tensors of a type that it accepts. -/
theorem Op.evaluate_ok_iff {op : Op} {v : Value} {s : Signature}
    (hs : op.signature v.type = .ok s) (node : String) :
    (∃ w, op.evaluate node v = .ok w) ↔ op.Accepts v.type := by
  cases op with
  | input => exact ⟨fun _ => trivial, fun _ => ⟨v, rfl⟩⟩
  | output => exact ⟨fun _ => trivial, fun _ => ⟨v, rfl⟩⟩
  | conv2d c =>
    constructor
    · rintro ⟨w, hw⟩
      obtain ⟨t, x, y, rfl, hx, hy, -⟩ := Op.evaluate_conv2d_eq_ok.1 hw
      obtain ⟨he, -⟩ := Tensor4.extents_of_ofTensor? hx
      exact ⟨rfl, (Convolution.acceptsShape_iff he).2 (FloatConv.apply_eq_ok.1 hy).1⟩
    · rintro ⟨hscalar, haccepts⟩
      obtain ⟨t, rfl⟩ := Value.eq_numbers_of_scalar hscalar
      obtain ⟨u, hu, -⟩ := except_bind_eq_ok.1 hs
      obtain ⟨e, he⟩ := Convolution.extents_of_resultType hu
      obtain ⟨x, hx, rfl⟩ := Tensor4.ofTensor?_eq_some he
      have hfits := (Convolution.acceptsShape_iff he).1 haccepts
      exact ⟨_, Op.evaluate_conv2d_eq_ok.2
        ⟨t, x, _, rfl, hx, FloatConv.apply_eq_ok.2 ⟨hfits, rfl⟩, rfl⟩⟩
  | quantizedConv2d c =>
    constructor
    · rintro ⟨w, hw⟩
      obtain ⟨t, x, y, rfl, hx, hy, -⟩ := Op.evaluate_quantizedConv2d_eq_ok.1 hw
      obtain ⟨he, -⟩ := Tensor4.extents_of_ofTensor? hx
      obtain ⟨hshift, hfits, -⟩ := FixedConv.apply_eq_ok.1 hy
      exact ⟨rfl, (Convolution.acceptsShape_iff he).2 hfits, hshift⟩
    · rintro ⟨hscalar, haccepts, hshift⟩
      obtain ⟨t, rfl⟩ := Value.eq_codes_of_scalar hscalar
      obtain ⟨u, hu, -⟩ := except_bind_eq_ok.1 hs
      obtain ⟨e, he⟩ := Convolution.extents_of_resultType hu
      obtain ⟨x, hx, rfl⟩ := Tensor4.ofTensor?_eq_some he
      have hfits := (Convolution.acceptsShape_iff he).1 haccepts
      exact ⟨_, Op.evaluate_quantizedConv2d_eq_ok.2
        ⟨t, x, _, rfl, hx, FixedConv.apply_eq_ok.2 ⟨hshift, hfits, rfl⟩, rfl⟩⟩
  | quantize code =>
    constructor
    · rintro ⟨w, hw⟩
      obtain ⟨t, rfl, -⟩ := Op.evaluate_quantize_eq_ok.1 hw
      rfl
    · intro hscalar
      obtain ⟨t, rfl⟩ := Value.eq_numbers_of_scalar hscalar
      exact ⟨_, Op.evaluate_quantize_eq_ok.2 ⟨t, rfl, rfl⟩⟩
  | dequantize code =>
    constructor
    · rintro ⟨w, hw⟩
      obtain ⟨t, rfl, -⟩ := Op.evaluate_dequantize_eq_ok.1 hw
      rfl
    · intro hscalar
      obtain ⟨t, rfl⟩ := Value.eq_codes_of_scalar hscalar
      exact ⟨_, Op.evaluate_dequantize_eq_ok.2 ⟨t, rfl, rfl⟩⟩

/-- **The type of a result.** What an operator makes of a tensor has the type that its
signature declares for tensors of the operand's type. -/
theorem Op.evaluate_type {op : Op} {node : String} {v w : Value}
    (h : op.evaluate node v = .ok w) (hin : op ≠ .input) (hout : op ≠ .output) :
    op.signature v.type = .ok ⟨[v.type], [w.type]⟩ := by
  cases op with
  | input => exact absurd rfl hin
  | output => exact absurd rfl hout
  | conv2d c =>
    obtain ⟨t, x, y, rfl, hx, hy, rfl⟩ := Op.evaluate_conv2d_eq_ok.1 h
    obtain ⟨he, -⟩ := Tensor4.extents_of_ofTensor? hx
    obtain ⟨-, rfl⟩ := FloatConv.apply_eq_ok.1 hy
    simp only [Op.signature, Convolution.resultType, Value.type, he]
    rfl
  | quantizedConv2d c =>
    obtain ⟨t, x, y, rfl, hx, hy, rfl⟩ := Op.evaluate_quantizedConv2d_eq_ok.1 h
    obtain ⟨he, -⟩ := Tensor4.extents_of_ofTensor? hx
    obtain ⟨-, -, rfl⟩ := FixedConv.apply_eq_ok.1 hy
    simp only [Op.signature, Convolution.resultType, Value.type, he]
    rfl
  | quantize code =>
    obtain ⟨t, rfl, rfl⟩ := Op.evaluate_quantize_eq_ok.1 h
    rfl
  | dequantize code =>
    obtain ⟨t, rfl, rfl⟩ := Op.evaluate_dequantize_eq_ok.1 h
    rfl

end FixedNet
