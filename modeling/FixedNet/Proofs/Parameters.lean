/-
**Deriving parameters.** What the parameters of a lowered convolution depend on, and
what they can be relied on for.

* They depend on the table of ranges through two entries only, the one for the operand
  and the one for the result (`Parameters.derive_eq_ok`), and a range is reported
  missing exactly where one of these two is (`Parameters.missing_of_derive`).
* The convolution on codes keeps the geometry of the one it replaces, so it fits the
  same operands, and its shift is one that the evaluator takes
  (`Parameters.fixedConv_fits_iff`, `Parameters.resultType_fixedConv`,
  `Parameters.shift_of_derive`).
* Offsets, biases and multiplier keep to the ranges of bytes and 32-bit integers
  (`Parameters.emitted_of_derive`).
-/
import FixedNet.Proofs.Typing

set_option autoImplicit false

namespace FixedNet

/-! ## Failing for want of a range -/

section RangeFree

variable {α β : Type}

/-- The derivation does not fail for want of a recorded range. -/
def RangeFree (m : Except DerivationError α) : Prop := ∀ o, m ≠ .error (.missingCalibration o)

theorem RangeFree.bind {m : Except DerivationError α} {f : α → Except DerivationError β}
    (hm : RangeFree m) (hf : ∀ a, RangeFree (f a)) : RangeFree (m >>= f) := by
  intro o h
  rcases except_bind_eq_error.1 h with h | ⟨a, -, h⟩
  · exact hm o h
  · exact hf a o h

theorem RangeFree.ok (a : α) : RangeFree (.ok a) := nofun

theorem Bounds.rangeFree_ofValues (vs : List Single) : RangeFree (Bounds.ofValues vs) := by
  cases vs with
  | nil => exact nofun
  | cons v vs => exact .ok _

theorem Bounds.rangeFree_normalize (b : Bounds) : RangeFree b.normalize := by
  unfold Bounds.normalize
  split
  · exact nofun
  · dsimp only
    split
    · exact .ok _
    · split
      · exact .ok _
      · exact .ok _

theorem AffineCode.rangeFree_ofBounds (b : Bounds) (bits : Nat) :
    RangeFree (AffineCode.ofBounds b bits) := by
  unfold AffineCode.ofBounds
  split
  · exact nofun
  · exact b.rangeFree_normalize.bind fun _ => .ok _

theorem WeightCodes.rangeFree_ofWeights (weights : Tensor4 Single) (bits : Nat) :
    RangeFree (WeightCodes.ofWeights weights bits) := by
  have hcodes : RangeFree (do
      let bounds ← (← Bounds.ofValues weights.data.toList).normalize
      let code ← AffineCode.ofBounds bounds bits
      return (⟨code, weights.map fun w => .ofNat (code.encodeTo (maxCode bits) w)⟩ :
        WeightCodes)) :=
    (Bounds.rangeFree_ofValues _).bind fun b => b.rangeFree_normalize.bind fun b' =>
      (AffineCode.rangeFree_ofBounds b' bits).bind fun _ => .ok _
  unfold WeightCodes.ofWeights
  by_cases hbits : 8 < bits
  · rw [if_pos hbits]
    exact nofun
  · rw [if_neg hbits]
    exact hcodes

theorem rangeFree_biasStep (scale b : Single) : RangeFree (biasStep scale b) := by
  unfold biasStep
  split
  · split
    · exact .ok _
    · exact nofun
  · exact nofun

theorem RangeFree.mapM {f : α → Except DerivationError β} (hf : ∀ a, RangeFree (f a))
    (l : List α) : RangeFree (l.mapM f) := by
  induction l with
  | nil => exact .ok _
  | cons a l ih =>
    rw [List.mapM_cons]
    exact (hf a).bind fun _ => ih.bind fun _ => .ok _

theorem Multiplier.rangeFree_ofRatio (ratio : Single) (maxBits maxValue : Int) (signed : Bool) :
    RangeFree (Multiplier.ofRatio ratio maxBits maxValue signed) := by
  unfold Multiplier.ofRatio
  split
  · exact .ok _
  · exact nofun

theorem BiasCodes.rangeFree_ofBias (bias : Array Single) (input weights output : AffineCode)
    (config : CodeLimits) : RangeFree (BiasCodes.ofBias bias input weights output config) := by
  unfold BiasCodes.ofBias
  refine RangeFree.bind ?_ fun steps => (Multiplier.rangeFree_ofRatio _ _ _ _).bind fun m => ?_
  · -- The bias is an array; the induction is on its list.
    rw [Array.mapM_eq_mapM_toList, map_eq_pure_bind]
    exact (RangeFree.mapM (rangeFree_biasStep _) _).bind fun _ => .ok _
  · split
    · exact nofun
    · exact .ok _

end RangeFree

/-! ## What a derivation depends on -/

theorem Calibration.get_eq_ok {c : Calibration} {o : OutputId} {b : Bounds} :
    c.get o = .ok b ↔ c.get? o = some b := by
  unfold Calibration.get
  cases c.get? o with
  | none => simp
  | some b' => simp

theorem Calibration.get_eq_error {c : Calibration} {o : OutputId} {e : DerivationError} :
    c.get o = .error e ↔ c.get? o = none ∧ e = .missingCalibration o := by
  unfold Calibration.get
  cases c.get? o with
  | none => simp [eq_comm]
  | some b => simp

namespace FixedPoint.Parameters

variable {config : CodeLimits} {conv : FloatConv} {c : Calibration} {source output : OutputId}
  {p : Parameters}

/-- **The parts of a derivation.** Two ranges are read, and all else is computed from
them, from the weights and the bias, and from the limits. -/
theorem derive_eq_ok :
    derive config conv c source output = .ok p ↔
      (c.get? source = some p.inputBounds ∧ c.get? output = some p.outputBounds) ∧
      AffineCode.ofBounds p.inputBounds config.bits = .ok p.inputCode ∧
      AffineCode.ofBounds p.outputBounds config.bits = .ok p.outputCode ∧
      WeightCodes.ofWeights conv.weights config.bits = .ok p.weights ∧
      BiasCodes.ofBias conv.bias p.inputCode p.weights.code p.outputCode config = .ok p.bias := by
  unfold derive
  simp only [except_bind_eq_ok, Calibration.get_eq_ok]
  constructor
  · rintro ⟨ib, hib, ic, hic, w, hw, ob, hob, oc, hoc, b, hb, hp⟩
    cases hp
    exact ⟨⟨hib, hob⟩, hic, hoc, hw, hb⟩
  · rintro ⟨⟨hib, hob⟩, hic, hoc, hw, hb⟩
    exact ⟨_, hib, _, hic, _, hw, _, hob, _, hoc, _, hb, rfl⟩

/-- A range is reported missing only if it is one of the two that are read. -/
theorem missing_of_derive {o : OutputId}
    (h : derive config conv c source output = .error (.missingCalibration o)) :
    (o = source ∨ o = output) ∧ c.get? o = none := by
  -- Of the six parts only the two that read the table can end in this error.
  unfold derive at h
  rcases except_bind_eq_error.1 h with h | ⟨ib, -, h⟩
  · obtain ⟨hnone, heq⟩ := Calibration.get_eq_error.1 h
    cases heq
    exact ⟨.inl rfl, hnone⟩
  rcases except_bind_eq_error.1 h with h | ⟨ic, -, h⟩
  · exact absurd h (AffineCode.rangeFree_ofBounds _ _ o)
  rcases except_bind_eq_error.1 h with h | ⟨w, -, h⟩
  · exact absurd h (WeightCodes.rangeFree_ofWeights _ _ o)
  rcases except_bind_eq_error.1 h with h | ⟨ob, -, h⟩
  · obtain ⟨hnone, heq⟩ := Calibration.get_eq_error.1 h
    cases heq
    exact ⟨.inr rfl, hnone⟩
  rcases except_bind_eq_error.1 h with h | ⟨oc, -, h⟩
  · exact absurd h (AffineCode.rangeFree_ofBounds _ _ o)
  rcases except_bind_eq_error.1 h with h | ⟨b, -, h⟩
  · exact absurd h (BiasCodes.rangeFree_ofBias _ _ _ _ _ o)
  · cases h

end FixedPoint.Parameters

/-! ## What the parameters keep -/

/-- The parts of the codes of weights: the width is at most eight bits, and every weight
has its code under the map of some range. -/
theorem WeightCodes.parts_of_ofWeights {weights : Tensor4 Single} {bits : Nat}
    {w : WeightCodes} (h : WeightCodes.ofWeights weights bits = .ok w) :
    bits ≤ 8 ∧ (∃ b, AffineCode.ofBounds b bits = .ok w.code) ∧
      w.weights.extents = weights.extents := by
  unfold WeightCodes.ofWeights at h
  by_cases hbits : 8 < bits
  · rw [if_pos hbits] at h
    cases h
  · rw [if_neg hbits] at h
    simp only [except_bind_eq_ok] at h
    obtain ⟨b, -, b', -, code, hcode, h⟩ := h
    cases h
    exact ⟨Nat.not_lt.1 hbits, ⟨b', hcode⟩, rfl⟩

/-- A list of results has one for each element, and each comes from an element. -/
theorem results_of_mapM {α β ε : Type} {f : α → Except ε β} {l : List α} {r : List β}
    (h : l.mapM f = .ok r) : r.length = l.length ∧ ∀ b ∈ r, ∃ a ∈ l, f a = .ok b := by
  induction l generalizing r with
  | nil =>
    cases h
    exact ⟨rfl, fun b hb => absurd hb List.not_mem_nil⟩
  | cons a l ih =>
    rw [List.mapM_cons] at h
    obtain ⟨b, hb, h⟩ := except_bind_eq_ok.1 h
    obtain ⟨r', hr', h⟩ := except_bind_eq_ok.1 h
    cases h
    obtain ⟨hlength, hrest⟩ := ih hr'
    refine ⟨congrArg (· + 1) hlength, fun b' hb' => ?_⟩
    rcases List.mem_cons.1 hb' with rfl | hb'
    · exact ⟨a, .head _, hb⟩
    · obtain ⟨a', ha', hb'⟩ := hrest b' hb'
      exact ⟨a', .tail _ ha', hb'⟩

/-- The parts of the codes of a bias: its steps, one for each bias, and a multiplier that
shifts right. -/
theorem BiasCodes.parts_of_ofBias {bias : Array Single} {input weights output : AffineCode}
    {config : CodeLimits} {b : BiasCodes}
    (h : BiasCodes.ofBias bias input weights output config = .ok b) :
    bias.toList.mapM (biasStep (input.scale * weights.scale)) = .ok b.bias.toList ∧
    Multiplier.ofRatio (input.scale * weights.scale / output.scale) config.multiplierBits
      config.multiplierMax true = .ok b.multiplier ∧
    1 ≤ b.multiplier.shift := by
  unfold BiasCodes.ofBias at h
  obtain ⟨steps, hsteps, h⟩ := except_bind_eq_ok.1 h
  obtain ⟨m, hm, h⟩ := except_bind_eq_ok.1 h
  split at h
  · cases h
  · next hpos =>
    cases h
    rw [Array.mapM_eq_mapM_toList, map_eq_pure_bind] at hsteps
    obtain ⟨l, hl, hsteps⟩ := except_bind_eq_ok.1 hsteps
    cases hsteps
    exact ⟨hl, hm, Int.not_le.1 hpos⟩

namespace Multiplier

theorem mem_shiftsDown {n : Nat} {s : Int} : s ∈ shiftsDown n ↔ -(n : Int) ≤ s ∧ s ≤ n := by
  unfold shiftsDown
  rw [List.mem_map]
  constructor
  · rintro ⟨i, hi, rfl⟩
    rw [List.mem_range] at hi
    omega
  · rintro ⟨hlow, hhigh⟩
    exact ⟨(n - s).toNat, List.mem_range.2 (by omega), by omega⟩

/-- What is found has one of the shifts that were tried, with the mantissa there,
between one and the limit. -/
theorem firstWithin?_mem {ratio : Single} {limit : Int} {l : List Int} {m : Multiplier}
    (h : firstWithin? ratio limit l = some m) :
    m.shift ∈ l ∧ mantissaAt ratio m.shift = some m.mantissa ∧
      1 ≤ m.mantissa ∧ m.mantissa ≤ limit := by
  induction l with
  | nil => cases h
  | cons s rest ih =>
    have hrest : firstWithin? ratio limit rest = some m → m.shift ∈ s :: rest ∧
        mantissaAt ratio m.shift = some m.mantissa ∧ 1 ≤ m.mantissa ∧ m.mantissa ≤ limit :=
      fun h => ⟨.tail _ (ih h).1, (ih h).2⟩
    rw [firstWithin?] at h
    split at h
    · next a ha =>
      split at h
      · exact hrest h
      · next hlimit =>
        split at h
        · cases h
        · next hone =>
          cases h
          exact ⟨.head _, ha, Int.not_lt.1 hone, Int.not_lt.1 hlimit⟩
    · exact hrest h

/-- When a multiplier is found: for a positive finite ratio, within a register of one to
thirty-two bits, if the limit allows a mantissa at all. -/
theorem ofRatio_eq_ok {ratio : Single} {maxBits maxValue : Int} {signed : Bool}
    {m : Multiplier} :
    ofRatio ratio maxBits maxValue signed = .ok m ↔
      ratio.isFinite ∧ ¬ratio ≤ .zero false ∧ (1 ≤ maxBits ∧ maxBits ≤ 32) ∧
      firstWithin? ratio (mantissaLimit maxBits.toNat maxValue signed)
        (shiftsDown maxBits.toNat) = some m := by
  have hsome : ofRatio ratio maxBits maxValue signed = .ok m ↔
      ofRatio? ratio maxBits maxValue signed = some m := by
    unfold ofRatio
    cases ofRatio? ratio maxBits maxValue signed with
    | none => simp
    | some m' => simp
  rw [hsome]
  unfold ofRatio?
  dsimp only
  split
  · next hbad => exact ⟨nofun, fun ⟨hfin, hpos, hbits, _⟩ => by simp_all⟩
  · next hgood =>
    simp only [Bool.not_eq_true', not_or, Decidable.not_not, Bool.not_eq_false] at hgood
    split
    · next hlimit =>
      refine ⟨nofun, fun ⟨_, _, _, hfound⟩ => ?_⟩
      have := firstWithin?_mem hfound
      omega
    · exact ⟨fun h => ⟨hgood.1, hgood.2.1, hgood.2.2, h⟩, fun h => h.2.2.2⟩

/-- A mantissa is a positive signed integer of thirty-two bits. -/
theorem mantissa_of_ofRatio {ratio : Single} {maxBits maxValue : Int} {signed : Bool}
    {m : Multiplier} (h : ofRatio ratio maxBits maxValue signed = .ok m) :
    1 ≤ m.mantissa ∧ m.mantissa < 2 ^ 31 := by
  obtain ⟨-, -, -, hfound⟩ := ofRatio_eq_ok.1 h
  obtain ⟨-, -, hone, hlimit⟩ := firstWithin?_mem hfound
  refine ⟨hone, Int.lt_of_le_sub_one (Int.le_trans hlimit ?_)⟩
  exact Int.min_le_right _ _

/-- A shift does not exceed the width of the register, of thirty-two bits at most. -/
theorem shift_of_ofRatio {ratio : Single} {maxBits maxValue : Int} {signed : Bool}
    {m : Multiplier} (h : ofRatio ratio maxBits maxValue signed = .ok m) : m.shift ≤ 32 := by
  obtain ⟨-, -, hbits, hfound⟩ := ofRatio_eq_ok.1 h
  have := mem_shiftsDown.1 (firstWithin?_mem hfound).1
  omega

end Multiplier

namespace FixedPoint.Parameters

variable {config : CodeLimits} {conv : FloatConv} {c : Calibration} {source output : OutputId}
  {p : Parameters} (h : derive config conv c source output = .ok p)
include h

/-- The convolution on codes fits exactly what the convolution fits. -/
theorem fixedConv_fits_iff {channels : Nat} :
    (p.fixedConv conv).Fits channels ↔ conv.Fits channels := by
  obtain ⟨-, -, -, hw, hb⟩ := derive_eq_ok.1 h
  have hextents : (p.fixedConv conv).weights.extents = conv.weights.extents :=
    (WeightCodes.parts_of_ofWeights hw).2.2
  have hsize : (p.fixedConv conv).bias.size = conv.bias.size :=
    (results_of_mapM (BiasCodes.parts_of_ofBias hb).1).1
  constructor
  · rintro ⟨hstrides, hdilations, hgroups, hperGroup, hbias⟩
    rw [hextents] at hgroups hperGroup hbias
    exact ⟨hstrides, hdilations, hgroups, hperGroup, hsize.symm.trans hbias⟩
  · rintro ⟨hstrides, hdilations, hgroups, hperGroup, hbias⟩
    rw [← hextents] at hgroups hperGroup hbias
    exact ⟨hstrides, hdilations, hgroups, hperGroup, hsize.trans hbias⟩

/-- The convolution on codes has a result where the convolution has one, of the same
shape. -/
theorem resultType_fixedConv {t u : TensorType} (hu : conv.resultType t = .ok u) :
    (p.fixedConv conv).resultType (t.withScalar .u8) = .ok (u.withScalar .u8) := by
  obtain ⟨-, -, -, hw, -⟩ := derive_eq_ok.1 h
  have hextents : (p.fixedConv conv).weights.extents = conv.weights.extents :=
    (WeightCodes.parts_of_ofWeights hw).2.2
  unfold Convolution.resultType at hu ⊢
  split at hu
  · next e he =>
    cases hu
    have he' : Extents.ofShape? (t.withScalar .u8).shape = some e := he
    rw [he']
    simp only [Convolution.resultExtents, hextents]
    rfl
  · cases hu

/-- The shift is one that the evaluator takes. -/
theorem shift_of_derive :
    1 ≤ (p.fixedConv conv).rescale.multiplier.shift ∧
      (p.fixedConv conv).rescale.multiplier.shift ≤ 62 := by
  obtain ⟨-, -, -, -, hb⟩ := derive_eq_ok.1 h
  obtain ⟨-, hm, hpos⟩ := BiasCodes.parts_of_ofBias hb
  exact ⟨hpos, Int.le_trans (Multiplier.shift_of_ofRatio hm) (by decide)⟩

end FixedPoint.Parameters

/-! ## The ranges that derived parameters keep to -/

theorem Binary.clampTo_le {f : Format} (x : Binary f) (top : Nat) : x.clampTo top ≤ top := by
  unfold Binary.clampTo
  split
  · exact Nat.zero_le top
  · split
    · exact Nat.zero_le top
    · exact Nat.le_refl top
  · exact Nat.min_le_right _ _

theorem AffineCode.zeroPoint_of_ofBounds {b : Bounds} {bits : Nat} {code : AffineCode}
    (h : AffineCode.ofBounds b bits = .ok code) (hbits : bits ≤ 8) :
    0 ≤ code.zeroPoint ∧ code.zeroPoint ≤ 255 := by
  unfold AffineCode.ofBounds at h
  split at h
  · cases h
  · obtain ⟨b', -, h⟩ := except_bind_eq_ok.1 h
    cases h
    have htop : maxCode bits ≤ maxCode 8 :=
      Nat.sub_le_sub_right (Nat.pow_le_pow_right (by decide) hbits) 1
    exact ⟨Int.natCast_nonneg _,
      Int.ofNat_le.2 (Nat.le_trans (Binary.clampTo_le _ _) htop)⟩

/-- The ranges of a convolution on codes that comes from floating point: the offsets take
the zero points of bytes away, the biases and the mantissa have thirty-two bits, and the
multiplier shifts right by at most thirty-two places. -/
structure FixedConv.Emitted (c : FixedConv) : Prop where
  inputOffset : -255 ≤ c.rescale.inputOffset ∧ c.rescale.inputOffset ≤ 0
  weightOffset : -255 ≤ c.rescale.weightOffset ∧ c.rescale.weightOffset ≤ 0
  outputOffset : 0 ≤ c.rescale.outputOffset ∧ c.rescale.outputOffset ≤ 255
  shift : 1 ≤ c.rescale.multiplier.shift ∧ c.rescale.multiplier.shift ≤ 32
  mantissa : 1 ≤ c.rescale.multiplier.mantissa ∧ c.rescale.multiplier.mantissa < 2 ^ 31
  bias : ∀ b ∈ c.bias, -2 ^ 31 ≤ b ∧ b < 2 ^ 31

/-- Codes of weights have at most eight bits, so everything a convolution is lowered to
keeps to the ranges of bytes. -/
theorem FixedPoint.Parameters.emitted_of_derive {config : CodeLimits} {conv : FloatConv}
    {c : Calibration} {source output : OutputId} {p : Parameters}
    (h : derive config conv c source output = .ok p) : (p.fixedConv conv).Emitted := by
  obtain ⟨-, hinput, houtput, hw, hb⟩ := derive_eq_ok.1 h
  obtain ⟨hbits, ⟨b, hweights⟩, -⟩ := WeightCodes.parts_of_ofWeights hw
  obtain ⟨hsteps, hm, hpos⟩ := BiasCodes.parts_of_ofBias hb
  have hi := AffineCode.zeroPoint_of_ofBounds hinput hbits
  have hk := AffineCode.zeroPoint_of_ofBounds hweights hbits
  constructor
  case inputOffset => exact ⟨Int.neg_le_neg hi.2, Int.neg_nonpos_of_nonneg hi.1⟩
  case weightOffset => exact ⟨Int.neg_le_neg hk.2, Int.neg_nonpos_of_nonneg hk.1⟩
  case outputOffset => exact AffineCode.zeroPoint_of_ofBounds houtput hbits
  case shift => exact ⟨hpos, Multiplier.shift_of_ofRatio hm⟩
  case mantissa => exact Multiplier.mantissa_of_ofRatio hm
  case bias =>
    intro n hn
    obtain ⟨v, -, hv⟩ := (results_of_mapM hsteps).2 n (Array.mem_toList_iff.2 hn)
    unfold biasStep at hv
    split at hv
    · split at hv
      · next hrange =>
        cases hv
        exact hrange
      · cases hv
    · cases hv

end FixedNet
