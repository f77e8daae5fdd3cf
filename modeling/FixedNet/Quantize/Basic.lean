/-
**Ranges, affine codes and fixed-point multipliers.** The three kinds of numbers
that quantisation works with, each with its meaning and its text.

* `Bounds`: a closed range of reals, given by its two ends.
* `AffineCode`: 8-bit codes for reals. The code of `v` is `v / scale + zeroPoint`
  rounded and held within a byte; a code `c` stands for `(c - zeroPoint) * scale`.
* `Multiplier`: the ratio `mantissa / 2 ^ shift`.
-/
import FixedNet.Binary.Decimal

set_option autoImplicit false

namespace FixedNet

/-! ## Ranges -/

/-- The reals from `low` to `high`. -/
structure Bounds where
  low : Single
  high : Single
deriving DecidableEq

namespace Bounds

/-- The rounded distance of the ends. -/
def width (b : Bounds) : Single := b.high - b.low

/-- The least range that covers both. -/
def union (a b : Bounds) : Bounds := ⟨a.low.min b.low, a.high.max b.high⟩

/-- Whether an affine code can map the range: it is finite, holds zero and is not
a single point. -/
def isNormalized (b : Bounds) : Bool :=
  b.low.isFinite && b.high.isFinite && decide (b.low ≤ .zero false) &&
    decide (.zero false ≤ b.high) && decide (b.low < b.high)

instance : ToString Bounds :=
  ⟨fun b => "[" ++ b.low.shortest ++ ", " ++ b.high.shortest ++ "]"⟩

end Bounds

/-! ## Affine codes -/

/-- An affine map from reals to codes. -/
structure AffineCode where
  scale : Single
  zeroPoint : Int
deriving DecidableEq

namespace AffineCode

/-- The code of a value, held within `0` and `top`. -/
def encodeTo (a : AffineCode) (top : Nat) (v : Single) : Nat :=
  (v / a.scale + .ofInt a.zeroPoint).clampTo top

/-- The 8-bit code of a value. -/
def encode (a : AffineCode) (v : Single) : UInt8 := .ofNat (a.encodeTo 255 v)

/-- The value that a code stands for. The difference is a signed 32-bit word. -/
def decode (a : AffineCode) (code : Int) : Single :=
  .ofInt (wrap 32 (code - a.zeroPoint)) * a.scale

/-- Scale to six decimal places, and the zero point. -/
instance : ToString AffineCode :=
  ⟨fun a => "scale=" ++ a.scale.fixed 6 ++ ", zero_point=" ++ toString a.zeroPoint⟩

end AffineCode

/-! ## Multipliers -/

/-- The ratio `mantissa / 2 ^ shift`. -/
structure Multiplier where
  mantissa : Int
  shift : Int
deriving DecidableEq

namespace Multiplier

/-- The ratio as a double: the mantissa times a power of two, each rounded. -/
def value (m : Multiplier) : Double := .ofInt m.mantissa * .twoPow (-m.shift)

instance : ToString Multiplier :=
  ⟨fun m => toString m.mantissa ++ " >> " ++ toString m.shift⟩

end Multiplier

end FixedNet
