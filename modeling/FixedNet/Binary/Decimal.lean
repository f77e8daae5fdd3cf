/-
**Decimal text of binary floating-point numbers.**

Two ways to write a number, both exact rules on its count of units:

* `Binary.shortest`: the fewest decimal digits that read back as the same
  number, always in positional notation. Among decimals of that length the one
  nearest to the number is taken, the upper one if two are equally near.
* `Binary.fixed`: a given number of decimal places, the exact value rounded to
  the last of them with ties to even.

A decimal reads back as a number if it lies in the number's *rounding interval*:
halfway to the neighbour on either side, the ends included if the significand is
even. Scaled by four and counted in units, both ends are whole, so membership is
a comparison of naturals.
-/
import FixedNet.Binary.Arithmetic

set_option autoImplicit false

namespace FixedNet

/-! ## The rounding interval -/

/-- The reals that round to a positive magnitude, in quarters of a unit. -/
structure RoundingInterval where
  low : Nat
  center : Nat
  high : Nat
  closed : Bool

/-- The rounding interval of a positive magnitude. Just above a power of two the
spacing doubles, so there the lower neighbour is half as far as the upper. -/
def Format.roundingInterval (f : Format) (units : Nat) : RoundingInterval :=
  let spacing := 2 ^ f.excess units
  let below := if units = 2 ^ units.log2 ∧ 1 < spacing then spacing else 2 * spacing
  { low := 4 * units - below
    center := 4 * units
    high := 4 * units + 2 * spacing
    closed := units / spacing % 2 = 0 }

/-! ## Decimals -/

/-- The decimal `coefficient * 10 ^ exponent`. -/
structure Decimal where
  coefficient : Nat
  exponent : Int

namespace Decimal

/-- The decimal in positional notation: no exponent, a digit before the point,
and no point if the value is a multiple of one. -/
def positional (d : Decimal) : String :=
  match d.exponent with
  | .ofNat zeros => toString (d.coefficient * 10 ^ zeros)
  | .negSucc n =>
    let places := n + 1
    let fraction := toString (d.coefficient % 10 ^ places)
    toString (d.coefficient / 10 ^ places) ++ "." ++
      String.ofList (List.replicate (places - fraction.length) '0') ++ fraction

end Decimal

/-- The neighbour of the interval's centre on the grid of multiples of
`10 ^ exponent` that reads back, if one does. Of two that do, the nearer wins,
and at equal distance the upper. The unit is `2 ^ -unitBits`. -/
def RoundingInterval.onGrid (i : RoundingInterval) (unitBits : Nat) (exponent : Int) :
    Option Decimal :=
  -- At most one of the two powers of ten differs from one.
  let den := 4 * 2 ^ unitBits * 10 ^ exponent.toNat
  let scale := 10 ^ (-exponent).toNat
  let floor := i.center * scale / den
  let holds (outer inner : Nat) : Bool := outer < inner || i.closed && outer == inner
  let down := holds (i.low * scale) (floor * den)
  let up := holds ((floor + 1) * den) (i.high * scale)
  if up && (!down || decide (den ≤ 2 * (i.center * scale % den))) then
    some ⟨floor + 1, exponent⟩
  else if down then some ⟨floor, exponent⟩
  else none

/-- The shortest decimal that reads back as a positive magnitude. The grids are
tried from coarse to fine, starting above every finite magnitude; on the grid of
`10 ^ -unitBits` the magnitude itself lies. -/
def Format.shortestDecimal (f : Format) (units : Nat) : Decimal :=
  let interval := f.roundingInterval units
  let top := f.magnitudeBits - f.unitBits
  let grids := (List.range (top + f.unitBits + 1)).map fun (i : Nat) => (top : Int) - i
  (grids.findSome? (interval.onGrid f.unitBits)).getD ⟨units * 5 ^ f.unitBits, -f.unitBits⟩

/-! ## Text -/

namespace Binary

variable {f : Format}

/-- The mark of a negative number. -/
def signText (negative : Bool) : String := if negative then "-" else ""

/-- The text of a number given how to write a magnitude. -/
def textWith (magnitude : Nat → String) : Binary f → String
  | .nan => "NaN"
  | .infinite s => signText s ++ "inf"
  | .finite s u _ => signText s ++ magnitude u

/-- The fewest digits that read back, in positional notation. -/
def shortest (x : Binary f) : String :=
  x.textWith fun u => if u = 0 then "0" else (f.shortestDecimal u).positional

/-- The exact value rounded to `places` decimal places, ties to even. -/
def fixed (x : Binary f) (places : Nat) : String :=
  x.textWith fun u =>
    (Decimal.mk (roundHalfEven (u * 10 ^ places) (2 ^ f.unitBits)) (-places)).positional

instance : ToString (Binary f) := ⟨shortest⟩

end Binary

end FixedNet
