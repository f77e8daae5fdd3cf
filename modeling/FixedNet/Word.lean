/-
**Machine words read as integers.** A count of up to 64 bits can be read as a
signed word and a signed word as a count; both readings keep the residue modulo
`2 ^ 64`. Signed sums, differences and products that leave the range of their word
wrap around. Where they must not, they saturate at the ends of the range instead.
-/

set_option autoImplicit false

namespace FixedNet

/-- Powers have a natural exponent and are computed by `Nat.pow` and `Int.pow`. This is fixed
here once, so that `2 ^ k` is the same term in every module, whether or not it imports the
powers of a monoid as well. -/
@[default_instance 20000] instance (priority := high) power {α : Type} [NatPow α] : Pow α Nat :=
  instPowNat

/-- What a signed word of the given number of bits holds of `x`. Sums and products may be
wrapped once, at the end, since wrapping keeps the residue. -/
def wrap (bits : Nat) (x : Int) : Int := x.bmod (2 ^ bits)

/-- The 64-bit word of `n` read as a signed integer. -/
def signedWord (n : Nat) : Int := wrap 64 n

/-- The 64-bit word of `x` read as a natural number. -/
def unsignedWord (x : Int) : Nat := (x % 2 ^ 64).toNat

/-- The signed 64-bit integer nearest to `x`. -/
def saturate (x : Int) : Int := max (-2 ^ 63) (min x (2 ^ 63 - 1))

/-- Within the signed 64-bit range nothing wraps. -/
theorem wrap_of_mem {x : Int} (hlow : -2 ^ 63 ≤ x) (hhigh : x < 2 ^ 63) : wrap 64 x = x := by
  unfold wrap
  apply Int.bmod_eq_of_le <;> omega

/-- From the upper end of the range to `2 ^ 64` words are negative. -/
theorem wrap_of_ge {x : Int} (hlow : 2 ^ 63 ≤ x) (hhigh : x < 2 ^ 64) :
    wrap 64 x = x - 2 ^ 64 := by
  unfold wrap
  rw [← Int.sub_bmod_right]
  apply Int.bmod_eq_of_le <;> omega

/-- Zero is held by every word. -/
@[simp] theorem wrap_zero (bits : Nat) : wrap bits 0 = 0 := Int.zero_bmod

/-- A sum may be wrapped before it is complete. -/
theorem wrap_wrap_add (bits : Nat) (x y : Int) : wrap bits (wrap bits x + y) = wrap bits (x + y) :=
  Int.bmod_add_bmod

/-- A count below `2 ^ 63` is read as itself. -/
theorem signedWord_of_lt {n : Nat} (h : n < 2 ^ 63) : signedWord n = n :=
  wrap_of_mem (by omega) (by omega)

/-- A natural number below `2 ^ 64` is read as itself. -/
theorem unsignedWord_of_lt {n : Nat} (h : n < 2 ^ 64) : unsignedWord n = n := by
  unfold unsignedWord
  omega

/-- Within the signed range nothing saturates. -/
theorem saturate_of_mem {x : Int} (hlow : -2 ^ 63 ≤ x) (hhigh : x < 2 ^ 63) :
    saturate x = x := by
  unfold saturate
  omega

/-- Above the range the largest word is taken. -/
theorem saturate_of_ge {x : Int} (h : 2 ^ 63 ≤ x) : saturate x = 2 ^ 63 - 1 := by
  unfold saturate
  omega

/-- Below the range the smallest word is taken. -/
theorem saturate_of_lt {x : Int} (h : x < -2 ^ 63) : saturate x = -2 ^ 63 := by
  unfold saturate
  omega

end FixedNet
