/-
**Tensor types.** A tensor type is a scalar type and a shape; the extent of each
axis is part of the type, and two connectors fit only if their types are equal.
-/

set_option autoImplicit false

namespace FixedNet

/-! ## Scalars -/

/-- The families of scalars, in their order. -/
inductive ScalarKind where
  | sint
  | uint
  | float
deriving DecidableEq, Ord

instance : ToString ScalarKind where
  toString
    | .sint => "sint"
    | .uint => "uint"
    | .float => "float"

/-- A scalar type: its family and its width in bytes. Scalars are ordered by
family, then by width. -/
structure Scalar where
  kind : ScalarKind
  width : Nat
deriving DecidableEq, Ord

namespace Scalar

/-- The 32-bit floating-point numbers. -/
def f32 : Scalar := ⟨.float, 4⟩

/-- The 8-bit codes. -/
def u8 : Scalar := ⟨.uint, 1⟩

/-- The 32-bit signed integers. -/
def i32 : Scalar := ⟨.sint, 4⟩

/-- The letter of the family and the width in bits. -/
instance : ToString Scalar where
  toString s :=
    let letter := match s.kind with
      | .sint => "i"
      | .uint => "u"
      | .float => "f"
    letter ++ toString (s.width * 8)

end Scalar

/-! ## Shapes -/

/-- The extent of each axis, the slowest-varying axis first. -/
abbrev Shape := List Nat

namespace Shape

/-- The number of elements of a tensor of this shape. A shape without axes has
one. -/
def size : Shape → Nat
  | [] => 1
  | d :: ds => d * size ds

/-- The extents in brackets. -/
def text (s : Shape) : String := "[" ++ String.intercalate ", " (s.map toString) ++ "]"

end Shape

/-! ## Types -/

/-- The type of a tensor. -/
structure TensorType where
  scalar : Scalar
  shape : Shape
deriving DecidableEq

namespace TensorType

/-- The type of the same shape over another scalar. -/
def withScalar (t : TensorType) (s : Scalar) : TensorType := { t with scalar := s }

instance : ToString TensorType := ⟨fun t => toString t.scalar ++ t.shape.text⟩

end TensorType

end FixedNet
