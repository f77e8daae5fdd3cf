/-
**Tensors.** A tensor is a shape and its elements in row-major order, the last
axis fastest. Rank four has a type of its own, `Tensor4`, since convolutions
read their operands by four coordinates: a batch of channels of rows of columns.
-/
import FixedNet.Tensor.Type

set_option autoImplicit false

namespace FixedNet

universe u v

/-! ## Tensors of any rank -/

/-- A tensor: as many elements as the shape has places. -/
structure Tensor (α : Type u) where
  shape : Shape
  data : Array α
  size_data : data.size = shape.size
deriving DecidableEq

namespace Tensor

variable {α : Type u} {β : Type v}

/-- The tensor of a shape with the given elements, if their number fits. -/
def ofData? (shape : Shape) (data : Array α) : Option (Tensor α) :=
  if h : data.size = shape.size then some ⟨shape, data, h⟩ else none

/-- Applies a function to every element. -/
def map (f : α → β) (t : Tensor α) : Tensor β :=
  ⟨t.shape, t.data.map f, by simpa using t.size_data⟩

end Tensor

/-! ## Tensors of rank four -/

/-- The extents of a rank-four tensor, the slowest axis first. -/
structure Extents where
  outer : Nat
  inner : Nat
  rows : Nat
  cols : Nat
deriving DecidableEq

namespace Extents

/-- The extents as a shape. -/
def shape (e : Extents) : Shape := [e.outer, e.inner, e.rows, e.cols]

/-- The extents of a shape of rank four. -/
def ofShape? : Shape → Option Extents
  | [a, b, c, d] => some ⟨a, b, c, d⟩
  | _ => none

theorem shape_of_ofShape? {s : Shape} {e : Extents} (h : ofShape? s = some e) : e.shape = s := by
  unfold ofShape? at h
  split at h
  · cases h
    rfl
  · cases h

/-- The place of an element in row-major order. -/
def offset (e : Extents) (i j y x : Nat) : Nat := ((i * e.inner + j) * e.rows + y) * e.cols + x

end Extents

/-! ### Mixed-radix digits

`a * n + b` with `b < n` is the two-digit number `a b` in base `n`. An offset is
such a number with one digit for each coordinate, so quotient and remainder give
the coordinates back. -/

theorem digit_div {a n b : Nat} (h : b < n) : (a * n + b) / n = a := by
  rw [Nat.mul_comm, Nat.mul_add_div (by omega), Nat.div_eq_of_lt h, Nat.add_zero]

theorem digit_mod {a n b : Nat} (h : b < n) : (a * n + b) % n = b := by
  rw [Nat.mul_comm, Nat.mul_add_mod, Nat.mod_eq_of_lt h]

theorem digit_lt {a b m n : Nat} (ha : a < m) (hb : b < n) : a * n + b < m * n := by
  calc a * n + b < a * n + n := by omega
    _ = (a + 1) * n := by rw [Nat.add_mul, Nat.one_mul]
    _ ≤ m * n := Nat.mul_le_mul_right n ha

theorem Extents.offset_lt {e : Extents} {i j y x : Nat} (hi : i < e.outer) (hj : j < e.inner)
    (hy : y < e.rows) (hx : x < e.cols) : e.offset i j y x < e.shape.size := by
  have h := digit_lt (digit_lt (digit_lt hi hj) hy) hx
  simpa [offset, shape, Shape.size, Nat.mul_assoc] using h

/-- A rank-four tensor. -/
structure Tensor4 (α : Type u) where
  extents : Extents
  data : Array α
  size_data : data.size = extents.shape.size
deriving DecidableEq

namespace Tensor4

variable {α : Type u} {β : Type v}

/-- The element at four coordinates, if each is within its extent. -/
def get? (t : Tensor4 α) (i j y x : Nat) : Option α :=
  if i < t.extents.outer ∧ j < t.extents.inner ∧ y < t.extents.rows ∧ x < t.extents.cols then
    t.data[t.extents.offset i j y x]?
  else none

/-- The tensor whose element at each place is given by its coordinates. -/
def ofFn (e : Extents) (f : (i j y x : Nat) → α) : Tensor4 α where
  extents := e
  data := Array.ofFn fun p : Fin e.shape.size =>
    f (p / (e.inner * e.rows * e.cols)) (p / (e.rows * e.cols) % e.inner) (p / e.cols % e.rows)
      (p % e.cols)
  size_data := by simp

/-- A tensor built from a function holds its values, and nothing outside. -/
theorem get?_ofFn (e : Extents) (f : (i j y x : Nat) → α) (i j y x : Nat) :
    (ofFn e f).get? i j y x =
      if i < e.outer ∧ j < e.inner ∧ y < e.rows ∧ x < e.cols then some (f i j y x) else none := by
  unfold get?
  split
  · next h =>
    obtain ⟨hi, hj, hy, hx⟩ : i < e.outer ∧ j < e.inner ∧ y < e.rows ∧ x < e.cols := h
    have hlt := Extents.offset_lt hi hj hy hx
    -- The coordinates come off the offset from the fastest axis to the slowest.
    have hcols : e.offset i j y x / e.cols = (i * e.inner + j) * e.rows + y := digit_div hx
    have hrows : e.offset i j y x / (e.rows * e.cols) = i * e.inner + j := by
      rw [Nat.mul_comm, ← Nat.div_div_eq_div_mul, hcols, digit_div hy]
    have houter : e.offset i j y x / (e.inner * e.rows * e.cols) = i := by
      rw [Nat.mul_assoc, Nat.mul_comm, ← Nat.div_div_eq_div_mul, hrows, digit_div hj]
    have hmod : e.offset i j y x % e.cols = x := digit_mod hx
    simp [ofFn, hlt, hcols, hrows, houter, hmod, digit_mod hj, digit_mod hy, hi, hj, hy, hx]
  · next h => exact (if_neg h).symm

/-- Only the values within the extents matter. -/
theorem ofFn_congr {e : Extents} {f g : (i j y x : Nat) → α}
    (h : ∀ i j y x, i < e.outer → j < e.inner → y < e.rows → x < e.cols → f i j y x = g i j y x) :
    ofFn e f = ofFn e g := by
  simp only [ofFn, mk.injEq, true_and]
  congr 1
  funext p
  have hsize : p < e.outer * (e.inner * e.rows * e.cols) := by
    simpa [Extents.shape, Shape.size, Nat.mul_assoc] using p.isLt
  -- A place within the tensor leaves no axis empty.
  have hpos : 0 < e.inner * e.rows * e.cols := Nat.pos_of_lt_mul_left hsize
  have hplane : 0 < e.inner * e.rows := Nat.pos_of_mul_pos_right hpos
  apply h
  · exact Nat.div_lt_of_lt_mul (Nat.mul_comm .. ▸ hsize)
  · exact Nat.mod_lt _ (Nat.pos_of_mul_pos_right hplane)
  · exact Nat.mod_lt _ (Nat.pos_of_mul_pos_left hplane)
  · exact Nat.mod_lt _ (Nat.pos_of_mul_pos_left hpos)

/-- Applies a function to every element. -/
def map (f : α → β) (t : Tensor4 α) : Tensor4 β :=
  ⟨t.extents, t.data.map f, by simpa using t.size_data⟩

/-- The same tensor with its extents as a shape. -/
def toTensor (t : Tensor4 α) : Tensor α := ⟨t.extents.shape, t.data, t.size_data⟩

/-- A tensor of rank four by its four extents. -/
def ofTensor? (t : Tensor α) : Option (Tensor4 α) :=
  match h : Extents.ofShape? t.shape with
  | some e => some ⟨e, t.data, by rw [Extents.shape_of_ofShape? h]; exact t.size_data⟩
  | none => none

end Tensor4

end FixedNet
