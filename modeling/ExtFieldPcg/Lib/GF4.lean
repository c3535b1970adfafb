import Mathlib.Algebra.Field.Basic
import Mathlib.Algebra.CharP.Two
import Mathlib.Data.Fintype.Prod
import Mathlib.Algebra.Field.ZMod

/-! The field with four elements `a + b·α`, `α² = α + 1`, with its elements as pairs of bits, and the
    cube roots of unity it holds as a character of `Z_3`. -/

/-- The element `lo + hi·α` of the field with four elements. -/
@[ext] structure GF4 where
  lo : Bool
  hi : Bool
deriving DecidableEq, Repr

namespace GF4

instance : Fintype GF4 where
  elems := {⟨false, false⟩, ⟨true, false⟩, ⟨false, true⟩, ⟨true, true⟩}
  complete := by rintro ⟨_ | _, _ | _⟩ <;> decide

instance : Zero GF4 := ⟨⟨false, false⟩⟩
instance : One GF4 := ⟨⟨true, false⟩⟩
instance : Add GF4 := ⟨fun a b => ⟨a.lo ^^ b.lo, a.hi ^^ b.hi⟩⟩
instance : Neg GF4 := ⟨id⟩

/-- `α² = α + 1`. -/
instance : Mul GF4 :=
  ⟨fun a b => ⟨(a.lo && b.lo) ^^ (a.hi && b.hi), (a.lo && b.hi) ^^ (a.hi && b.lo) ^^ (a.hi && b.hi)⟩⟩

/-- The conjugate of a nonzero element is its square, so it is its inverse. -/
instance : Inv GF4 := ⟨fun a => ⟨a.lo ^^ a.hi, a.hi⟩⟩

instance : Field GF4 where
  add_assoc := by decide
  zero_add := by decide
  add_zero := by decide
  add_comm := by decide
  neg_add_cancel := by decide
  left_distrib := by decide
  right_distrib := by decide
  zero_mul := by decide
  mul_zero := by decide
  mul_assoc := by decide
  one_mul := by decide
  mul_one := by decide
  mul_comm := by decide
  exists_pair_ne := ⟨0, 1, by decide⟩
  mul_inv_cancel := by decide
  inv_zero := by decide
  nsmul := nsmulRec
  zsmul := zsmulRec
  nnqsmul := _
  qsmul := _

instance : CharP GF4 2 := CharTwo.of_one_ne_zero_of_two_eq_zero (by decide) (by decide)

@[simp] theorem add_lo (a b : GF4) : (a + b).lo = (a.lo ^^ b.lo) := rfl
@[simp] theorem add_hi (a b : GF4) : (a + b).hi = (a.hi ^^ b.hi) := rfl
@[simp] theorem zero_lo : (0 : GF4).lo = false := rfl
@[simp] theorem zero_hi : (0 : GF4).hi = false := rfl

def alpha : GF4 := ⟨false, true⟩

/-- The primitive cube root of unity `α² = α + 1`. -/
def omega : GF4 := ⟨true, true⟩

theorem omega_mul (a b : Bool) : omega * ⟨a, b⟩ = ⟨a ^^ b, a⟩ := by
  cases a <;> cases b <;> rfl

/-- The character `z ↦ ω^z` of `Z_3`. -/
def cubeChar (z : ZMod 3) : GF4 := omega ^ z.val

@[simp] theorem cubeChar_zero : cubeChar 0 = 1 := rfl

theorem cubeChar_add : ∀ a b : ZMod 3, cubeChar (a + b) = cubeChar a * cubeChar b := by decide

/-- The values of a character over a line of `Z_3` sum to zero unless it is trivial; `3 = 1` here. -/
theorem sum_cubeChar_mul : ∀ b : ZMod 3, ∑ a, cubeChar (a * b) = if b = 0 then 1 else 0 := by decide

theorem cubeChar_add_neg : ∀ z : ZMod 3, cubeChar z + cubeChar (-z) = if z = 0 then 0 else 1 := by decide

end GF4
