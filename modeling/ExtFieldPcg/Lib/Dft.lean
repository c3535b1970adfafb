import Mathlib.Algebra.BigOperators.Pi
import Mathlib.Algebra.Module.BigOperators
import Mathlib.LinearAlgebra.BilinearMap
import Mathlib.Data.Fintype.BigOperators

/-! The Fourier transform over a finite abelian group `G` whose order is a unit that is already one: a
    symmetric bicharacter with values in a ring `R`, and functions with values in an `R`-module. -/

/-- A symmetric bicharacter `G × G → R` whose rows sum to the indicator of zero. -/
structure Pairing (G R : Type*) [AddCommGroup G] [Fintype G] [DecidableEq G] [CommRing R] where
  chi : G → G → R
  chi_zero : ∀ x, chi x 0 = 1
  chi_add : ∀ x y z, chi x (y + z) = chi x y * chi x z
  chi_symm : ∀ x y, chi x y = chi y x
  sum_chi : ∀ y, ∑ x, chi x y = if y = 0 then 1 else 0

namespace Pairing

variable {G R M N P : Type*} [AddCommGroup G] [Fintype G] [DecidableEq G] [CommRing R]
variable [AddCommGroup M] [Module R M] [AddCommGroup N] [Module R N] [AddCommGroup P] [Module R P]
variable (χ : Pairing G R)

theorem chi_mul_neg (x y : G) : χ.chi x y * χ.chi x (-y) = 1 := by
  rw [← χ.chi_add, add_neg_cancel, χ.chi_zero]

theorem chi_neg (x y : G) : χ.chi (-x) y = χ.chi x (-y) := by
  have h₁ := χ.chi_mul_neg y x
  have h₂ := χ.chi_mul_neg x y
  rw [χ.chi_symm y x, χ.chi_symm y (-x)] at h₁
  calc χ.chi (-x) y = χ.chi (-x) y * (χ.chi x y * χ.chi x (-y)) := by rw [h₂, mul_one]
    _ = (χ.chi x y * χ.chi (-x) y) * χ.chi x (-y) := by ring
    _ = χ.chi x (-y) := by rw [h₁, one_mul]

def dft (f : G → M) (x : G) : M := ∑ y, χ.chi x y • f y

/-- The transform along the inverse characters. -/
def idft (f : G → M) (x : G) : M := ∑ y, χ.chi x (-y) • f y

theorem dft_add (f g : G → M) : χ.dft (f + g) = χ.dft f + χ.dft g := by
  funext x
  simp [dft, smul_add, Finset.sum_add_distrib]

theorem dft_map (φ : M →ₗ[R] N) (f : G → M) (x : G) : χ.dft (fun y => φ (f y)) x = φ (χ.dft f x) := by
  simp [dft, map_sum]

theorem dft_neg (f : G → M) (x : G) : χ.dft (fun y => f (-y)) x = χ.dft f (-x) := by
  unfold dft
  rw [← Equiv.sum_comp (Equiv.neg G)]
  simp [χ.chi_neg]

theorem idft_eq (f : G → M) (x : G) : χ.idft f x = χ.dft f (-x) := by
  simp [idft, dft, χ.chi_neg]

/-- Summing the characters at `z - y` picks out the value at `y`. -/
theorem sum_sum_chi (f : G → M) (y : G) : ∑ x, ∑ z, χ.chi x (z - y) • f z = f y := by
  rw [Finset.sum_comm]
  calc ∑ z, ∑ x, χ.chi x (z - y) • f z = ∑ z, (if z - y = 0 then (1 : R) else 0) • f z := by
        simp only [← Finset.sum_smul, χ.sum_chi]
    _ = f y := by simp [sub_eq_zero]

theorem idft_dft (f : G → M) : χ.idft (χ.dft f) = f := by
  funext y
  calc χ.idft (χ.dft f) y = ∑ x, ∑ z, χ.chi x (z - y) • f z := by
        unfold idft dft
        refine Finset.sum_congr rfl fun x _ => ?_
        rw [Finset.smul_sum]
        refine Finset.sum_congr rfl fun z _ => ?_
        rw [smul_smul, χ.chi_symm y, χ.chi_neg, sub_eq_add_neg, χ.chi_add, mul_comm]
    _ = f y := χ.sum_sum_chi f y

theorem dft_idft (f : G → M) : χ.dft (χ.idft f) = f := by
  have h := χ.idft_dft (fun y => f (-y))
  funext y
  calc χ.dft (χ.idft f) y = χ.idft (χ.dft fun y => f (-y)) (-y) := by
        rw [χ.idft_eq, neg_neg]
        refine congrArg (fun g => χ.dft g y) ?_
        funext x
        rw [χ.idft_eq, χ.dft_neg]
    _ = f y := by simp [h]

theorem dft_injective : Function.Injective (χ.dft : (G → M) → G → M) :=
  Function.LeftInverse.injective χ.idft_dft

theorem dft_eq_zero {f : G → M} : χ.dft f = 0 ↔ f = 0 := by
  have hzero : χ.dft (0 : G → M) = 0 := by
    funext x
    simp [dft]
  rw [← χ.dft_injective.eq_iff (a := f), hzero]

/-- The convolution of `f` and `g` along a bilinear product of their values. -/
def conv (B : M →ₗ[R] N →ₗ[R] P) (f : G → M) (g : G → N) (z : G) : P :=
  ∑ x, ∑ y, if x + y = z then B (f x) (g y) else 0

theorem conv_translate (B : M →ₗ[R] N →ₗ[R] P) (f : G → M) (g : G → N) (t z : G) :
    conv B (fun x => f (x - t)) g z = conv B f g (z - t) := by
  rw [conv, conv, ← Equiv.sum_comp (Equiv.addRight t)]
  refine Finset.sum_congr rfl fun x _ => Finset.sum_congr rfl fun y _ => ?_
  simp only [Equiv.coe_addRight, add_sub_cancel_right]
  exact if_congr (by rw [eq_sub_iff_add_eq, add_right_comm]) rfl rfl

/-- The transform turns a convolution into the pointwise product. -/
theorem dft_conv (B : M →ₗ[R] N →ₗ[R] P) (f : G → M) (g : G → N) (x : G) :
    χ.dft (conv B f g) x = B (χ.dft f x) (χ.dft g x) := by
  calc χ.dft (conv B f g) x
      = ∑ a, ∑ b, ∑ z, if a + b = z then χ.chi x z • B (f a) (g b) else 0 := by
        simp only [dft, conv, Finset.smul_sum, smul_ite, smul_zero]
        rw [Finset.sum_comm]
        exact Finset.sum_congr rfl fun a _ => Finset.sum_comm
    _ = ∑ a, ∑ b, (χ.chi x a * χ.chi x b) • B (f a) (g b) := by
        simp [χ.chi_add]
    _ = B (χ.dft f x) (χ.dft g x) := by
        unfold dft
        rw [LinearMap.map_sum₂]
        refine Finset.sum_congr rfl fun a _ => ?_
        rw [LinearMap.map_smul₂, map_sum, Finset.smul_sum]
        exact Finset.sum_congr rfl fun b _ => by rw [map_smul, smul_smul]

end Pairing
