import Mathlib.Algebra.BigOperators.Fin
import Mathlib.Data.Matrix.Mul
import ExtFieldPcg.Lib.Dft
import ExtFieldPcg.Lib.GF4

/-! Natural numbers as vectors of base-3 digits, least significant first: the index bijection with
    `Z_3^k`, digit-wise addition, and the pairing `ω^(x·y)`. -/

namespace Ternary

/-- The `k` low digits of `i`. -/
def digits (k i : ℕ) : Fin k → ZMod 3 := fun t => (i / 3 ^ t.val : ℕ)

def ofDigits (k : ℕ) (x : Fin k → ZMod 3) : ℕ := ∑ t, (x t).val * 3 ^ t.val

/-- Digit-wise sum of the `k` low digits. -/
def digitAdd (k i j : ℕ) : ℕ := ofDigits k (digits k i + digits k j)

/-- Digit-wise negation of the `k` low digits. -/
def digitNeg (k i : ℕ) : ℕ := ofDigits k (-digits k i)

variable {k : ℕ}

theorem digits_val (i : ℕ) (t : Fin k) : (digits k i t).val = i / 3 ^ t.val % 3 := ZMod.val_natCast _ _

/-- Digit vectors are the indices below `3^k`. -/
def index (k : ℕ) : (Fin k → ZMod 3) ≃ Fin (3 ^ k) := finFunctionFinEquiv (m := 3)

theorem index_val (x : Fin k → ZMod 3) : (index k x).val = ofDigits k x := finFunctionFinEquiv_apply (m := 3) x

theorem ofDigits_lt (x : Fin k → ZMod 3) : ofDigits k x < 3 ^ k := index_val x ▸ (index k x).isLt

theorem digits_eq (i : Fin (3 ^ k)) : digits k i = (index k).symm i := by
  funext t
  apply ZMod.val_injective
  rw [digits_val]
  exact (finFunctionFinEquiv_symm_apply_val (m := 3) i t).symm

@[simp] theorem digits_ofDigits (x : Fin k → ZMod 3) : digits k (ofDigits k x) = x := by
  rw [← index_val, digits_eq, Equiv.symm_apply_apply]

theorem ofDigits_digits {i : ℕ} (h : i < 3 ^ k) : ofDigits k (digits k i) = i := by
  rw [digits_eq ⟨i, h⟩, ← index_val, Equiv.apply_symm_apply]

theorem ofDigits_injective : Function.Injective (ofDigits k) :=
  Function.LeftInverse.injective digits_ofDigits

theorem digitAdd_lt (i j : ℕ) : digitAdd k i j < 3 ^ k := ofDigits_lt _

theorem digitAdd_ofDigits (x y : Fin k → ZMod 3) : digitAdd k (ofDigits k x) (ofDigits k y) = ofDigits k (x + y) := by
  simp [digitAdd]

theorem sum_range {M : Type*} [AddCommMonoid M] (F : ℕ → M) :
    ∑ i ∈ Finset.range (3 ^ k), F i = ∑ x : Fin k → ZMod 3, F (ofDigits k x) := by
  rw [Finset.sum_range, ← Equiv.sum_comp (index k)]
  simp only [index_val]

/-! ### Low and high digits -/

theorem sum_range_mul {M : Type*} [AddCommMonoid M] (F : ℕ → M) (a b : ℕ) :
    ∑ x ∈ Finset.range (a * b), F x = ∑ i ∈ Finset.range a, ∑ j ∈ Finset.range b, F (i * b + j) := by
  induction a with
  | zero => simp
  | succ a ih => rw [Nat.succ_mul, Finset.sum_range_add, ih, Finset.sum_range_succ]

/-! ### The most significant digit -/

theorem ofDigits_snoc (x : Fin k → ZMod 3) (a : ZMod 3) :
    ofDigits (k + 1) (Fin.snoc x a : Fin (k + 1) → ZMod 3) = a.val * 3 ^ k + ofDigits k x := by
  simp [ofDigits, Fin.sum_univ_castSucc, add_comm]

theorem sum_snoc {M : Type*} [AddCommMonoid M] (F : (Fin (k + 1) → ZMod 3) → M) :
    ∑ x, F x = ∑ a : ZMod 3, ∑ x : Fin k → ZMod 3, F (Fin.snoc x a : Fin (k + 1) → ZMod 3) := by
  rw [← (Fin.snocEquiv fun _ => ZMod 3).sum_comp, Fintype.sum_prod_type]
  rfl

theorem dot_snoc (x y : Fin k → ZMod 3) (a b : ZMod 3) :
    (Fin.snoc x a : Fin (k + 1) → ZMod 3) ⬝ᵥ (Fin.snoc y b : Fin (k + 1) → ZMod 3) = x ⬝ᵥ y + a * b := by
  simp [dotProduct, Fin.sum_univ_castSucc]

theorem sum_three {M : Type*} [AddCommMonoid M] (F : ZMod 3 → M) : ∑ a, F a = F 0 + F 1 + F 2 := Fin.sum_univ_three F

theorem val_two : (2 : ZMod 3).val = 2 := rfl

theorem cases_three : ∀ a : ZMod 3, a = 0 ∨ a = 1 ∨ a = 2 := by decide

/-! ### The pairing `ω^(x·y)` -/

open GF4

theorem sum_cubeChar_dot : ∀ (k : ℕ) (y : Fin k → ZMod 3),
    ∑ x, cubeChar (x ⬝ᵥ y) = if y = 0 then 1 else 0
  | 0, y => by simp [Subsingleton.elim y 0]
  | k + 1, y => by
    obtain ⟨y, b, rfl⟩ : ∃ (z : Fin k → ZMod 3) (b : ZMod 3), y = (Fin.snoc z b : Fin (k + 1) → ZMod 3) :=
      ⟨Fin.init y, y (Fin.last k), (Fin.snoc_init_self y).symm⟩
    have hzero : (Fin.snoc y b : Fin (k + 1) → ZMod 3) = 0 ↔ y = 0 ∧ b = 0 := by
      have : (0 : Fin (k + 1) → ZMod 3) = (Fin.snoc (0 : Fin k → ZMod 3) 0 : Fin (k + 1) → ZMod 3) := by
        funext t
        refine Fin.lastCases ?_ (fun t => ?_) t <;> simp
      rw [this]
      exact Fin.snoc_inj
    calc ∑ x, cubeChar (x ⬝ᵥ (Fin.snoc y b : Fin (k + 1) → ZMod 3))
        = ∑ a : ZMod 3, ∑ x : Fin k → ZMod 3, cubeChar (x ⬝ᵥ y) * cubeChar (a * b) := by
          rw [sum_snoc]
          simp only [dot_snoc, cubeChar_add]
      _ = (∑ x : Fin k → ZMod 3, cubeChar (x ⬝ᵥ y)) * ∑ a : ZMod 3, cubeChar (a * b) := by
          simp only [← Finset.sum_mul, ← Finset.mul_sum]
      _ = if (Fin.snoc y b : Fin (k + 1) → ZMod 3) = 0 then 1 else 0 := by
          rw [sum_cubeChar_dot k y, sum_cubeChar_mul, ite_zero_mul_ite_zero, mul_one, if_congr hzero rfl rfl]

/-- The pairing of `Z_3^k` with itself by powers of `ω`. -/
def pairing (k : ℕ) : Pairing (Fin k → ZMod 3) GF4 where
  chi x y := cubeChar (x ⬝ᵥ y)
  chi_zero x := by simp
  chi_add x y z := by rw [dotProduct_add, cubeChar_add]
  chi_symm x y := by rw [dotProduct_comm]
  sum_chi := sum_cubeChar_dot k

@[simp] theorem pairing_chi (x y : Fin k → ZMod 3) : (pairing k).chi x y = cubeChar (x ⬝ᵥ y) := rfl

end Ternary
