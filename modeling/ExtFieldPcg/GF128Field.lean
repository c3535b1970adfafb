import Mathlib.Data.Nat.Size
import ExtFieldPcg.F4Units
import ExtFieldPcg.GF128
import ExtFieldPcg.Lib.Rabin
import ExtFieldPcg.NoiseVals

/-! The modulus of `gf128Mul` is irreducible, so that the blocks are a field: products with nonzero blocks cancel, powers
    are those of `gf128Pow`, and a nonzero polynomial has no more roots than its degree. -/

open Polynomial

namespace ExtFieldPcg
namespace GF128

/-! ### Irreducibility -/

/-- `n` squarings. -/
def squares (n : ℕ) (x : Block) : Block := Nat.rec x (fun _ y => gf128Mul y y) n

theorem toRing_squares (n : ℕ) (x : Block) : toRing (squares n x) = toRing x ^ 2 ^ n := by
  induction n with
  | zero => exact (pow_one _).symm
  | succ n ih =>
    have hstep : squares (n + 1) x = gf128Mul (squares n x) (squares n x) := rfl
    rw [hstep, toRing_gf128Mul, ih, ← pow_two, ← pow_mul, ← pow_succ]

/-- The block of `X`. -/
def root : Block := block 0 2

theorem toRing_root : toRing root = AdjoinRoot.root modulus := by
  have hroot : Word.poly (ZMod 2) root.bits = X := by
    rw [Word.poly_eq_sum (ZMod 2) root.bits {1} (by decide) (by decide), Finset.sum_singleton, pow_one]
  rw [toRing_apply, hroot, AdjoinRoot.mk_X]

theorem toRing_one : toRing (block 0 1) = 1 := by
  have hone : Word.poly (ZMod 2) (block 0 1).bits = 1 := by
    rw [Word.poly_eq_sum (ZMod 2) (block 0 1).bits {0} (by decide) (by decide), Finset.sum_singleton, pow_zero]
  rw [toRing_apply, hone, map_one]

/-- `X^(2^64)`. -/
def halfway : Block := block 0x61651fea6b5832b9 0x44e598a795a299f6

theorem squares_root : squares 64 root = halfway := by decide +kernel

theorem squares_halfway : squares 64 halfway = root := by decide +kernel

theorem halfway_inverse : gf128Mul (halfway + root) (block 0x9e4af928ddbc838a 0x41a8cafd2c95b018) = block 0 1 := by
  decide +kernel

theorem toRing_halfway : toRing halfway = AdjoinRoot.root modulus ^ 2 ^ 64 := by
  rw [← squares_root, toRing_squares, toRing_root]

theorem irreducible_modulus : Irreducible modulus := by
  have hdegree : modulus.natDegree = 2 ^ (6 + 1) := natDegree_eq_of_degree_eq_some (Word.degree_modulus (by decide))
  have hfix : AdjoinRoot.root modulus ^ 2 ^ 128 = AdjoinRoot.root modulus := by
    have h := toRing_squares 64 halfway
    rwa [squares_halfway, toRing_halfway, toRing_root, ← pow_mul, ← pow_add, eq_comm] at h
  have hunit := congrArg toRing halfway_inverse
  rw [toRing_gf128Mul, ← Block.sub_eq_add, map_sub, toRing_halfway, toRing_root, toRing_one] at hunit
  exact Rabin.irreducible_of_root (e := 6) (Nat.card_zmod 2) Nat.prime_two hdegree hfix hunit

instance : Fact (Irreducible modulus) := ⟨irreducible_modulus⟩

end GF128

/-! ### Blocks as a field -/

theorem gf128Mul_eq_zero_iff {x y : Block} : gf128Mul x y = 0 ↔ x = 0 ∨ y = 0 := by
  rw [← GF128.toRing_injective.eq_iff, GF128.toRing_gf128Mul, map_zero, mul_eq_zero, map_eq_zero_iff GF128.toRing GF128.toRing_injective,
    map_eq_zero_iff GF128.toRing GF128.toRing_injective]

/-- Blocks divide: by every nonzero block, in one way. -/
theorem existsUnique_gf128Mul_eq {x : Block} (hx : x ≠ 0) (z : Block) : ∃! y, gf128Mul x y = z := by
  have hinj : Function.Injective (gf128Mul x) := by
    intro y y' h
    have hsub : gf128Mul x (y + y') = 0 := by
      rw [gf128Mul_add, h]
      exact Block.add_self _
    exact Block.add_eq_zero_iff.mp ((gf128Mul_eq_zero_iff.mp hsub).resolve_left hx)
  obtain ⟨y, hy⟩ := Finite.surjective_of_injective hinj z
  exact ⟨y, hy, fun y' hy' => hinj (hy'.trans hy.symm)⟩

theorem existsUnique_gf128Mul_eq_two : ∃! y, gf128Mul (block 0 2) y = block 0 1 :=
  existsUnique_gf128Mul_eq (by decide) _

/-- `gf128Pow` squares and multiplies its way to the power; only the zeroth power of zero is not one. -/
theorem toRing_gf128Pow {x : Block} {i : ℕ} (h : x ≠ 0 ∨ i ≠ 0) : GF128.toRing (gf128Pow x i) = GF128.toRing x ^ i := by
  have hzero : block 0 0 = 0 := rfl
  rw [gf128Pow, hzero]
  split
  next hx => rw [hx, map_zero, zero_pow (h.resolve_left (not_not.mpr hx))]
  next =>
    have hrun := Loop.run_induct (n := Nat.size i) (s := (block 0 1, x))
      (f := fun k st => (if i.testBit k then gf128Mul st.1 st.2 else st.1, gf128Mul st.2 st.2))
      (fun k st => GF128.toRing st.1 = GF128.toRing x ^ (i % 2 ^ k) ∧ GF128.toRing st.2 = GF128.toRing x ^ 2 ^ k)
      ⟨by rw [GF128.toRing_one, pow_zero, Nat.mod_one, pow_zero], by rw [pow_zero, pow_one]⟩ ?_
    · rw [hrun.1, Nat.mod_eq_of_lt (Nat.lt_size_self i)]
    · rintro k - st ⟨hs, hpow⟩
      refine ⟨?_, by rw [GF128.toRing_gf128Mul, hpow, ← pow_add, pow_succ, mul_two]⟩
      cases hbit : i.testBit k
      · rw [Nat.mod_pow_succ, ← Nat.toNat_testBit, hbit]
        simpa using hs
      · rw [Nat.mod_pow_succ, ← Nat.toNat_testBit, hbit]
        simp [GF128.toRing_gf128Mul, hs, hpow, pow_add]

/-- A polynomial without constant term whose coefficients are not all zero has few roots among the blocks. -/
theorem exists_finset_roots {n : ℕ} {e : ℕ → AdjoinRoot GF128.modulus} (hne : ∃ i < n, e i ≠ 0) :
    ∃ S : Finset Block, S.card ≤ n ∧
      ∀ x, ∑ i ∈ Finset.range n, GF128.toRing x ^ (i + 1) * e i = 0 → x ∈ S := by
  classical
  let p : (AdjoinRoot GF128.modulus)[X] := ∑ i ∈ Finset.range n, C (e i) * X ^ (i + 1)
  have hp : p ≠ 0 := by
    obtain ⟨i, hi, hei⟩ := hne
    have hcoeff : p.coeff (i + 1) = e i := by
      simp [p, finsetSum_coeff, coeff_X_pow, hi]
    exact fun h => hei (by rw [← hcoeff, h, coeff_zero])
  have hdegree : p.natDegree ≤ n := natDegree_sum_le_of_forall_le _ _ fun i hi =>
    (natDegree_C_mul_X_pow_le _ _).trans (Finset.mem_range.mp hi)
  refine ⟨p.roots.toFinset.preimage GF128.toRing GF128.toRing_injective.injOn, ?_, fun x hx => ?_⟩
  · calc (p.roots.toFinset.preimage GF128.toRing GF128.toRing_injective.injOn).card
        ≤ p.roots.toFinset.card := Finset.card_le_card_of_injOn GF128.toRing
          (fun x hx => Finset.mem_preimage.mp hx) GF128.toRing_injective.injOn
      _ ≤ Multiset.card p.roots := Multiset.toFinset_card_le _
      _ ≤ p.natDegree := card_roots' p
      _ ≤ n := hdegree
  · rw [Finset.mem_preimage, Multiset.mem_toFinset, mem_roots hp, IsRoot.def, eval_finsetSum, ← hx]
    exact Finset.sum_congr rfl fun i _ => by rw [eval_mul, eval_C, eval_pow, eval_X, mul_comm]

end ExtFieldPcg
