import ExtFieldPcg.CoeffCtx

/-! Blocks as elements of `GF(2)[X] / (X^128 + X^7 + X^2 + X + 1)`, and `gf128Mul` as the product of that ring. -/

open Polynomial

namespace ExtFieldPcg
namespace GF128

/-- The low word of the `modulus` of `mm_gf128Reduce`. -/
def mod : BitVec 64 := 0b10000111

theorem poly_mod : Word.poly (ZMod 2) mod = X ^ 7 + X ^ 2 + X + 1 := by
  rw [Word.poly_eq_sum (ZMod 2) mod {7, 2, 1, 0} (by decide) (by decide)]
  simp
  ring

/-- `X^128 + X^7 + X^2 + X + 1`. -/
noncomputable abbrev modulus : (ZMod 2)[X] := Word.modulus (ZMod 2) 128 mod

theorem modulus_eq : Word.modulus (ZMod 2) 128 mod = X ^ 128 + (X ^ 7 + X ^ 2 + X + 1) :=
  Word.modulus_eq poly_mod

/-- The class of a block, bit `i` as the coefficient of `X^i`. -/
noncomputable def toRing : Block →+ AdjoinRoot modulus where
  toFun x := AdjoinRoot.mk modulus (Word.poly (ZMod 2) x.bits)
  map_zero' := by
    rw [Block.bits_zero]
    exact (congrArg _ (Word.poly_zero _)).trans (map_zero _)
  map_add' x y := by rw [Block.bits_add, Word.poly_xor, map_add]

theorem toRing_apply (x : Block) : toRing x = AdjoinRoot.mk modulus (Word.poly (ZMod 2) x.bits) := rfl

theorem toRing_injective : Function.Injective toRing := fun _ _ h =>
  Block.ext_bits (Word.mk_poly_injective (by decide) le_rfl h)

/-! ### The product -/

theorem poly_slliSi128 (x : Block) : Word.poly (ZMod 2) (x.slliSi128 8).bits = Word.poly (ZMod 2) x.lo64 * X ^ 64 := by
  have hlo : (x.slliSi128 8).lo64 = 0#64 := BitVec.eq_of_getLsbD_eq fun i hi => by
    rw [Block.getLsbD_lo64 _ hi, Block.bit, Block.slliSi128, BitVec.getLsbD_shiftLeft]
    simp [hi]
  have hhi : (x.slliSi128 8).hi64 = x.lo64 := BitVec.eq_of_getLsbD_eq fun i hi => by
    rw [Block.getLsbD_hi64 _ hi, Block.getLsbD_lo64 _ hi, Block.bit, Block.slliSi128, BitVec.getLsbD_shiftLeft]
    simp [Block.bit, (by omega : 64 + i < 128)]
  rw [Block.poly_bits, hlo, hhi, Word.poly_zero, zero_add]

theorem lo64_srliSi128 (x : Block) : (x.srliSi128 8).lo64 = x.hi64 := BitVec.eq_of_getLsbD_eq fun i hi => by
  rw [Block.getLsbD_lo64 _ hi, Block.getLsbD_hi64 _ hi, Block.bit, Block.srliSi128, BitVec.getLsbD_ushiftRight]
  rfl

theorem hi64_srliSi128 (x : Block) : (x.srliSi128 8).hi64 = 0#64 := BitVec.eq_of_getLsbD_eq fun i hi => by
  rw [Block.getLsbD_hi64 _ hi, Block.bit, Block.srliSi128, BitVec.getLsbD_ushiftRight,
    BitVec.getLsbD_of_ge _ _ (by omega), BitVec.getLsbD_zero]

theorem poly_srliSi128 (x : Block) : Word.poly (ZMod 2) (x.srliSi128 8).bits = Word.poly (ZMod 2) x.hi64 := by
  rw [Block.poly_bits, hi64_srliSi128, lo64_srliSi128, Word.poly_zero, zero_mul, add_zero]

theorem poly_mmGf128Mul (x y : Block) :
    Word.poly (ZMod 2) (mmGf128Mul x y).1.bits + Word.poly (ZMod 2) (mmGf128Mul x y).2.bits * X ^ 128 =
      Word.poly (ZMod 2) x.bits * Word.poly (ZMod 2) y.bits := by
  have hcross := Block.poly_bits (ZMod 2) (x.clmulEpi64 y 0x10 ^^^ x.clmulEpi64 y 0x01)
  simp only [Block.bits_xor, Word.poly_xor, Block.clmulEpi64_01, Block.clmulEpi64_10, Word.poly_clmul] at hcross
  simp only [mmGf128Mul, Block.bits_xor, Word.poly_xor, Block.clmulEpi64_00, Block.clmulEpi64_11, poly_slliSi128,
    poly_srliSi128, Word.poly_clmul]
  rw [Block.poly_bits (ZMod 2) x, Block.poly_bits (ZMod 2) y]
  linear_combination (-X ^ 64) * hcross

theorem toRing_mmGf128Reduce (low high : Block) :
    toRing (mmGf128Reduce low high) =
      AdjoinRoot.mk modulus (Word.poly (ZMod 2) low.bits + Word.poly (ZMod 2) high.bits * X ^ 128) := by
  have hmod : (block 0 0b10000111).lo64 = mod := Block.lo64_block ..
  have htmp := Block.poly_bits (ZMod 2) (high.clmulEpi64 (block 0 0b10000111) 0x01)
  simp only [Block.clmulEpi64_01, Word.poly_clmul, hmod] at htmp
  have hred : Word.poly (ZMod 2) (mmGf128Reduce low high).bits = Word.poly (ZMod 2) low.bits +
      Word.poly (ZMod 2) (high.clmulEpi64 (block 0 0b10000111) 0x01).lo64 * X ^ 64 +
      (Word.poly (ZMod 2) high.lo64 + Word.poly (ZMod 2) (high.clmulEpi64 (block 0 0b10000111) 0x01).hi64) *
        Word.poly (ZMod 2) mod := by
    simp only [mmGf128Reduce, Block.bits_xor, Word.poly_xor, Block.clmulEpi64_00, Word.poly_clmul, poly_slliSi128, hmod]
    rw [Block.xor_eq_add, Block.lo64_add, lo64_srliSi128, Word.poly_xor]
  have hX : AdjoinRoot.mk modulus (X ^ 128) = AdjoinRoot.mk modulus (Word.poly (ZMod 2) mod) := Word.mk_X_pow mod
  rw [toRing_apply, hred, Block.poly_bits (ZMod 2) high]
  have hfold := congrArg (AdjoinRoot.mk modulus) htmp
  simp only [map_add, map_mul, hX] at hfold ⊢
  have hX64 : AdjoinRoot.mk modulus (X ^ 64) * AdjoinRoot.mk modulus (X ^ 64) =
      AdjoinRoot.mk modulus (Word.poly (ZMod 2) mod) := by
    rw [← map_mul, ← pow_add, hX]
  linear_combination (-AdjoinRoot.mk modulus (X ^ 64)) * hfold -
    AdjoinRoot.mk modulus (Word.poly (ZMod 2) (high.clmulEpi64 (block 0 0b10000111) 0x01).hi64) * hX64

theorem toRing_gf128Mul (x y : Block) : toRing (gf128Mul x y) = toRing x * toRing y := by
  rw [gf128Mul, toRing_mmGf128Reduce, poly_mmGf128Mul, map_mul, toRing_apply, toRing_apply]

end GF128

/-! ### Algebra of `gf128Mul` -/

theorem gf128Mul_comm (x y : Block) : gf128Mul x y = gf128Mul y x := by
  apply GF128.toRing_injective
  rw [GF128.toRing_gf128Mul, GF128.toRing_gf128Mul, mul_comm]

theorem gf128Mul_left_comm (x y z : Block) : gf128Mul x (gf128Mul y z) = gf128Mul y (gf128Mul x z) := by
  apply GF128.toRing_injective
  simp only [GF128.toRing_gf128Mul]
  ring

theorem gf128Mul_add (x y z : Block) : gf128Mul x (y + z) = gf128Mul x y + gf128Mul x z := by
  rw [gf128Mul_comm, add_gf128Mul, gf128Mul_comm y, gf128Mul_comm z]

theorem gf128Mul_one (x : Block) : gf128Mul x (block 0 1) = x := by
  have hone : Word.poly (ZMod 2) (block 0 1).bits = 1 := by
    rw [Word.poly_eq_sum (ZMod 2) (block 0 1).bits {0} (by decide) (by decide), Finset.sum_singleton, pow_zero]
  apply GF128.toRing_injective
  rw [GF128.toRing_gf128Mul, GF128.toRing_apply (block 0 1), hone, map_one, mul_one]

/-! ### `mulConst` -/

theorem gf128Mul_assoc (x y z : Block) : gf128Mul (gf128Mul x y) z = gf128Mul x (gf128Mul y z) := by
  apply GF128.toRing_injective
  simp only [GF128.toRing_gf128Mul, mul_assoc]

/-- The products that `mulConst` leaves out are those with a high word that is zero. -/
theorem mulConstGF128_eq (x : Block) : mulConstGF128 x = gf128Mul x (block 0 4234123421) := by
  have hy : (block 0 4234123421).hi64 = 0#64 := Block.hi64_block ..
  have h10 : x.clmulEpi64 (block 0 4234123421) 0x10 = 0 := Block.ext_bits <| by
    rw [Block.clmulEpi64_10, hy, Word.clmul_zero]
    rfl
  have h11 : x.clmulEpi64 (block 0 4234123421) 0x11 = 0 := Block.ext_bits <| by
    rw [Block.clmulEpi64_11, hy, Word.clmul_zero]
    rfl
  have htmp (z m : Block) : (z.srliSi128 8).clmulEpi64 m 0x01 = 0 := Block.ext_bits <| by
    rw [Block.clmulEpi64_01, GF128.hi64_srliSi128, Word.zero_clmul]
    rfl
  have hslli : (0 : Block).slliSi128 8 = 0 := by decide
  have hsrli : (0 : Block).srliSi128 8 = 0 := by decide
  simp only [mulConstGF128, gf128Mul, mmGf128Mul, mmGf128Reduce, h10, h11, Block.xor_eq_add, zero_add, htmp, hslli,
    hsrli, add_zero]

theorem mulConstGF128_injective : Function.Injective mulConstGF128 := by
  have hinv : gf128Mul (block 0 4234123421) (block 0x855357aceac90dfc 0x4042e431c60b2cb6) = block 0 1 := by
    decide +kernel
  have hleft : Function.LeftInverse (gf128Mul · (block 0x855357aceac90dfc 0x4042e431c60b2cb6)) mulConstGF128 := by
    intro x
    simp only [mulConstGF128_eq, gf128Mul_assoc, hinv, gf128Mul_one]
  exact hleft.injective

end ExtFieldPcg
