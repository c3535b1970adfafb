import Mathlib.Algebra.Module.Defs
import Mathlib.Data.Finite.Prod
import ExtFieldPcg.Lib.Clmul
import ExtFieldPcg.Lib.GF4

/-! 128-bit blocks and the vector instructions the code uses on them (`cryptoTools/Common/block.h`). -/

namespace ExtFieldPcg

/-- A 128-bit block. --/
structure Block where
  bits : BitVec 128
deriving DecidableEq, Repr

/-- `block(x1, x0)`: the high and the low 64-bit word. -/
def block (x1 x0 : BitVec 64) : Block := ⟨x1 ++ x0⟩

namespace Block

instance : XorOp Block := ⟨fun x y => ⟨x.bits ^^^ y.bits⟩⟩
instance : AndOp Block := ⟨fun x y => ⟨x.bits &&& y.bits⟩⟩
instance : OrOp Block := ⟨fun x y => ⟨x.bits ||| y.bits⟩⟩

/-- `ZeroBlock`. -/
instance : Zero Block := ⟨⟨0⟩⟩

instance : Inhabited Block := ⟨0⟩

@[ext] theorem ext_bits {x y : Block} (h : x.bits = y.bits) : x = y := by
  cases x
  cases y
  exact congrArg Block.mk h

/-- Blocks add by XOR; sums of blocks below are XORs. -/
instance : Add Block := ⟨fun x y => x ^^^ y⟩
instance : Neg Block := ⟨id⟩

instance : AddCommGroup Block where
  add_assoc x y z := ext_bits (BitVec.xor_assoc _ _ _)
  zero_add x := ext_bits BitVec.zero_xor
  add_zero x := ext_bits BitVec.xor_zero
  add_comm x y := ext_bits (BitVec.xor_comm _ _)
  neg_add_cancel x := ext_bits BitVec.xor_self
  nsmul := nsmulRec
  zsmul := zsmulRec

instance : Finite Block := Finite.of_injective (fun x : Block => x.bits.toFin) fun _ _ h => ext_bits (BitVec.toFin_inj.mp h)

theorem xor_eq_add (x y : Block) : x ^^^ y = x + y := rfl

@[simp] theorem bits_add (x y : Block) : (x + y).bits = x.bits ^^^ y.bits := rfl
@[simp] theorem bits_xor (x y : Block) : (x ^^^ y).bits = x.bits ^^^ y.bits := rfl
@[simp] theorem bits_and (x y : Block) : (x &&& y).bits = x.bits &&& y.bits := rfl
@[simp] theorem bits_or (x y : Block) : (x ||| y).bits = x.bits ||| y.bits := rfl
@[simp] theorem bits_zero : (0 : Block).bits = 0 := rfl

@[simp] theorem add_self (x : Block) : x + x = 0 := ext_bits BitVec.xor_self

theorem add_add_cancel_right (x y : Block) : x + y + y = x := by rw [add_assoc, add_self, add_zero]

theorem sub_eq_add (x y : Block) : x - y = x + y := sub_eq_add_neg x y

theorem add_eq_zero_iff {x y : Block} : x + y = 0 ↔ x = y := add_eq_zero_iff_eq_neg

/-! ### Words and lanes -/

/-- `_mm_extract_epi64(x, 0)`. -/
def lo64 (x : Block) : BitVec 64 := x.bits.extractLsb' 0 64

/-- `_mm_extract_epi64(x, 1)`. -/
def hi64 (x : Block) : BitVec 64 := x.bits.extractLsb' 64 64

/-- `setBytes(x, v)` and `block::allSame<u8>(v)`: every byte is `v`. -/
def allSame (v : BitVec 8) : Block := ⟨Word.ofBits 128 fun i => v.getLsbD (i % 8)⟩

/-- `x >> s`, which is `_mm_srli_epi64`: both lanes shift. -/
def srliEpi64 (x : Block) (s : ℕ) : Block := block (x.hi64 >>> s) (x.lo64 >>> s)

/-- `x << s`, which is `_mm_slli_epi64`: both lanes shift. -/
def slliEpi64 (x : Block) (s : ℕ) : Block := block (x.hi64 <<< s) (x.lo64 <<< s)

/-- `_mm_slli_si128(x, s)`: the whole block shifts by `s` bytes. -/
def slliSi128 (x : Block) (s : ℕ) : Block := ⟨x.bits <<< (8 * s)⟩

/-- `_mm_srli_si128(x, s)`: the whole block shifts by `s` bytes. -/
def srliSi128 (x : Block) (s : ℕ) : Block := ⟨x.bits >>> (8 * s)⟩

/-- `_mm_add_epi64`: both lanes add. -/
def addEpi64 (x y : Block) : Block := block (x.hi64 + y.hi64) (x.lo64 + y.lo64)

/-- `_mm_sub_epi64`: both lanes subtract. -/
def subEpi64 (x y : Block) : Block := block (x.hi64 - y.hi64) (x.lo64 - y.lo64)

/-- `_mm_unpacklo_epi64`: the low words of `x` and `y`. -/
def unpackloEpi64 (x y : Block) : Block := block y.lo64 x.lo64

/-- `_mm_clmulepi64_si128(x, y, imm)`: bit 0 of `imm` selects the word of `x`, bit 4 the word of `y`. -/
def clmulEpi64 (x y : Block) (imm : BitVec 8) : Block :=
  ⟨Word.clmul (if imm.getLsbD 0 then x.hi64 else x.lo64) (if imm.getLsbD 4 then y.hi64 else y.lo64)⟩

@[simp] theorem clmulEpi64_00 (x y : Block) : (x.clmulEpi64 y 0x00).bits = Word.clmul x.lo64 y.lo64 := by
  simp [clmulEpi64]

@[simp] theorem clmulEpi64_01 (x y : Block) : (x.clmulEpi64 y 0x01).bits = Word.clmul x.hi64 y.lo64 := by
  simp [clmulEpi64]

@[simp] theorem clmulEpi64_10 (x y : Block) : (x.clmulEpi64 y 0x10).bits = Word.clmul x.lo64 y.hi64 := by
  simp [clmulEpi64]

@[simp] theorem clmulEpi64_11 (x y : Block) : (x.clmulEpi64 y 0x11).bits = Word.clmul x.hi64 y.hi64 := by
  simp [clmulEpi64]

@[simp] theorem lo64_add (x y : Block) : (x + y).lo64 = x.lo64 ^^^ y.lo64 := BitVec.extractLsb'_xor ..

@[simp] theorem hi64_add (x y : Block) : (x + y).hi64 = x.hi64 ^^^ y.hi64 := BitVec.extractLsb'_xor ..

def bit (x : Block) (i : ℕ) : Bool := x.bits.getLsbD i

theorem ext_bit {x y : Block} (h : ∀ i < 128, x.bit i = y.bit i) : x = y :=
  ext_bits (BitVec.eq_of_getLsbD_eq h)

@[simp] theorem bit_add (x y : Block) (i : ℕ) : (x + y).bit i = (x.bit i ^^ y.bit i) := by simp [bit]
@[simp] theorem bit_and (x y : Block) (i : ℕ) : (x &&& y).bit i = (x.bit i && y.bit i) := by simp [bit]
@[simp] theorem bit_or (x y : Block) (i : ℕ) : (x ||| y).bit i = (x.bit i || y.bit i) := by simp [bit]
@[simp] theorem bit_zero (i : ℕ) : (0 : Block).bit i = false := by simp [bit]

theorem bit_block (a b : BitVec 64) {i : ℕ} :
    (block a b).bit i = if i < 64 then b.getLsbD i else a.getLsbD (i - 64) := by
  show (a ++ b).getLsbD i = _
  rw [BitVec.getLsbD_append]

@[simp] theorem getLsbD_lo64 (x : Block) {i : ℕ} (h : i < 64) : x.lo64.getLsbD i = x.bit i := by
  simp [lo64, bit, h]

@[simp] theorem getLsbD_hi64 (x : Block) {i : ℕ} (h : i < 64) : x.hi64.getLsbD i = x.bit (64 + i) := by
  simp [hi64, bit, h]

@[simp] theorem lo64_block (a b : BitVec 64) : (block a b).lo64 = b := by
  refine BitVec.eq_of_getLsbD_eq fun i hi => ?_
  rw [getLsbD_lo64 _ hi, bit_block, if_pos hi]

@[simp] theorem hi64_block (a b : BitVec 64) : (block a b).hi64 = a := by
  refine BitVec.eq_of_getLsbD_eq fun i hi => ?_
  rw [getLsbD_hi64 _ hi, bit_block, if_neg (by omega), Nat.add_sub_cancel_left]

theorem block_hi64_lo64 (x : Block) : block x.hi64 x.lo64 = x := by
  refine ext_bit fun i hi => ?_
  rw [bit_block]
  split
  · rw [getLsbD_lo64 _ (by omega)]
  · rw [getLsbD_hi64 _ (by omega), Nat.add_sub_cancel' (by omega)]

theorem addEpi64_zero (x : Block) : x.addEpi64 0 = x := by
  have hlo : (0 : Block).lo64 = 0#64 := rfl
  have hhi : (0 : Block).hi64 = 0#64 := rfl
  rw [addEpi64, hlo, hhi, BitVec.add_zero, BitVec.add_zero, block_hi64_lo64]

@[simp] theorem bit_allSame (v : BitVec 8) {i : ℕ} (h : i < 128) :
    (allSame v).bit i = v.getLsbD (i % 8) := by
  rw [bit, allSame, Word.getLsbD_ofBits _ h]

theorem add_and (x y z : Block) : (x + y) &&& z = (x &&& z) + (y &&& z) := by
  refine ext_bit fun i _ => ?_
  simp only [bit_and, bit_add]
  exact Bool.and_xor_distrib_right ..

theorem and_add (x y z : Block) : x &&& (y + z) = (x &&& y) + (x &&& z) := by
  refine ext_bit fun i _ => ?_
  simp only [bit_and, bit_add]
  exact Bool.and_xor_distrib_left ..

theorem zero_and (x : Block) : 0 &&& x = 0 := ext_bit fun i _ => by simp

theorem allSame_and (x : Block) : allSame 0xFF &&& x = x := by
  have hbyte : ∀ i < 8, (0xFF : BitVec 8).getLsbD i = true := by decide
  refine ext_bit fun i hi => ?_
  rw [bit_and, bit_allSame _ hi, hbyte _ (by omega), Bool.true_and]

theorem and_allSame (x : Block) : x &&& allSame 0xFF = x := by
  refine Eq.trans (ext_bit fun i _ => ?_) (allSame_and x)
  rw [bit_and, bit_and, Bool.and_comm]

theorem bit_srliEpi64_one (x : Block) {i : ℕ} (h : i < 128) (h' : i % 64 ≠ 63) :
    (x.srliEpi64 1).bit i = x.bit (i + 1) := by
  rw [srliEpi64, bit_block]
  split
  · rw [BitVec.getLsbD_ushiftRight, getLsbD_lo64 _ (by omega), add_comm]
  · rw [BitVec.getLsbD_ushiftRight, getLsbD_hi64 _ (by omega)]
    exact congrArg _ (by omega)

theorem bit_slliEpi64_one (x : Block) {i : ℕ} (h : i < 128) (h' : i % 64 ≠ 0) :
    (x.slliEpi64 1).bit i = x.bit (i - 1) := by
  rw [slliEpi64, bit_block]
  split
  · have hi : ¬ i < 1 := by omega
    rw [BitVec.getLsbD_shiftLeft, getLsbD_lo64 _ (by omega), decide_eq_false hi, decide_eq_true ‹_›]
    rfl
  · have hi : ¬ i - 64 < 1 := by omega
    have hlt : i - 64 < 64 := by omega
    have hsub : 64 + (i - 64 - 1) = i - 1 := by omega
    rw [BitVec.getLsbD_shiftLeft, getLsbD_hi64 _ (by omega), decide_eq_false hi, decide_eq_true hlt, hsub]
    rfl

theorem bit_srliEpi64_one_top (x : Block) {i : ℕ} (h : i % 64 = 63) : (x.srliEpi64 1).bit i = false := by
  rw [srliEpi64, bit_block]
  split <;> rw [BitVec.getLsbD_ushiftRight, BitVec.getLsbD_of_ge _ _ (by omega)]

theorem bit_slliEpi64_one_bottom (x : Block) {i : ℕ} (h : i < 128) (h' : i % 64 = 0) :
    (x.slliEpi64 1).bit i = false := by
  rw [slliEpi64, bit_block]
  split
  · rw [BitVec.getLsbD_shiftLeft]
    simp [(by omega : i = 0)]
  · rw [BitVec.getLsbD_shiftLeft]
    simp [(by omega : i = 64)]

/-! ### Bytes -/

/-- Byte `i` of the memory of a block. -/
def toBytes (x : Block) (i : ℕ) : BitVec 8 := x.bits.extractLsb' (8 * i) 8

def ofBytes (bytes : ℕ → BitVec 8) : Block := ⟨Word.ofBits 128 fun i => (bytes (i / 8)).getLsbD (i % 8)⟩

theorem ofBytes_eq {x : Block} {bytes : ℕ → BitVec 8} (h : ∀ i < 16, bytes i = x.toBytes i) : ofBytes bytes = x := by
  refine ext_bit fun i hi => ?_
  have hmod : i % 8 < 8 := Nat.mod_lt _ (by decide)
  rw [bit, ofBytes, Word.getLsbD_ofBits _ hi, h _ (by omega), toBytes, BitVec.getLsbD_extractLsb', decide_eq_true hmod,
    Bool.true_and, Nat.div_add_mod, bit]

/-! ### Polynomials -/

section Poly
open Polynomial
variable (R : Type) [CommRing R]

theorem poly_bits (x : Block) : Word.poly R x.bits = Word.poly R x.lo64 + Word.poly R x.hi64 * X ^ 64 := by
  ext1 n
  rw [coeff_add, coeff_mul_X_pow', Word.coeff_poly, Word.coeff_poly]
  by_cases h : n < 64
  · rw [if_neg (by omega), add_zero, getLsbD_lo64 _ h, bit]
  · rw [if_pos (by omega), BitVec.getLsbD_of_ge x.lo64 n (by omega), Word.coeff_poly]
    by_cases hn : n < 128
    · rw [getLsbD_hi64 _ (by omega), bit, (by omega : 64 + (n - 64) = n)]
      exact (zero_add _).symm
    · rw [BitVec.getLsbD_of_ge x.bits n (by omega), BitVec.getLsbD_of_ge x.hi64 _ (by omega)]
      exact (zero_add _).symm

end Poly

end Block
end ExtFieldPcg
