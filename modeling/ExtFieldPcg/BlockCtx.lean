import ExtFieldPcg.GF128
import ExtFieldPcg.NoisyVole
import ExtFieldPcg.PprfSpec
import ExtFieldPcg.VoleCorrelation

/-! The contexts on blocks as the noisy VOLE and the punctured PRF use them: with powers of two, and with bytes. -/

open Buffer

namespace ExtFieldPcg

/-! ### Powers of two -/

namespace Block

/-- `powerOfTwo(ret, power)`: bit `power` of a zero block is set. -/
def powerOfTwo (power : ℕ) : Block := ⟨BitVec.twoPow 128 power⟩

theorem bit_powerOfTwo (power : ℕ) {i : ℕ} (h : i < 128) : (powerOfTwo power).bit i = decide (i = power) := by
  rw [powerOfTwo, bit, BitVec.getLsbD_twoPow, Bool.eq_iff_iff, Bool.and_eq_true, decide_eq_true_iff, decide_eq_true_iff,
    decide_eq_true_iff]
  omega

/-- The part of a block that one of its bits stands for. -/
theorem bit_part (x : Block) (k : ℕ) {i : ℕ} (h : i < 128) :
    (if x.bit k then powerOfTwo k else 0).bit i = (decide (i = k) && x.bit i) := by
  by_cases hik : i = k
  · subst hik
    cases hx : x.bit i
    · simp
    · simp [bit_powerOfTwo i h]
  · rw [decide_eq_false hik, Bool.false_and]
    split
    · rw [bit_powerOfTwo k h, decide_eq_false hik]
    · exact bit_zero i

theorem bit_sum_parts (x : Block) (n : ℕ) {i : ℕ} (h : i < 128) :
    (∑ k ∈ Finset.range n, if x.bit k then powerOfTwo k else 0).bit i = (decide (i < n) && x.bit i) := by
  induction n with
  | zero => simp
  | succ n ih =>
    rw [Finset.sum_range_succ, bit_add, ih, bit_part x n h]
    rcases lt_trichotomy i n with hlt | rfl | hlt
    · simp [hlt, hlt.ne, hlt.trans (Nat.lt_succ_self n)]
    · simp
    · simp [hlt.not_gt, hlt.ne', hlt.not_ge]

/-- A block is the sum of the powers of two in it. -/
theorem sum_powerOfTwo (x : Block) : (∑ k ∈ Finset.range 128, if x.bit k then powerOfTwo k else 0) = x :=
  ext_bit fun i hi => by rw [bit_sum_parts x 128 hi, decide_eq_true hi, Bool.true_and]

end Block

/-! ### Contexts -/

/-- The contexts on blocks that are algebras over their bits. -/
structure BitCtx (ctx : CoeffCtx Block) : Prop extends XorCtx ctx where
  mul_comm : ∀ x y, ctx.mul x y = ctx.mul y x
  bitSize : ctx.bitSize = 128
  binaryDecomposition : ∀ x i, ctx.binaryDecomposition x i = x.bit i

theorem coeffCtxGF128_bit : BitCtx coeffCtxGF128 := ⟨coeffCtxGF128_xor, gf128Mul_comm, rfl, fun _ _ => rfl⟩

theorem coeffCtxGF128F4_bit : BitCtx coeffCtxGF128F4 := ⟨coeffCtxGF128F4_xor, f4Mul_comm, rfl, fun _ _ => rfl⟩

namespace CoeffCtx

def noisy (ctx : CoeffCtx Block) : NoisyCtx Block := { ctx with powerOfTwo := Block.powerOfTwo }

def pprf (ctx : CoeffCtx Block) : PprfCtx Block :=
  { ctx with byteSize := 16, toBytes := Block.toBytes, ofBytes := Block.ofBytes }

end CoeffCtx

variable {ctx : CoeffCtx Block}

theorem XorCtx.pprf_exact (X : XorCtx ctx) : ctx.pprf.Exact id :=
  ⟨X.zero, X.plus, fun x y => (X.minus x y).trans (Block.sub_eq_add x y).symm, fun _ _ => Block.ofBytes_eq⟩

/-- The product with `delta` is the sum of the products with its bits. -/
theorem BitCtx.noisy_exact (B : BitCtx ctx) : NoisyVole.Exact ctx.noisy (id : Block → Block) := by
  refine ⟨B.zero, B.plus, fun x y => (B.minus x y).trans (Block.sub_eq_add x y).symm, fun c delta => ?_⟩
  have hsum : ctx.mul (∑ i ∈ Finset.range 128, if delta.bit i then Block.powerOfTwo i else 0) c =
      ∑ i ∈ Finset.range 128, ctx.mul (if delta.bit i then Block.powerOfTwo i else 0) c :=
    map_sum (AddMonoidHom.mk' (ctx.mul · c) fun x y => B.add_mul x y c) _ _
  rw [Block.sum_powerOfTwo] at hsum
  refine (B.mul_comm c delta).trans (hsum.trans ?_)
  show _ = ∑ i ∈ Finset.range ctx.bitSize, if ctx.binaryDecomposition delta i then ctx.mul (Block.powerOfTwo i) c else 0
  rw [B.bitSize]
  refine Finset.sum_congr rfl fun i _ => ?_
  rw [B.binaryDecomposition]
  split
  · rfl
  · exact B.toXorCtx.zero_mul c

end ExtFieldPcg
