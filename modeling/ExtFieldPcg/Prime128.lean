import Mathlib.Algebra.BigOperators.ModEq
import Mathlib.Data.ZMod.Basic
import ExtFieldPcg.NoisyVole

/-! `CoeffCtxIntegerPrime_128` of `Coeff128.h`: arithmetic modulo the prime `2^127 - 1` on 128-bit words that need
    not be reduced, and the noisy VOLE in it. -/

open Buffer

namespace ExtFieldPcg
namespace Prime128

/-! ### The code -/

def PR : BitVec 128 := (1#128 <<< 127) - 1#128

def plus (lhs rhs : BitVec 128) : BitVec 128 := (lhs % PR + rhs % PR) % PR

/-- The reduction of one operand of `minus`; it leaves `PR` itself. -/
def reduceAbove (x : BitVec 128) : BitVec 128 := if x > PR then x % PR else x

def minus (lhs rhs : BitVec 128) : BitVec 128 := (reduceAbove lhs + PR - reduceAbove rhs) % PR

def prod (lhs rhs : BitVec 128) : BitVec 256 := (lhs % PR).setWidth 256 * (rhs % PR).setWidth 256

/-- `(uint128_t)(prod & PR)`. -/
def low (prod : BitVec 256) : BitVec 128 := (prod &&& PR.setWidth 256).setWidth 128

/-- `(uint128_t)(prod >> 127)`. -/
def high (prod : BitVec 256) : BitVec 128 := (prod >>> 127).setWidth 128

def mul (lhs rhs : BitVec 128) : BitVec 128 :=
  let ret := low (prod lhs rhs) + high (prod lhs rhs)
  if ret ≥ PR then ret - PR else ret

def eq (lhs rhs : BitVec 128) : Bool := lhs % PR == rhs % PR

/-! ### Residues -/

def p : ℕ := 2 ^ 127 - 1

theorem toNat_PR : PR.toNat = p := by decide

theorem toNat_mod (x : BitVec 128) : (x % PR).toNat = x.toNat % p := by rw [BitVec.toNat_umod, toNat_PR]

theorem mod_lt (n : ℕ) : n % p < p := Nat.mod_lt n (by decide)

theorem fold_mod (n : ℕ) : (n % 2 ^ 127 + n / 2 ^ 127) % p = n % p := by
  have hone : 2 ^ 127 % p = 1 % p := by decide
  have hfold : 2 ^ 127 * (n / 2 ^ 127) + n % 2 ^ 127 ≡ 1 * (n / 2 ^ 127) + n % 2 ^ 127 [MOD p] :=
    (Nat.ModEq.mul_right _ hone).add_right _
  rw [Nat.div_add_mod, one_mul, Nat.add_comm] at hfold
  exact hfold.symm

theorem toNat_plus (x y : BitVec 128) : (x % PR + y % PR).toNat = x.toNat % p + y.toNat % p ∧
    (plus x y).toNat = (x.toNat + y.toNat) % p := by
  have hx := mod_lt x.toNat
  have hy := mod_lt y.toNat
  have hsum : (x % PR + y % PR).toNat = x.toNat % p + y.toNat % p := by
    rw [BitVec.toNat_add, toNat_mod, toNat_mod, Nat.mod_eq_of_lt]
    unfold p at hx hy ⊢
    omega
  exact ⟨hsum, by rw [plus, toNat_mod, hsum, ← Nat.add_mod]⟩

theorem toNat_reduceAbove (x : BitVec 128) :
    (reduceAbove x).toNat ≤ p ∧ (reduceAbove x).toNat % p = x.toNat % p := by
  rw [reduceAbove]
  split
  · rw [toNat_mod, Nat.mod_mod]
    exact ⟨(mod_lt _).le, rfl⟩
  next h =>
    rw [gt_iff_lt, BitVec.lt_def, toNat_PR] at h
    exact ⟨Nat.not_lt.mp h, rfl⟩

theorem toNat_minus (x y : BitVec 128) :
    (reduceAbove x + PR).toNat = (reduceAbove x).toNat + p ∧
    (reduceAbove x + PR - reduceAbove y).toNat = (reduceAbove x).toNat + p - (reduceAbove y).toNat ∧
    ((minus x y).toNat : ℤ) = ((x.toNat : ℤ) - y.toNat) % p := by
  obtain ⟨hx, hxmod⟩ := toNat_reduceAbove x
  obtain ⟨hy, hymod⟩ := toNat_reduceAbove y
  have hsum : (reduceAbove x + PR).toNat = (reduceAbove x).toNat + p := by
    rw [BitVec.toNat_add, toNat_PR, Nat.mod_eq_of_lt]
    unfold p at hx ⊢
    omega
  have hsub : (reduceAbove x + PR - reduceAbove y).toNat = (reduceAbove x).toNat + p - (reduceAbove y).toNat := by
    rw [BitVec.toNat_sub_of_le, hsum]
    rw [BitVec.le_def, hsum]
    omega
  refine ⟨hsum, hsub, ?_⟩
  rw [minus, toNat_mod, hsub, Int.natCast_mod, Int.ofNat_sub (by omega), Nat.cast_add, add_sub_right_comm,
    Int.add_emod_right]
  exact Int.ModEq.sub (by exact_mod_cast hxmod) (by exact_mod_cast hymod)

theorem toNat_prod (x y : BitVec 128) : (prod x y).toNat = (x.toNat % p) * (y.toNat % p) := by
  have hmul : (x.toNat % p) * (y.toNat % p) ≤ p * p := Nat.mul_le_mul (mod_lt _).le (mod_lt _).le
  have hx := mod_lt x.toNat
  have hy := mod_lt y.toNat
  rw [prod, BitVec.toNat_mul, BitVec.toNat_setWidth, BitVec.toNat_setWidth, toNat_mod, toNat_mod,
    Nat.mod_eq_of_lt (hx.trans (by decide)), Nat.mod_eq_of_lt (hy.trans (by decide)),
    Nat.mod_eq_of_lt (hmul.trans_lt (by decide))]

theorem toNat_low (v : BitVec 256) : (v &&& PR.setWidth 256).toNat = v.toNat % 2 ^ 127 ∧
    (low v).toNat = v.toNat % 2 ^ 127 := by
  have hlow : (v &&& PR.setWidth 256).toNat = v.toNat % 2 ^ 127 := by
    rw [BitVec.toNat_and, BitVec.toNat_setWidth, toNat_PR]
    exact Nat.and_two_pow_sub_one_eq_mod _ 127
  have hlt : v.toNat % 2 ^ 127 < 2 ^ 128 := (Nat.mod_lt _ (by decide)).trans (by decide)
  exact ⟨hlow, by rw [low, BitVec.toNat_setWidth, hlow, Nat.mod_eq_of_lt hlt]⟩

theorem toNat_high {v : BitVec 256} (h : v.toNat < 2 ^ 254) : (v >>> 127).toNat = v.toNat / 2 ^ 127 ∧
    (high v).toNat = v.toNat / 2 ^ 127 := by
  have hhigh : (v >>> 127).toNat = v.toNat / 2 ^ 127 := by rw [BitVec.toNat_ushiftRight, Nat.shiftRight_eq_div_pow]
  exact ⟨hhigh, by rw [high, BitVec.toNat_setWidth, hhigh, Nat.mod_eq_of_lt (by omega)]⟩

/-- The product of two reduced operands folds once to a word below twice the prime. -/
theorem toNat_mul (x y : BitVec 128) :
    (prod x y).toNat = (x.toNat % p) * (y.toNat % p) ∧
    (low (prod x y)).toNat = (prod x y).toNat % 2 ^ 127 ∧ (high (prod x y)).toNat = (prod x y).toNat / 2 ^ 127 ∧
    (low (prod x y) + high (prod x y)).toNat = (low (prod x y)).toNat + (high (prod x y)).toNat ∧
    (mul x y).toNat = x.toNat * y.toNat % p := by
  have hprod := toNat_prod x y
  have hbound : (prod x y).toNat ≤ (p - 1) * (p - 1) := by
    rw [hprod]
    exact Nat.mul_le_mul (Nat.le_sub_one_of_lt (mod_lt _)) (Nat.le_sub_one_of_lt (mod_lt _))
  have hlow := (toNat_low (prod x y)).2
  have hhigh := (toNat_high (hbound.trans_lt (by decide))).2
  have hmod : (prod x y).toNat % p = x.toNat * y.toNat % p := by rw [hprod, ← Nat.mul_mod]
  have hsum : (low (prod x y) + high (prod x y)).toNat = (low (prod x y)).toNat + (high (prod x y)).toNat := by
    rw [BitVec.toNat_add, Nat.mod_eq_of_lt]
    unfold p at hbound
    omega
  have hlt : (low (prod x y)).toNat + (high (prod x y)).toNat < 2 * p := by
    unfold p at hbound ⊢
    omega
  have hfold := fold_mod (prod x y).toNat
  rw [← hlow, ← hhigh, hmod] at hfold
  refine ⟨hprod, hlow, hhigh, hsum, ?_⟩
  rw [mul]
  split
  next h =>
    rw [ge_iff_le, BitVec.le_def, hsum, toNat_PR] at h
    rw [BitVec.toNat_sub_of_le (by rwa [BitVec.le_def, hsum, toNat_PR]), hsum, toNat_PR, ← hfold,
      Nat.mod_eq_sub_mod h, Nat.mod_eq_of_lt (by omega)]
  next h =>
    rw [ge_iff_le, BitVec.le_def, hsum, toNat_PR] at h
    rw [hsum, ← hfold, Nat.mod_eq_of_lt (by omega)]

theorem eq_iff (x y : BitVec 128) : eq x y = true ↔ x.toNat ≡ y.toNat [MOD p] := by
  rw [eq, beq_iff_eq, ← BitVec.toNat_inj, toNat_mod, toNat_mod, Nat.ModEq]

/-- On all words the operations give the reduced representative of the exact result, and no intermediate word wraps
    around or loses a bit. -/
theorem prime128_exact (x y : BitVec 128) :
    ((plus x y).toNat = (x.toNat + y.toNat) % p ∧ ((minus x y).toNat : ℤ) = ((x.toNat : ℤ) - y.toNat) % p ∧
      (mul x y).toNat = x.toNat * y.toNat % p ∧ (eq x y = true ↔ x.toNat ≡ y.toNat [MOD p])) ∧
    ((plus x y).toNat < p ∧ (minus x y).toNat < p ∧ (mul x y).toNat < p) ∧
    (x % PR + y % PR).toNat = (x % PR).toNat + (y % PR).toNat ∧
    (reduceAbove x + PR).toNat = (reduceAbove x).toNat + PR.toNat ∧
    reduceAbove y ≤ reduceAbove x + PR ∧
    (prod x y).toNat = (x % PR).toNat * (y % PR).toNat ∧
    (low (prod x y)).toNat = (prod x y &&& PR.setWidth 256).toNat ∧
    (high (prod x y)).toNat = (prod x y >>> 127).toNat ∧
    (low (prod x y) + high (prod x y)).toNat = (low (prod x y)).toNat + (high (prod x y)).toNat := by
  obtain ⟨hplus, hplus'⟩ := toNat_plus x y
  obtain ⟨hsum, -, hminus⟩ := toNat_minus x y
  obtain ⟨hprod, hlow, hhigh, hfold, hmul⟩ := toNat_mul x y
  have hrange : (mul x y).toNat < p := hmul ▸ mod_lt _
  refine ⟨⟨hplus', hminus, hmul, eq_iff x y⟩, ⟨hplus' ▸ mod_lt _, ?_, hrange⟩, ?_, ?_, ?_, ?_, ?_, ?_, hfold⟩
  · rw [minus, toNat_mod]
    exact mod_lt _
  · rw [hplus, toNat_mod, toNat_mod]
  · rw [hsum, toNat_PR]
  · rw [BitVec.le_def, hsum]
    have hy := (toNat_reduceAbove y).1
    omega
  · rw [hprod, toNat_mod, toNat_mod]
  · rw [hlow, (toNat_low _).1]
  · rw [hhigh, BitVec.toNat_ushiftRight, Nat.shiftRight_eq_div_pow]

/-! ### The noisy VOLE -/

/-- `CoeffCtxIntegerPrime_128` on `uint128_t`. -/
def ctx : NoisyCtx (BitVec 128) where
  plus := plus
  minus := minus
  mul := mul
  eq := eq
  isField := false
  bitSize := 128
  binaryDecomposition x i := x.getLsbD i
  fromBlock b := b.bits
  zero := 0
  one := 1
  powerOfTwo i := (1#128 <<< i) % PR

theorem mod_two_pow_eq_sum (n m : ℕ) :
    n % 2 ^ m = ∑ i ∈ Finset.range m, 2 ^ i * (n.testBit i).toNat := by
  induction m with
  | zero => simp [Nat.mod_one]
  | succ m ih => rw [Finset.sum_range_succ, ← ih, Nat.mod_pow_succ, Nat.toNat_testBit]

theorem toNat_eq_sum (x : BitVec 128) : x.toNat = ∑ i ∈ Finset.range 128, 2 ^ i * (x.getLsbD i).toNat := by
  rw [← Nat.mod_eq_of_lt x.isLt, mod_two_pow_eq_sum]
  rfl

theorem toNat_powerOfTwo {i : ℕ} (hi : i < 128) : (ctx.powerOfTwo i).toNat = 2 ^ i % p := by
  have hshift : (1#128 <<< i).toNat = 2 ^ i := by
    rw [BitVec.toNat_shiftLeft, Nat.shiftLeft_eq, Nat.mod_eq_of_lt]
    · exact Nat.one_mul _
    · rw [show (1#128).toNat = 1 from rfl, Nat.one_mul]
      exact Nat.pow_lt_pow_right (by omega) hi
  exact (toNat_mod _).trans (by rw [hshift])

/-- The powers of two of the context recompose a word modulo the prime, also where the top one wraps around. -/
theorem sum_powerOfTwo (delta : BitVec 128) :
    ∑ i ∈ Finset.range 128, (ctx.powerOfTwo i).toNat * (ctx.binaryDecomposition delta i).toNat ≡ delta.toNat [MOD p] := by
  rw [toNat_eq_sum delta]
  refine Nat.ModEq.sum fun i hi => Nat.ModEq.mul_right _ ?_
  rw [toNat_powerOfTwo (Finset.mem_range.mp hi)]
  exact Nat.mod_modEq _ _

def residue (x : BitVec 128) : ZMod p := x.toNat

theorem residue_mul (x y : BitVec 128) : residue (mul x y) = residue x * residue y := by
  rw [residue, (toNat_mul x y).2.2.2.2, ZMod.natCast_mod, Nat.cast_mul]
  rfl

theorem residue_exact : NoisyVole.Exact ctx residue where
  zero := Nat.cast_zero
  plus x y := by
    show residue (plus x y) = _
    rw [residue, (toNat_plus x y).2, ZMod.natCast_mod, Nat.cast_add]
    rfl
  minus x y := by
    show residue (minus x y) = _
    rw [residue, ← Int.cast_natCast, (toNat_minus x y).2.2, ZMod.intCast_mod, Int.cast_sub, Int.cast_natCast,
      Int.cast_natCast]
    rfl
  decompose c delta := by
    have hsum : (delta.toNat : ZMod p) = ∑ i ∈ Finset.range 128,
        residue (ctx.powerOfTwo i) * ((ctx.binaryDecomposition delta i).toNat : ZMod p) := by
      rw [← (ZMod.natCast_eq_natCast_iff _ _ p).mpr (sum_powerOfTwo delta), Nat.cast_sum]
      exact Finset.sum_congr rfl fun i _ => Nat.cast_mul _ _
    show residue (mul c delta) = _
    rw [residue_mul, mul_comm, residue, hsum, Finset.sum_mul]
    refine Finset.sum_congr rfl fun i _ => ?_
    show _ = if ctx.binaryDecomposition delta i then residue (mul (ctx.powerOfTwo i) c) else 0
    rw [residue_mul]
    cases ctx.binaryDecomposition delta i <;> simp

theorem eq_iff_residue (x y : BitVec 128) : eq x y = true ↔ residue x = residue y :=
  (eq_iff x y).trans (ZMod.natCast_eq_natCast_iff _ _ p).symm

/-- The shares of the noisy VOLE fit together for every `delta`, reduced or not; without an entry it is refused. -/
theorem noisyVole_prime128 (prng : Block → ℕ → Block) (ot : ℕ → Block × Block) (c : Array (BitVec 128))
    (delta : BitVec 128) :
    (∑ i ∈ Finset.range 128, (ctx.powerOfTwo i).toNat * (ctx.binaryDecomposition delta i).toNat ≡ delta.toNat [MOD p]) ∧
    ((c.size = 0 ∧ NoisyVole.run ctx prng ot c delta = .error .rteLoc) ∨
      ∃ a b, NoisyVole.run ctx prng ot c delta = .ok (a, b) ∧ a.size = c.size ∧ b.size = c.size ∧
        ∀ j < c.size, ctx.eq (read a j) (ctx.plus (read b j) (ctx.mul (read c j) delta)) = true) := by
  refine ⟨sum_powerOfTwo delta, ?_⟩
  rcases Nat.eq_zero_or_pos c.size with hc | hc
  · exact .inl ⟨hc, NoisyVole.run_empty ot hc delta⟩
  · obtain ⟨a, b, hrun, ha, hb, hval⟩ := NoisyVole.run_spec residue_exact prng ot hc delta
    refine .inr ⟨a, b, hrun, ha, hb, fun j hj => (eq_iff_residue _ _).mpr ?_⟩
    exact (hval j hj).trans (residue_exact.plus _ _).symm

end Prime128
end ExtFieldPcg
