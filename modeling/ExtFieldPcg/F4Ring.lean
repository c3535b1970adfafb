import ExtFieldPcg.F4

/-! Blocks as elements of `GF(4)[X] / (X^64 + α(X³ + X) + 1)`: the multiplication of `F4.h` is the product
    of that ring, so it is bilinear over GF(4), commutative and associative with unit `block(0, 1)`. -/

open Polynomial

namespace ExtFieldPcg

/-! ### The polynomial of a pair of words -/

/-- The polynomial `p + α·q` of an odd word `p` and an even word `q`. -/
noncomputable def lanePoly {w : ℕ} (p q : BitVec w) : GF4[X] :=
  Word.poly GF4 p + C GF4.alpha * Word.poly GF4 q

theorem coeff_lanePoly {w : ℕ} (p q : BitVec w) (n : ℕ) : (lanePoly p q).coeff n = ⟨p.getLsbD n, q.getLsbD n⟩ := by
  rw [lanePoly, coeff_add, coeff_C_mul, Word.coeff_poly, Word.coeff_poly]
  cases p.getLsbD n <;> cases q.getLsbD n <;> rfl

theorem lanePoly_xor {w : ℕ} (p q p' q' : BitVec w) :
    lanePoly (p ^^^ p') (q ^^^ q') = lanePoly p q + lanePoly p' q' := by
  simp only [lanePoly, Word.poly_xor]
  ring

theorem degree_lanePoly_lt {w : ℕ} (p q : BitVec w) : (lanePoly p q).degree < w := by
  refine (degree_lt_iff_coeff_zero _ _).mpr fun m hm => ?_
  rw [coeff_lanePoly, BitVec.getLsbD_of_ge p m hm, BitVec.getLsbD_of_ge q m hm]
  rfl

theorem lanePoly_bits (odd even : Block) :
    lanePoly odd.bits even.bits = lanePoly odd.lo64 even.lo64 + lanePoly odd.hi64 even.hi64 * X ^ 64 := by
  simp only [lanePoly, Block.poly_bits]
  ring

/-! ### The modulus -/

theorem poly_mod_lo64 : Word.poly GF4 mod.lo64 = 1 := by
  rw [Word.poly_eq_sum GF4 mod.lo64 {0} (by decide) (by decide), Finset.sum_singleton, pow_zero]

theorem poly_mod_hi64 : Word.poly GF4 mod.hi64 = X ^ 3 + X := by
  rw [Word.poly_eq_sum GF4 mod.hi64 {3, 1} (by decide) (by decide), Finset.sum_pair (by decide), pow_one]

/-- `X^64 + α(X³ + X) + 1`. -/
noncomputable def modulus : GF4[X] := X ^ 64 + lanePoly mod.lo64 mod.hi64

theorem modulus_eq : modulus = X ^ 64 + (1 + C GF4.alpha * (X ^ 3 + X)) := by
  rw [modulus, lanePoly, poly_mod_lo64, poly_mod_hi64]

theorem monic_modulus : modulus.Monic := monic_X_pow_add (degree_lanePoly_lt _ _)

theorem degree_modulus : modulus.degree = (64 : ℕ) := by
  have hlt : (lanePoly mod.lo64 mod.hi64).degree < (X ^ 64 : GF4[X]).degree := by
    rw [degree_X_pow]
    exact degree_lanePoly_lt _ _
  rw [modulus, degree_add_eq_left_of_degree_lt hlt, degree_X_pow]

/-! ### The ring -/

/-- The ring that `F4_mul` multiplies in. -/
abbrev F4Ring := AdjoinRoot modulus

/-- The polynomial of a block, lane `k` as the coefficient of `X^k`. -/
noncomputable def toPoly (x : Block) : GF4[X] := lanePoly (oddBitExtraction x) (evenBitExtraction x)

/-- Bit `2i` is the coefficient of `X^i`, bit `2i + 1` that of `α·X^i`. -/
theorem toPoly_eq_sum (x : Block) : toPoly x = ∑ i ∈ Finset.range 64,
    (C (Word.bit GF4 (x.bit (2 * i))) + C GF4.alpha * C (Word.bit GF4 (x.bit (2 * i + 1)))) * X ^ i := by
  rw [toPoly, lanePoly, Word.poly, Word.poly, Finset.mul_sum, ← Finset.sum_add_distrib]
  refine Finset.sum_congr rfl fun i hi => ?_
  have hi := Finset.mem_range.mp hi
  rw [getLsbD_oddBitExtraction x hi, getLsbD_evenBitExtraction x hi]
  ring

theorem coeff_toPoly (x : Block) {k : ℕ} (h : k < 64) : (toPoly x).coeff k = x.lane k := by
  rw [toPoly, coeff_lanePoly, getLsbD_oddBitExtraction _ h, getLsbD_evenBitExtraction _ h, Block.lane]

theorem degree_toPoly_lt (x : Block) : (toPoly x).degree < (64 : ℕ) := degree_lanePoly_lt _ _

theorem coeff_toPoly_of_le (x : Block) {k : ℕ} (h : 64 ≤ k) : (toPoly x).coeff k = 0 :=
  (degree_lt_iff_coeff_zero _ _).mp (degree_toPoly_lt x) k h

theorem toPoly_eq {x : Block} {p : GF4[X]} (hlo : ∀ k < 64, x.lane k = p.coeff k)
    (hhi : ∀ k, 64 ≤ k → p.coeff k = 0) : toPoly x = p := by
  ext1 k
  by_cases hk : k < 64
  · rw [coeff_toPoly x hk, hlo k hk]
  · rw [coeff_toPoly_of_le x (by omega), hhi k (by omega)]

theorem toPoly_add (x y : Block) : toPoly (x + y) = toPoly x + toPoly y := by
  refine toPoly_eq (fun k hk => ?_) fun k hk => ?_
  · rw [coeff_add, coeff_toPoly x hk, coeff_toPoly y hk, Block.lane_add]
  · rw [coeff_add, coeff_toPoly_of_le x hk, coeff_toPoly_of_le y hk, add_zero]

theorem toPoly_smul (c : GF4) (x : Block) : toPoly (c • x) = c • toPoly x := by
  refine toPoly_eq (fun k hk => ?_) fun k hk => ?_
  · rw [coeff_smul, coeff_toPoly x hk, Block.lane_smul c x hk, smul_eq_mul]
  · rw [coeff_smul, coeff_toPoly_of_le x hk, smul_zero]

theorem toPoly_injective : Function.Injective toPoly := fun x y h =>
  Block.ext_lane fun k hk => by rw [← coeff_toPoly x hk, ← coeff_toPoly y hk, h]

noncomputable def toRing : Block →ₗ[GF4] F4Ring where
  toFun x := AdjoinRoot.mk modulus (toPoly x)
  map_add' x y := by rw [toPoly_add, map_add]
  map_smul' c x := by rw [toPoly_smul, AdjoinRoot.smul_mk, RingHom.id_apply]

theorem toRing_apply (x : Block) : toRing x = AdjoinRoot.mk modulus (toPoly x) := rfl

/-- Blocks are the reduced representatives, so they are determined by their class. -/
theorem toRing_injective : Function.Injective toRing := by
  intro x y h
  apply toPoly_injective
  have hmod := AdjoinRoot.mk_eq_mk.mp h
  have hdeg : (toPoly x - toPoly y).degree < modulus.degree := by
    rw [degree_modulus]
    exact (degree_sub_le _ _).trans_lt (max_lt (degree_toPoly_lt x) (degree_toPoly_lt y))
  exact sub_eq_zero.mp (eq_zero_of_dvd_of_degree_lt hmod hdeg)

theorem toPoly_eq_mod {x : Block} {p : GF4[X]} (h : toRing x = AdjoinRoot.mk modulus p) : toPoly x = p %ₘ modulus :=
  Word.eq_modByMonic monic_modulus (by rw [degree_modulus]; exact degree_toPoly_lt x) h

/-! ### Reduction -/

theorem mk_X_pow : AdjoinRoot.mk modulus (X ^ 64) = AdjoinRoot.mk modulus (lanePoly mod.lo64 mod.hi64) := by
  refine AdjoinRoot.mk_eq_mk.mpr ⟨1, ?_⟩
  rw [mul_one, modulus, CharTwo.sub_eq_add]

/-- The products of `odd` and `even` with `mod` that both halves of `F4_reduce` compute. -/
def fold (odd even : Block) : Block × Block :=
  let t1 := odd.clmulEpi64 mod 0x01
  let t2 := odd.clmulEpi64 mod 0x11
  let t3 := even.clmulEpi64 mod 0x01
  let t4 := even.clmulEpi64 mod 0x11
  (t1 ^^^ t4, t2 ^^^ t3 ^^^ t4)

theorem f4Reduce_eq (odd even : Block) :
    f4Reduce odd even =
      let r := fold odd even
      let s := fold r.1 r.2
      interleave (odd + s.1 + r.1).lo64 (even + s.2 + r.2).lo64 := rfl

theorem lanePoly_clmul (p q p' q' : BitVec 64) :
    lanePoly (Word.clmul p p' ^^^ Word.clmul q q') (Word.clmul p q' ^^^ Word.clmul q p' ^^^ Word.clmul q q') =
      lanePoly p q * lanePoly p' q' := by
  have hα : (C GF4.alpha : GF4[X]) * C GF4.alpha = C GF4.alpha + 1 := by
    rw [← C_mul, ← C_1, ← C_add]
    rfl
  simp only [lanePoly, Word.poly_xor, Word.poly_clmul]
  linear_combination (-(Word.poly GF4 q * Word.poly GF4 q')) * hα

theorem lanePoly_fold (odd even : Block) :
    lanePoly (fold odd even).1.bits (fold odd even).2.bits =
      lanePoly odd.hi64 even.hi64 * lanePoly mod.lo64 mod.hi64 := by
  simp only [fold, Block.bits_xor, Block.clmulEpi64_01, Block.clmulEpi64_11, lanePoly_clmul]

theorem mk_lanePoly_bits (odd even : Block) :
    AdjoinRoot.mk modulus (lanePoly odd.bits even.bits) =
      AdjoinRoot.mk modulus (lanePoly odd.lo64 even.lo64) +
        AdjoinRoot.mk modulus (lanePoly (fold odd even).1.bits (fold odd even).2.bits) := by
  rw [lanePoly_bits, lanePoly_fold, map_add, map_mul, map_mul, mk_X_pow]

theorem getLsbD_mod_lo64 {j : ℕ} (h : 4 ≤ j) : mod.lo64.getLsbD j = false := by
  have hbit : ∀ i < 64, 4 ≤ i → mod.lo64.getLsbD i = false := by decide
  by_cases hj : j < 64
  · exact hbit j hj h
  · exact BitVec.getLsbD_of_ge _ _ (by omega)

theorem getLsbD_mod_hi64 {j : ℕ} (h : 4 ≤ j) : mod.hi64.getLsbD j = false := by
  have hbit : ∀ i < 64, 4 ≤ i → mod.hi64.getLsbD i = false := by decide
  by_cases hj : j < 64
  · exact hbit j hj h
  · exact BitVec.getLsbD_of_ge _ _ (by omega)

/-- Folding words whose high halves stay below `X^m` leaves words below `X^(m + 3)`. -/
theorem bit_fold {odd even : Block} {m i : ℕ} (ho : ∀ j, m ≤ j → odd.hi64.getLsbD j = false)
    (he : ∀ j, m ≤ j → even.hi64.getLsbD j = false) (hi : m + 3 ≤ i) :
    (fold odd even).1.bit i = false ∧ (fold odd even).2.bit i = false := by
  have hmul (p q : BitVec 64) (hp : ∀ j, m ≤ j → p.getLsbD j = false) (hq : ∀ j, 4 ≤ j → q.getLsbD j = false) :
      (Word.clmul p q).getLsbD i = false := Word.getLsbD_clmul_of_lt hp hq (by omega)
  have hlo (p : BitVec 64) (hp : ∀ j, m ≤ j → p.getLsbD j = false) := hmul p _ hp fun _ => getLsbD_mod_lo64
  have hhi (p : BitVec 64) (hp : ∀ j, m ≤ j → p.getLsbD j = false) := hmul p _ hp fun _ => getLsbD_mod_hi64
  simp only [fold, Block.bit, Block.bits_xor, BitVec.getLsbD_xor, Block.clmulEpi64_01, Block.clmulEpi64_11]
  simp only [hlo _ ho, hlo _ he, hhi _ ho, hhi _ he, Bool.xor_false, and_self]

theorem hi64_fold_fold (odd even : Block) :
    (fold (fold odd even).1 (fold odd even).2).1.hi64 = 0#64 ∧
      (fold (fold odd even).1 (fold odd even).2).2.hi64 = 0#64 := by
  have hfirst (j : ℕ) (h : 3 ≤ j) : (fold odd even).1.hi64.getLsbD j = false ∧
      (fold odd even).2.hi64.getLsbD j = false := by
    by_cases hj : j < 64
    · rw [Block.getLsbD_hi64 _ hj, Block.getLsbD_hi64 _ hj]
      exact bit_fold (m := 64) (fun i => BitVec.getLsbD_of_ge _ i) (fun i => BitVec.getLsbD_of_ge _ i) (by omega)
    · exact ⟨BitVec.getLsbD_of_ge _ _ (by omega), BitVec.getLsbD_of_ge _ _ (by omega)⟩
  have hsecond (i : ℕ) (h : 6 ≤ i) := bit_fold (fun j hj => (hfirst j hj).1) (fun j hj => (hfirst j hj).2) h
  constructor
  · refine BitVec.eq_of_getLsbD_eq fun i hi => ?_
    rw [Block.getLsbD_hi64 _ hi, (hsecond _ (by omega)).1, BitVec.getLsbD_zero]
  · refine BitVec.eq_of_getLsbD_eq fun i hi => ?_
    rw [Block.getLsbD_hi64 _ hi, (hsecond _ (by omega)).2, BitVec.getLsbD_zero]

theorem toRing_f4Reduce (odd even : Block) :
    toRing (f4Reduce odd even) = AdjoinRoot.mk modulus (lanePoly odd.bits even.bits) := by
  have hlow : lanePoly (fold (fold odd even).1 (fold odd even).2).1.bits
      (fold (fold odd even).1 (fold odd even).2).2.bits =
      lanePoly (fold (fold odd even).1 (fold odd even).2).1.lo64
        (fold (fold odd even).1 (fold odd even).2).2.lo64 := by
    rw [lanePoly_bits, (hi64_fold_fold odd even).1, (hi64_fold_fold odd even).2]
    simp [lanePoly]
  rw [mk_lanePoly_bits, mk_lanePoly_bits (fold odd even).1, hlow, toRing_apply, toPoly, f4Reduce_eq]
  simp only [oddBitExtraction_interleave, evenBitExtraction_interleave, Block.lo64_add, lanePoly_xor, map_add]
  ring

theorem toRing_f4Mul (x y : Block) : toRing (f4Mul x y) = toRing x * toRing y := by
  rw [f4Mul, toRing_f4Reduce, toRing_apply, toRing_apply, ← map_mul, toPoly, toPoly, ← lanePoly_clmul]
  simp only [Block.bits_xor, Block.clmulEpi64_00, Block.clmulEpi64_01, Block.clmulEpi64_10,
    Block.clmulEpi64_11, Block.lo64_block, Block.hi64_block]

/-! ### Algebra of `F4_mul` -/

theorem f4Mul_comm (x y : Block) : f4Mul x y = f4Mul y x := by
  apply toRing_injective
  rw [toRing_f4Mul, toRing_f4Mul, mul_comm]

theorem f4Mul_assoc (x y z : Block) : f4Mul (f4Mul x y) z = f4Mul x (f4Mul y z) := by
  apply toRing_injective
  simp only [toRing_f4Mul, mul_assoc]

theorem f4Mul_add (x y z : Block) : f4Mul x (y + z) = f4Mul x y + f4Mul x z := by
  apply toRing_injective
  simp only [toRing_f4Mul, map_add, mul_add]

theorem add_f4Mul (x y z : Block) : f4Mul (x + y) z = f4Mul x z + f4Mul y z := by
  rw [f4Mul_comm, f4Mul_add, f4Mul_comm z x, f4Mul_comm z y]

theorem f4Mul_smul (c : GF4) (x y : Block) : f4Mul x (c • y) = c • f4Mul x y := by
  apply toRing_injective
  rw [toRing_f4Mul, map_smul, map_smul, toRing_f4Mul, mul_smul_comm]

theorem smul_f4Mul (c : GF4) (x y : Block) : f4Mul (c • x) y = c • f4Mul x y := by
  rw [f4Mul_comm, f4Mul_smul, f4Mul_comm y x]

/-- `F4_mul` as a bilinear map over GF(4). -/
def f4MulHom : Block →ₗ[GF4] Block →ₗ[GF4] Block :=
  LinearMap.mk₂ GF4 f4Mul add_f4Mul smul_f4Mul f4Mul_add f4Mul_smul

@[simp] theorem f4MulHom_apply (x y : Block) : f4MulHom x y = f4Mul x y := rfl

/-- The unit of `F4_mul`. -/
instance : One Block := ⟨block 0 1⟩

@[simp] theorem toRing_one : toRing 1 = 1 := by
  have hlane : ∀ k < 64, (1 : Block).lane k = if k = 0 then 1 else 0 := by decide
  have hpoly : toPoly 1 = 1 := by
    refine toPoly_eq (fun k hk => ?_) fun k hk => ?_
    · rw [hlane k hk, coeff_one]
    · rw [coeff_one, if_neg (by omega)]
  rw [toRing_apply, hpoly, map_one]

theorem f4Mul_one (x : Block) : f4Mul x 1 = x := by
  apply toRing_injective
  rw [toRing_f4Mul, toRing_one, mul_one]

/-! ### Exactness -/

theorem toPoly_f4Mul (x y : Block) : toPoly (f4Mul x y) = (toPoly x * toPoly y) %ₘ modulus :=
  toPoly_eq_mod (by rw [toRing_f4Mul, map_mul, ← toRing_apply, ← toRing_apply])

theorem toPoly_f4Reduce (odd even : Block) : toPoly (f4Reduce odd even) = lanePoly odd.bits even.bits %ₘ modulus :=
  toPoly_eq_mod (toRing_f4Reduce odd even)

/-- `F4_mul` and `F4_reduce` compute remainders modulo `X^64 + αX³ + αX + 1`; what `F4_reduce` folds the second
    time leaves nothing above `X^64` behind. -/
theorem f4Mul_exact :
    GF4.alpha ^ 2 = GF4.alpha + 1 ∧ modulus = X ^ 64 + C GF4.alpha * X ^ 3 + C GF4.alpha * X + 1 ∧
    (∀ x, toPoly x = ∑ i ∈ Finset.range 64,
      (C (Word.bit GF4 (x.bit (2 * i))) + C GF4.alpha * C (Word.bit GF4 (x.bit (2 * i + 1)))) * X ^ i) ∧
    (∀ x y, toPoly (f4Mul x y) = (toPoly x * toPoly y) %ₘ modulus) ∧
    (∀ odd even : Block, toPoly (f4Reduce odd even) =
      (Word.poly GF4 odd.bits + C GF4.alpha * Word.poly GF4 even.bits) %ₘ modulus) ∧
    (∀ odd even : Block,
      let reduced := fold odd even
      let final := fold reduced.1 reduced.2
      f4Reduce odd even = interleave (odd + final.1 + reduced.1).lo64 (even + final.2 + reduced.2).lo64 ∧
        final.1.hi64 = 0#64 ∧ final.2.hi64 = 0#64) ∧
    (∀ x y, f4Mul x y = f4Mul y x) ∧ (∀ x y z, f4Mul (f4Mul x y) z = f4Mul x (f4Mul y z)) ∧
    (∀ x y z, f4Mul x (y ^^^ z) = f4Mul x y ^^^ f4Mul x z) ∧ ∀ x, f4Mul x (block 0 1) = x := by
  refine ⟨by decide, ?_, toPoly_eq_sum, toPoly_f4Mul, fun odd even => ?_, fun odd even => ?_, f4Mul_comm,
    f4Mul_assoc, f4Mul_add, f4Mul_one⟩
  · rw [modulus_eq]
    ring
  · rw [toPoly_f4Reduce, lanePoly]
  · exact ⟨f4Reduce_eq odd even, hi64_fold_fold odd even⟩

end ExtFieldPcg
