import ExtFieldPcg.VoleMalicious

/-! The products of blocks as `block.h` and `block.cpp` compute them where the processor has no carry-less product. They
    are those that it would compute, and so is the malicious check. -/

open Polynomial

namespace ExtFieldPcg

/-! ### The code -/

def Block.ccClmulEpi64 (a b : Block) (imm8 : BitVec 8) : Block :=
  let x := if imm8.getLsbD 0 then a.hi64 else a.lo64
  let y := if imm8.getLsbD 4 then b.hi64 else b.lo64
  let result0 := Loop.run 63 (fun k r =>
    let j := k + 1
    let bit := (y >>> j) &&& 1#64
    (r.1 ^^^ (x <<< j) * bit, r.2 ^^^ (x >>> (64 - j)) * bit)) (x * (y &&& 1#64), 0#64)
  block result0.2 result0.1

/-- A round of `cc_gf128Mul` for a bit of `y`, on the words of `shifted` and `result0`. -/
def ccGf128Round (ya : BitVec 64) (j : ℕ) (st : (BitVec 64 × BitVec 64) × (BitVec 64 × BitVec 64)) :
    (BitVec 64 × BitVec 64) × (BitVec 64 × BitVec 64) :=
  let shifted := st.1
  let result0 := if ya &&& (1#64 <<< j) ≠ 0 then (st.2.1 ^^^ shifted.1, st.2.2 ^^^ shifted.2) else st.2
  let high := (shifted.2 <<< 1) ||| (shifted.1 >>> 63)
  let low := shifted.1 <<< 1
  (if shifted.2 &&& (1#64 <<< 63) ≠ 0 then (low ^^^ GF128.mod, high) else (low, high), result0)

/-- `cc_gf128Mul`, which reduces as it goes. -/
def ccGf128Mul (x y : Block) : Block × Block :=
  let st := Loop.run 2 (fun i => Loop.run 64 (ccGf128Round (if i = 0 then y.lo64 else y.hi64)))
    ((x.lo64, x.hi64), (0, 0))
  (block st.2.2 st.2.1, 0)

/-- `shiftMod(s)`, two blocks. -/
def shiftMod (s : ℕ) : Except Err (BitVec 256) :=
  if 127 < s then .error .rteLoc
  else .ok ([0, 1, 2, 7, 128].foldl (fun mm b => mm ||| BitVec.twoPow 256 (b + s)) 0)

/-- `cc_gf128Reduce`, from the highest bit of both blocks down. -/
def ccGf128Reduce (x0 x1 : Block) : Except Err Block := do
  let x ← Loop.tryRun 128 (fun k x =>
    if x.getLsbD (255 - k) then do
      let mod ← shiftMod (127 - k)
      .ok (x ^^^ mod)
    else .ok x) (x1.bits ++ x0.bits)
  .ok ⟨x.extractLsb' 0 128⟩

def ccGf128 (x y : Block) : Except Err Block := ccGf128Reduce (ccGf128Mul x y).1 (ccGf128Mul x y).2

/-- `ferretMalCheck` up to the hash. -/
def ccMalSum (X : Block) (v : AlignedUnVector) : Except Err Block := do
  let st ← Loop.tryRun v.size (fun i st => do
    let xy := ccGf128Mul st.1 (v.get i)
    let xx ← ccGf128 st.1 X
    .ok (xx, st.2.1 ^^^ xy.1, st.2.2 ^^^ xy.2)) (X, (0 : Block), (0 : Block))
  ccGf128Reduce st.2.1 st.2.2

/-! ### The carry-less product -/

theorem and_one_shiftLeft_ne_zero (x : BitVec 64) {j : ℕ} (hj : j < 64) :
    x &&& (1#64 <<< j) ≠ 0 ↔ x.getLsbD j = true := by
  have hne : BitVec.twoPow 64 j ≠ 0#64 := fun h => by
    have hbit := congrArg (·.getLsbD j) h
    simp [hj] at hbit
  rw [← BitVec.twoPow_eq, BitVec.and_twoPow]
  cases x.getLsbD j <;> simp [hne]

theorem shiftRight_and_one (x : BitVec 64) (j : ℕ) : (x >>> j) &&& 1#64 = if x.getLsbD j then 1#64 else 0#64 := by
  have h := BitVec.and_one_eq_setWidth_ofBool_getLsbD (x := x >>> j)
  rw [BitVec.getLsbD_ushiftRight, Nat.add_zero] at h
  refine h.trans ?_
  cases x.getLsbD j <;> rfl

namespace Block

theorem bits_block_shift (x : BitVec 64) {j : ℕ} (hj : j < 64) :
    (block (x >>> (64 - j)) (x <<< j)).bits = x.setWidth 128 <<< j := by
  refine BitVec.eq_of_getLsbD_eq fun i hi => ?_
  have hbit := bit_block (x >>> (64 - j)) (x <<< j) (i := i)
  rw [bit] at hbit
  rw [hbit, BitVec.getLsbD_shiftLeft, BitVec.getLsbD_shiftLeft, BitVec.getLsbD_setWidth, BitVec.getLsbD_ushiftRight]
  split
  next hlow => simp [hlow, hi, (by omega : i - j < 128)]
  next hhigh =>
    have hpos : ¬ i < j := by omega
    have hplace : 64 - j + (i - 64) = i - j := by omega
    simp [hi, hpos, hplace, (by omega : i - j < 128)]

theorem block_xor (a b c d : BitVec 64) : block (a ^^^ c) (b ^^^ d) = block a b ^^^ block c d := by
  refine ext_bit fun i hi => ?_
  rw [xor_eq_add, bit_add, bit_block, bit_block, bit_block]
  split <;> rw [BitVec.getLsbD_xor]

theorem ccClmulEpi64_eq (a b : Block) (imm8 : BitVec 8) : a.ccClmulEpi64 b imm8 = a.clmulEpi64 b imm8 := by
  rw [ccClmulEpi64, clmulEpi64]
  generalize (if imm8.getLsbD 0 then a.hi64 else a.lo64) = x
  generalize (if imm8.getLsbD 4 then b.hi64 else b.lo64) = y
  dsimp only
  have hrun := Loop.run_induct (n := 63) (s := (x * (y &&& 1#64), 0#64)) (f := fun k r =>
      let j := k + 1
      let bit := (y >>> j) &&& 1#64
      (r.1 ^^^ (x <<< j) * bit, r.2 ^^^ (x >>> (64 - j)) * bit))
    (fun k r => (block r.2 r.1).bits = (List.range (k + 1)).foldl
      (fun acc i => if y.getLsbD i then acc ^^^ x.setWidth (64 + 64) <<< i else acc) 0) ?_ ?_
  · exact ext_bits hrun
  · have hone := shiftRight_and_one y 0
    rw [BitVec.ushiftRight_zero] at hone
    rw [hone]
    have hshift := bits_block_shift x (j := 0) (by decide)
    rw [BitVec.ushiftRight_eq_zero (by decide)] at hshift
    show (block 0#64 (x * _)).bits = if y.getLsbD 0 then 0#128 ^^^ x.setWidth 128 <<< 0 else 0#128
    rw [← hshift]
    cases y.getLsbD 0
    · rw [if_neg Bool.false_ne_true, if_neg Bool.false_ne_true, BitVec.mul_zero]
      rfl
    · rw [if_pos rfl, if_pos rfl, BitVec.zero_xor, BitVec.mul_one, BitVec.shiftLeft_zero]
  · intro k hk r ih
    dsimp only
    rw [shiftRight_and_one, List.range_succ, List.foldl_append, ← ih]
    have hshift := bits_block_shift x (by omega : k + 1 < 64)
    rw [List.foldl_cons, List.foldl_nil, ← hshift]
    cases y.getLsbD (k + 1)
    · simp only [Bool.false_eq_true, if_false, BitVec.mul_zero, BitVec.xor_zero]
    · simp only [if_true, BitVec.mul_one, block_xor, bits_xor]

end Block

/-! ### The product -/

namespace GF128

theorem bits_block_shiftLeft_one (s1 s0 : BitVec 64) :
    (block ((s1 <<< 1) ||| (s0 >>> 63)) (s0 <<< 1)).bits = (block s1 s0).bits <<< 1 := by
  refine BitVec.eq_of_getLsbD_eq fun i hi => ?_
  have hbit := Block.bit_block ((s1 <<< 1) ||| (s0 >>> 63)) (s0 <<< 1) (i := i)
  have hbit' := Block.bit_block s1 s0 (i := i - 1)
  rw [Block.bit] at hbit hbit'
  rw [hbit, BitVec.getLsbD_shiftLeft, BitVec.getLsbD_shiftLeft, hbit', BitVec.getLsbD_or, BitVec.getLsbD_shiftLeft,
    BitVec.getLsbD_ushiftRight]
  rcases lt_trichotomy i 64 with h | rfl | h
  · simp [h, hi, (by omega : i - 1 < 64)]
  · simp
  · have hplace : i - 64 - 1 = i - 1 - 64 := by omega
    rw [if_neg h.not_gt, if_neg (by omega : ¬ i - 1 < 64), hplace, BitVec.getLsbD_of_ge s0 (63 + (i - 64)) (by omega)]
    have hzero : decide (i - 64 = 0) = decide (i = 0) := by
      rw [decide_eq_decide]
      omega
    simp [hi, (by omega : i - 64 < 64), hzero]

theorem mk_X_pow_128 : AdjoinRoot.mk modulus (X ^ 128) = toRing (block 0#64 mod) := by
  refine (Word.mk_X_pow mod).trans ?_
  rw [toRing_apply, Block.poly_bits, Block.hi64_block, Block.lo64_block, Word.poly_zero, zero_mul, add_zero]

theorem toRing_shift (x : Block) :
    toRing (if x.bit 127 then ⟨x.bits <<< 1⟩ + block 0#64 mod else ⟨x.bits <<< 1⟩) = toRing x * AdjoinRoot.root modulus := by
  have hshift := congrArg (AdjoinRoot.mk modulus) (Word.poly_shiftLeft_one (ZMod 2) x.bits (by decide))
  rw [map_add, map_mul, map_mul, mk_X_pow_128, AdjoinRoot.mk_X] at hshift
  refine Eq.trans ?_ hshift
  show _ = toRing ⟨x.bits <<< 1⟩ + AdjoinRoot.mk modulus (C (Word.bit (ZMod 2) (x.bit 127))) * toRing (block 0#64 mod)
  cases x.bit 127
  · simp [Word.bit]
  · simp [Word.bit]

/-- After `k` rounds `shifted` is the product with `X^k`, and `result0` that with the first `k` bits of `y`. -/
structure Shifted (x y : Block) (k : ℕ) (st : (BitVec 64 × BitVec 64) × (BitVec 64 × BitVec 64)) : Prop where
  shifted : toRing (block st.1.2 st.1.1) = toRing x * AdjoinRoot.root modulus ^ k
  result : toRing (block st.2.2 st.2.1) = toRing x * AdjoinRoot.mk modulus
    (∑ i ∈ Finset.range k, C (Word.bit (ZMod 2) (y.bit i)) * X ^ i)

theorem Shifted.step {x y : Block} {k : ℕ} {st : (BitVec 64 × BitVec 64) × (BitVec 64 × BitVec 64)} (S : Shifted x y k st)
    {ya : BitVec 64} {j : ℕ} (hj : j < 64) (hbit : ya.getLsbD j = y.bit k) : Shifted x y (k + 1) (ccGf128Round ya j st) := by
  obtain ⟨⟨s0, s1⟩, r0, r1⟩ := st
  obtain ⟨hs, hr⟩ := S
  have htop : (block s1 s0).bit 127 = s1.getLsbD 63 := Block.bit_block s1 s0
  refine ⟨?_, ?_⟩
  · have hshift := toRing_shift (block s1 s0)
    rw [← bits_block_shiftLeft_one, htop] at hshift
    rw [pow_succ, ← mul_assoc, ← hs, ← hshift]
    simp only [ccGf128Round, and_one_shiftLeft_ne_zero s1 (by decide : 63 < 64)]
    cases s1.getLsbD 63
    · rfl
    · refine congrArg toRing ((Block.block_xor _ _ 0#64 mod).symm.trans ?_).symm
      rw [BitVec.xor_zero]
      rfl
  · have hsum : (∑ i ∈ Finset.range (k + 1), C (Word.bit (ZMod 2) (y.bit i)) * X ^ i : (ZMod 2)[X]) =
        ∑ i ∈ Finset.range k, C (Word.bit (ZMod 2) (y.bit i)) * X ^ i + C (Word.bit (ZMod 2) (y.bit k)) * X ^ k :=
      Finset.sum_range_succ ..
    rw [hsum, map_add, mul_add, ← hr, ← hbit]
    simp only [ccGf128Round, and_one_shiftLeft_ne_zero ya hj]
    cases ya.getLsbD j
    · simp [Word.bit]
    · simp only [if_true, Block.block_xor, Block.xor_eq_add, map_add, Word.bit, map_one, one_mul, map_pow, AdjoinRoot.mk_X]
      exact congrArg (toRing (block r1 r0) + ·) hs

/-- The portable product is reduced already. -/
theorem ccGf128Mul_eq (x y : Block) : ccGf128Mul x y = (gf128Mul x y, 0) := by
  have hbit (k : ℕ) (hk : k < 2 * 64) : (if k / 64 = 0 then y.lo64 else y.hi64).getLsbD (k % 64) = y.bit k := by
    have hlt : k % 64 < 64 := Nat.mod_lt k (by decide)
    split
    next h => rw [Block.getLsbD_lo64 _ hlt, (by omega : k % 64 = k)]
    next h => rw [Block.getLsbD_hi64 _ hlt, (by omega : 64 + k % 64 = k)]
  have S : Shifted x y (2 * 64) (Loop.run (2 * 64)
      (fun k => ccGf128Round (if k / 64 = 0 then y.lo64 else y.hi64) (k % 64)) ((x.lo64, x.hi64), (0, 0))) := by
    refine Loop.run_induct (Shifted x y) ⟨?_, ?_⟩ fun k hk st S => S.step (Nat.mod_lt k (by decide)) (hbit k hk)
    · rw [pow_zero, mul_one, Block.block_hi64_lo64]
    · have hzero : block 0 0 = 0 := rfl
      rw [Finset.sum_range_zero, map_zero, mul_zero, hzero, map_zero]
  have hrun := Loop.run_nested 2 64 (fun i => ccGf128Round (if i = 0 then y.lo64 else y.hi64)) ((x.lo64, x.hi64), (0, 0))
  rw [← hrun] at S
  rw [ccGf128Mul]
  generalize Loop.run 2 _ _ = st at S ⊢
  refine Prod.ext (toRing_injective (S.result.trans ?_)) rfl
  rw [toRing_gf128Mul]
  rfl

/-! ### The reduction -/

theorem getLsbD_foldl_or (bs : List ℕ) (s : ℕ) (mm : BitVec 256) {i : ℕ} (hi : i < 256) :
    (bs.foldl (fun mm b => mm ||| BitVec.twoPow 256 (b + s)) mm).getLsbD i =
      (mm.getLsbD i || decide (∃ b ∈ bs, i = b + s)) := by
  induction bs generalizing mm with
  | nil => simp
  | cons b bs ih =>
    rw [List.foldl_cons, ih, BitVec.getLsbD_or, BitVec.getLsbD_twoPow]
    by_cases hb : i = b + s
    · simp [← hb, hi]
    · simp [hb, Ne.symm hb]

theorem shiftMod_ok {s : ℕ} (hs : s ≤ 127) :
    ∃ m, shiftMod s = .ok m ∧ AdjoinRoot.mk modulus (Word.poly (ZMod 2) m) = 0 ∧
      m.getLsbD (128 + s) = true ∧ ∀ i, 128 + s < i → m.getLsbD i = false := by
  refine ⟨_, if_neg (by omega), ?_⟩
  have hbit {i : ℕ} (hi : i < 256) := getLsbD_foldl_or [0, 1, 2, 7, 128] s 0 hi
  generalize [0, 1, 2, 7, 128].foldl (fun mm b => mm ||| BitVec.twoPow 256 (b + s)) (0 : BitVec 256) = m at hbit ⊢
  simp only [BitVec.ofNat_eq_ofNat, BitVec.getLsbD_zero, Bool.false_or] at hbit
  refine ⟨?_, ?_, fun i hi => ?_⟩
  · have hpoly := Word.poly_eq_sum (ZMod 2) m (Finset.image (· + s) {0, 1, 2, 7, 128}) (fun i hi => ?_) fun i hi hne => ?_
    · rw [Finset.sum_image fun a _ b _ h => Nat.add_right_cancel h] at hpoly
      refine AdjoinRoot.mk_eq_zero.mpr ⟨X ^ s, ?_⟩
      rw [hpoly, modulus, modulus_eq]
      simp
      ring
    · simp at hi
      rw [hbit (by omega), decide_eq_true_iff]
      simpa using hi
    · rw [hbit hi, decide_eq_false_iff_not]
      simpa using hne
  · rw [hbit (by omega), decide_eq_true_iff]
    exact ⟨128, by simp, rfl⟩
  · by_cases h256 : i < 256
    · rw [hbit h256, decide_eq_false_iff_not]
      simp
      omega
    · exact BitVec.getLsbD_of_ge m i (by omega)

/-- Before round `k` the class is kept and the top `k` bits are gone. -/
structure Reduced (c : AdjoinRoot modulus) (k : ℕ) (x : BitVec 256) : Prop where
  class_eq : AdjoinRoot.mk modulus (Word.poly (ZMod 2) x) = c
  top : ∀ i, 256 - k ≤ i → x.getLsbD i = false

theorem Reduced.step {c : AdjoinRoot modulus} {k : ℕ} {x : BitVec 256} (R : Reduced c k x) (hk : k < 128) :
    ∃ y, (if x.getLsbD (255 - k) then do
        let mod ← shiftMod (127 - k)
        .ok (x ^^^ mod)
      else .ok x : Except Err (BitVec 256)) = .ok y ∧ Reduced c (k + 1) y := by
  have htop {y : BitVec 256} (hbit : y.getLsbD (255 - k) = false) (habove : ∀ i, 256 - k ≤ i → y.getLsbD i = false) :
      ∀ i, 256 - (k + 1) ≤ i → y.getLsbD i = false := fun i hi => by
    rcases Nat.lt_or_ge i (256 - k) with h | h
    · rwa [(by omega : i = 255 - k)]
    · exact habove i h
  cases hx : x.getLsbD (255 - k) with
  | false => exact ⟨x, rfl, R.class_eq, htop hx R.top⟩
  | true =>
    obtain ⟨m, hm, hclass, hbit, habove⟩ := shiftMod_ok (by omega : 127 - k ≤ 127)
    rw [(by omega : 128 + (127 - k) = 255 - k)] at hbit habove
    refine ⟨x ^^^ m, by rw [if_pos rfl, hm, ok_bind], ?_, htop ?_ fun i hi => ?_⟩
    · rw [Word.poly_xor, map_add, R.class_eq, hclass, add_zero]
    · rw [BitVec.getLsbD_xor, hx, hbit, Bool.xor_self]
    · rw [BitVec.getLsbD_xor, R.top i hi, habove i (by omega), Bool.xor_self]

theorem poly_append (a b : BitVec 128) :
    Word.poly (ZMod 2) (a ++ b) = Word.poly (ZMod 2) b + Word.poly (ZMod 2) a * X ^ 128 := by
  ext n
  rw [coeff_add, coeff_mul_X_pow', Word.coeff_poly, Word.coeff_poly, Word.coeff_poly, BitVec.getLsbD_append]
  by_cases hn : n < 128
  · simp [hn, hn.not_ge]
  · simp [hn, Nat.le_of_not_lt hn, Word.bit]

theorem ccGf128Reduce_eq (low high : Block) : ccGf128Reduce low high = .ok (mmGf128Reduce low high) := by
  have hstart : Reduced (toRing (mmGf128Reduce low high)) 0 (high.bits ++ low.bits) :=
    ⟨by rw [toRing_mmGf128Reduce, poly_append], fun i hi => BitVec.getLsbD_of_ge _ i hi⟩
  obtain ⟨x, hx, R⟩ := Loop.tryRun_induct (Reduced (toRing (mmGf128Reduce low high))) (n := 128)
    (s := high.bits ++ low.bits) (f := fun k x => if x.getLsbD (255 - k) then do
      let mod ← shiftMod (127 - k)
      .ok (x ^^^ mod)
    else .ok x) hstart fun k hk x R => R.step hk
  rw [ccGf128Reduce, hx, ok_bind]
  refine congrArg Except.ok (toRing_injective (Eq.trans ?_ R.class_eq))
  refine congrArg (AdjoinRoot.mk modulus) ?_
  ext n
  rw [Word.coeff_poly, Word.coeff_poly, BitVec.getLsbD_extractLsb']
  by_cases hn : n < 128
  · simp [hn]
  · simp [hn, R.top n (by omega)]

theorem mmGf128Reduce_zero (x : Block) : mmGf128Reduce x 0 = x := by
  apply toRing_injective
  have hzero : Word.poly (ZMod 2) (0 : Block).bits = 0 := Word.poly_zero _
  rw [toRing_mmGf128Reduce, hzero, zero_mul, add_zero, toRing_apply]

theorem ccGf128_eq (x y : Block) : ccGf128 x y = .ok (gf128Mul x y) := by
  rw [ccGf128, ccGf128Mul_eq, ccGf128Reduce_eq, mmGf128Reduce_zero]

end GF128

/-! ### The malicious check -/

/-- The products that are summed need not be equal, as the sums are reduced before they are compared. -/
theorem ccMalSum_eq (X : Block) (v : AlignedUnVector) : ccMalSum X v = .ok (malSum X v) := by
  let round (i : ℕ) (st : Block × Block × Block) : Block × Block × Block :=
    (gf128Mul st.1 X, st.2.1 ^^^ (mmGf128Mul st.1 (v.get i)).1, st.2.2 ^^^ (mmGf128Mul st.1 (v.get i)).2)
  have hstep (i : ℕ) (st : Block × Block × Block) (hxx : st.1 = (Loop.run i round (X, 0, 0)).1)
      (hred : mmGf128Reduce st.2.1 st.2.2 =
        mmGf128Reduce (Loop.run i round (X, 0, 0)).2.1 (Loop.run i round (X, 0, 0)).2.2) :
      mmGf128Reduce (st.2.1 ^^^ (ccGf128Mul st.1 (v.get i)).1) (st.2.2 ^^^ (ccGf128Mul st.1 (v.get i)).2) =
        mmGf128Reduce (Loop.run (i + 1) round (X, 0, 0)).2.1 (Loop.run (i + 1) round (X, 0, 0)).2.2 := by
    rw [Loop.run_succ, GF128.ccGf128Mul_eq, hxx]
    simp only [round, Block.xor_eq_add, mmGf128Reduce_add, GF128.mmGf128Reduce_zero, hred]
    rfl
  obtain ⟨st, hrun, -, hsum⟩ := Loop.tryRun_induct (fun i (st : Block × Block × Block) =>
      st.1 = (Loop.run i round (X, 0, 0)).1 ∧ mmGf128Reduce st.2.1 st.2.2 =
        mmGf128Reduce (Loop.run i round (X, 0, 0)).2.1 (Loop.run i round (X, 0, 0)).2.2)
    (n := v.size) (s := (X, 0, 0)) (f := fun i st => do
      let xy := ccGf128Mul st.1 (v.get i)
      let xx ← ccGf128 st.1 X
      Except.ok (xx, st.2.1 ^^^ xy.1, st.2.2 ^^^ xy.2)) ⟨rfl, rfl⟩ fun i hi st ⟨hxx, hred⟩ =>
    ⟨(gf128Mul st.1 X, _, _), by rw [GF128.ccGf128_eq, ok_bind], by rw [Loop.run_succ, hxx], hstep i st hxx hred⟩
  rw [ccMalSum, hrun, ok_bind, GF128.ccGf128Reduce_eq, hsum]
  rfl

/-- A build without intrinsics computes the same blocks. -/
theorem portable_agrees (x y : Block) :
    (∀ imm8, x.ccClmulEpi64 y imm8 = x.clmulEpi64 y imm8) ∧ ccGf128 x y = .ok (gf128Mul x y) ∧
      ccGf128Reduce x y = .ok (mmGf128Reduce x y) ∧ ∀ v, ccMalSum x v = .ok (malSum x v) :=
  ⟨Block.ccClmulEpi64_eq x y, GF128.ccGf128_eq x y, GF128.ccGf128Reduce_eq x y, ccMalSum_eq x⟩

end ExtFieldPcg
