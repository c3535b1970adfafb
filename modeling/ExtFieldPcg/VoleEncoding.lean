import ExtFieldPcg.GroupRing
import ExtFieldPcg.VoleSession

/-! What the encoding of a session does to its vectors, for `F4_mul` and for the multiplication of the default
    context. -/

open Buffer Ternary

namespace ExtFieldPcg

/-! ### The length -/

/-- `v` is the integer nearest to `log_3 n`. -/
def NearestLog3 (n v : ℕ) : Prop := 3 ^ (2 * v) < 3 * n ^ 2 ∧ n ^ 2 < 3 ^ (2 * v + 1)

theorem NearestLog3.unique {n v w : ℕ} (hv : NearestLog3 n v) (hw : NearestLog3 n w) : v = w := by
  have hle {v w : ℕ} (hv : NearestLog3 n v) (hw : NearestLog3 n w) : v ≤ w := by
    by_contra hlt
    have hpow : 3 ^ (2 * w + 1 + 1) ≤ 3 ^ (2 * v) := Nat.pow_le_pow_right (by omega) (by omega)
    rw [pow_succ'] at hpow
    have h₁ := hv.1
    have h₂ := hw.2
    omega
  exact le_antisymm (hle hv hw) (hle hw hv)

theorem nearestLog3_pow (k : ℕ) : NearestLog3 (3 ^ k) k := by
  have hpos : 0 < 3 ^ (2 * k) := by positivity
  rw [NearestLog3, ← pow_mul, mul_comm k, pow_succ]
  omega

theorem fitPower_ok {k : ℕ} (h : 3 ^ k < 2 ^ 31) (junk : ℕ → Block) {v : AlignedUnVector} (hsize : 3 ^ k ≤ v.size) :
    fitPower k junk v = .ok ⟨v.mem, 3 ^ k, hsize.trans v.size_le⟩ := by
  rw [fitPower, numSize_ok h, ok_bind, AlignedUnVector.resize_le hsize]

theorem encode_ok {k : ℕ} (h : 3 ^ k < 2 ^ 31) (junk : ℕ → Block) {v : AlignedUnVector} (hsize : 3 ^ k ≤ v.size) :
    ∃ w, encode k junk v = .ok w ∧ w.size = 3 ^ k ∧ w.mem = foleageFft v.mem k (3 ^ k / 3) := by
  refine ⟨AlignedUnVector.fft ⟨v.mem, 3 ^ k, hsize.trans v.size_le⟩ k, ?_, rfl, rfl⟩
  rw [encode, fitPower_ok h junk hsize, ok_bind]

/-- A vector that must grow starts with the sum of its entries and of what fresh memory holds after them. -/
theorem encode_grow {k : ℕ} (h : 3 ^ k < 2 ^ 31) (junk : ℕ → Block) {v : AlignedUnVector} (hcap : v.mem.size < 3 ^ k) :
    ∃ w, encode k junk v = .ok w ∧
      w.get 0 = ∑ i ∈ Finset.range (3 ^ k), if i < v.size then v.get i else junk i := by
  have hmem : 3 ^ k ≤ maxBlocks := h.le.trans (by decide)
  obtain ⟨u, hu, hget⟩ := AlignedUnVector.resize_grow hcap hmem junk
  have hsize := (AlignedUnVector.resize_spec hu).1
  refine ⟨u.fft k, by rw [encode, fitPower, numSize_ok h, ok_bind, hu, ok_bind], ?_⟩
  rw [AlignedUnVector.get_fft, hsize, read_foleageFft_zero (hsize.ge.trans u.size_le)]
  exact Finset.sum_congr rfl fun i hi => hget i (Finset.mem_range.mp hi)

theorem read_copyOut {n i : ℕ} (v : AlignedUnVector) (h : i < n) : read (copyOut n v) i = v.get i :=
  read_ofFn v.get h

theorem Parties.finish_ok {ctx : CoeffCtx Block} {k : ℕ} (h : 3 ^ k < 2 ^ 31) {numVar : ℕ → ℕ} {P : Parties}
    (hrecv : numVar P.recv.mA.size = k) (hsend : numVar P.send.mB.size = k) (hA : 3 ^ k ≤ P.recv.mA.size)
    (hB : 3 ^ k ≤ P.send.mB.size) (hC : 3 ^ k ≤ P.recv.mC.size) (g : SessionDraws ctx) :
    ∃ P', P.finish numVar g = .ok P' ∧ P'.recv.mState = .default ∧ P'.send.mState = .default ∧
      P'.recv.mA.mem = foleageFft P.recv.mA.mem k (3 ^ k / 3) ∧
      P'.send.mB.mem = foleageFft P.send.mB.mem k (3 ^ k / 3) ∧
      P'.recv.mC.mem = foleageFft P.recv.mC.mem k (3 ^ k / 3) := by
  obtain ⟨wA, hwA, -, hmemA⟩ := encode_ok h g.growA hA
  obtain ⟨wB, hwB, -, hmemB⟩ := encode_ok h g.growB hB
  obtain ⟨wC, hwC, -, hmemC⟩ := encode_ok h g.growC hC
  refine ⟨⟨{ P.recv with mA := wA, mC := wC, mBaseC := #[], mBaseA := #[], mState := .default },
    { P.send with mB := wB, mState := .default, mBaseB := #[] }⟩, ?_, rfl, rfl, hmemA, hmemB, hmemC⟩
  rw [Parties.finish, SilentWalshVoleReceiver.finish, SilentWalshVoleSender.finish]
  simp only [hrecv, hsend, hwA, hwB, hwC, ok_bind]

/-! ### The default context -/

section GF128
variable {k : ℕ} {delta : Block} {C : ℕ → Block}

/-- How far the multiplication by `delta` is from commuting with the multiplication of lanes by `ω`. -/
def omegaDefect (delta x : Block) : Block := GF4.omega • gf128Mul x delta + gf128Mul (GF4.omega • x) delta

theorem omegaDefect_add (delta x y : Block) : omegaDefect delta (x + y) = omegaDefect delta x + omegaDefect delta y := by
  simp only [omegaDefect, smul_add, add_gf128Mul]
  abel

/-- A character commutes with the multiplication up to the defect, off its kernel. -/
theorem cubeChar_gf128Mul (z : ZMod 3) (delta x : Block) :
    GF4.cubeChar z • gf128Mul x delta + gf128Mul (GF4.cubeChar z • x) delta =
      (GF4.cubeChar z + GF4.cubeChar (-z)) • omegaDefect delta x := by
  rw [GF4.cubeChar_add_neg]
  obtain rfl | rfl | rfl := cases_three z
  · rw [GF4.cubeChar_zero, one_smul, one_smul, Block.add_self, if_pos rfl, zero_smul]
  · have hchar : GF4.cubeChar 1 = GF4.omega := by decide
    rw [hchar, if_neg (by decide), one_smul, omegaDefect]
  · have hchar : GF4.cubeChar 2 = GF4.omega ^ 2 := by decide
    have hcancel (a b c : Block) : a + b + (c + b) = a + c + (b + b) := by abel
    rw [hchar, if_neg (by decide), one_smul, omega_sq_smul, omega_sq_smul, add_gf128Mul, hcancel, Block.add_self,
      add_zero, omegaDefect]

/-- The transform commutes with the multiplication by `delta` up to the transform of the defects. -/
theorem dft_gf128Mul (delta : Block) (f : (Fin k → ZMod 3) → Block) (x : Fin k → ZMod 3) :
    (pairing k).dft (fun y => gf128Mul (f y) delta) x + gf128Mul ((pairing k).dft f x) delta =
      (pairing k).dft (fun y => omegaDefect delta (f y + f (-y))) x := by
  have hsum : gf128Mul ((pairing k).dft f x) delta = ∑ y, gf128Mul (GF4.cubeChar (x ⬝ᵥ y) • f y) delta := by
    rw [← gf128MulHom_apply, Pairing.dft, map_sum]
    rfl
  have hneg : (pairing k).dft (fun y => omegaDefect delta (f (-y))) x =
      ∑ y, GF4.cubeChar (-(x ⬝ᵥ y)) • omegaDefect delta (f y) := by
    rw [Pairing.dft_neg (pairing k) fun y => omegaDefect delta (f y), Pairing.dft]
    simp only [pairing_chi, neg_dotProduct]
  have hadd : (fun y => omegaDefect delta (f y + f (-y))) =
      (fun y => omegaDefect delta (f y)) + fun y => omegaDefect delta (f (-y)) := by
    funext y
    rw [omegaDefect_add, Pi.add_apply]
  rw [hadd, Pairing.dft_add, Pi.add_apply, hneg, hsum, Pairing.dft, Pairing.dft, ← Finset.sum_add_distrib,
    ← Finset.sum_add_distrib]
  refine Finset.sum_congr rfl fun y _ => ?_
  rw [pairing_chi, cubeChar_gf128Mul, add_smul]

/-- The transforms of correlated vectors are correlated exactly when the defects cancel in opposite pairs. -/
theorem foleageFft_gf128_iff {a b c : Array Block} (ha : 3 ^ k ≤ a.size) (hb : 3 ^ k ≤ b.size) (hc : 3 ^ k ≤ c.size)
    (h : ∀ i < 3 ^ k, read a i = read b i + gf128Mul (read c i) delta) :
    (∀ i < 3 ^ k, read (foleageFft a k (3 ^ k / 3)) i =
      read (foleageFft b k (3 ^ k / 3)) i + gf128Mul (read (foleageFft c k (3 ^ k / 3)) i) delta) ↔
    ∀ j < 3 ^ k, omegaDefect delta (read c j + read c (digitNeg k j)) = 0 := by
  let f := slice c k 0
  have hslice : slice a k 0 = slice b k 0 + fun x => gf128Mul (f x) delta := by
    funext x
    rw [Pi.add_apply, slice_zero, slice_zero, h _ (ofDigits_lt x), ← slice_zero c]
  have hentry (x : Fin k → ZMod 3) :
      read (foleageFft a k (3 ^ k / 3)) (ofDigits k x) = read (foleageFft b k (3 ^ k / 3)) (ofDigits k x) +
        gf128Mul (read (foleageFft c k (3 ^ k / 3)) (ofDigits k x)) delta ↔
      (pairing k).dft (fun y => omegaDefect delta (f y + f (-y))) x = 0 := by
    have hx := ofDigits_lt x
    rw [read_foleageFft ha hx, read_foleageFft hb hx, read_foleageFft hc hx, digits_ofDigits, hslice, Pairing.dft_add,
      Pi.add_apply, add_right_inj, ← dft_gf128Mul, Block.add_eq_zero_iff]
  have hdefect (j : ℕ) (hj : j < 3 ^ k) : omegaDefect delta (read c j + read c (digitNeg k j)) =
      omegaDefect delta (f (digits k j) + f (-digits k j)) := by
    rw [show f = slice c k 0 from rfl, slice_zero, slice_zero, ofDigits_digits hj, digitNeg]
  constructor
  · intro h j hj
    have hzero := (pairing k).dft_eq_zero.mp (funext fun x => (hentry x).mp (h _ (ofDigits_lt x)))
    rw [hdefect j hj]
    exact congrFun hzero (digits k j)
  · intro h i hi
    have hzero : (fun y => omegaDefect delta (f y + f (-y))) = 0 := by
      funext y
      have hy := h _ (ofDigits_lt y)
      rwa [hdefect _ (ofDigits_lt y), digits_ofDigits] at hy
    rw [← ofDigits_digits hi, hentry, (pairing k).dft_eq_zero.mpr hzero, Pi.zero_apply]

/-- The encoding keeps the correlation of the default context exactly when the multiplication by `delta` commutes
    with that by `ω` on the sum of every noise value and its opposite. -/
theorem finish_gf128_iff {numVar : ℕ → ℕ} (hnum : NearestLog3 (3 ^ k) (numVar (3 ^ k))) (g : SessionDraws coeffCtxGF128)
    (P : Parties) (hA : P.recv.mA.size = 3 ^ k) (hB : P.send.mB.size = 3 ^ k) (hC : P.recv.mC.size = 3 ^ k)
    (hcorr : ∀ i < 3 ^ k, P.recv.mA.get i = P.send.mB.get i ^^^ gf128Mul (P.recv.mC.get i) delta) :
    (∃ P', P.finish numVar g = .ok P' ∧
      ∀ i < 3 ^ k, P'.recv.mA.get i = P'.send.mB.get i ^^^ gf128Mul (P'.recv.mC.get i) delta) ↔
    3 ^ k < 2 ^ 31 ∧ ∀ j < 3 ^ k,
      GF4.omega • gf128Mul (P.recv.mC.get j ^^^ P.recv.mC.get (digitNeg k j)) delta =
        gf128Mul (GF4.omega • (P.recv.mC.get j ^^^ P.recv.mC.get (digitNeg k j))) delta := by
  have hk := hnum.unique (nearestLog3_pow k)
  have iff := foleageFft_gf128_iff (k := k) (hA.ge.trans P.recv.mA.size_le) (hB.ge.trans P.send.mB.size_le)
    (hC.ge.trans P.recv.mC.size_le) hcorr
  by_cases hsize : 3 ^ k < 2 ^ 31
  · obtain ⟨P', hP', -, -, hmemA, hmemB, hmemC⟩ := Parties.finish_ok hsize (hA.symm ▸ hk) (hB.symm ▸ hk) hA.ge hB.ge
      hC.ge g
    simp only [hP', Except.ok.injEq, exists_eq_left', AlignedUnVector.get, hmemA, hmemB, hmemC, hsize, true_and]
    refine iff.trans (forall₂_congr fun j _ => ?_)
    rw [omegaDefect, Block.add_eq_zero_iff]
    rfl
  · refine ⟨?_, fun h => absurd h.1 hsize⟩
    rintro ⟨P', hP', -⟩
    have herror := encode_error (by omega : 2 ^ 31 ≤ 3 ^ k) g.growA P.recv.mA
    rw [Parties.finish, SilentWalshVoleReceiver.finish, hA, hk, herror, error_bind] at hP'
    cases hP'

/-- Opposite noise values that are equal lose nothing. -/
theorem finish_gf128_iff_pair :
    let v : AlignedUnVector := ⟨#[0, block 0 2, block 0 2], 3, le_rfl⟩
    let P : Parties := ⟨{ mA := v, mC := ⟨#[0, block 0 1, block 0 1], 3, le_rfl⟩ }, { mB := ⟨#[0, 0, 0], 3, le_rfl⟩ }⟩
    ∃ P', P.finish (fun _ => 1) (.ones coeffCtxGF128 rfl) = .ok P' ∧
      ∀ i < 3 ^ 1, P'.recv.mA.get i = P'.send.mB.get i ^^^ gf128Mul (P'.recv.mC.get i) (block 0 2) := by
  intro v P
  refine (finish_gf128_iff (nearestLog3_pow 1) (.ones coeffCtxGF128 rfl) P rfl rfl rfl ?_).mpr ⟨by decide, ?_⟩
  · decide +kernel
  · decide +kernel

/-- A single noise value is not kept. -/
theorem finish_gf128_fails :
    ¬ ∀ (delta : Block) (P : Parties), P.recv.mA.size = 3 ^ 1 → P.send.mB.size = 3 ^ 1 → P.recv.mC.size = 3 ^ 1 →
      (∀ i < 3 ^ 1, P.recv.mA.get i = P.send.mB.get i ^^^ gf128Mul (P.recv.mC.get i) delta) →
      ∃ P', P.finish (fun _ => 1) (.ones coeffCtxGF128 rfl) = .ok P' ∧
        ∀ i < 3 ^ 1, P'.recv.mA.get i = P'.send.mB.get i ^^^ gf128Mul (P'.recv.mC.get i) delta := by
  intro h
  obtain ⟨P', hP', hcorr⟩ := h (block 0 2)
    ⟨{ mA := ⟨#[0, block 0 2, 0], 3, le_rfl⟩, mC := ⟨#[0, block 0 1, 0], 3, le_rfl⟩ },
      { mB := ⟨#[0, 0, 0], 3, le_rfl⟩ }⟩ rfl rfl rfl (by decide +kernel)
  cases hP'
  exact absurd (hcorr 1 (by decide)) (by decide +kernel)

end GF128

end ExtFieldPcg
