import ExtFieldPcg.VoleCorrelation
import ExtFieldPcg.VoleEncoding

/-! The padding of `VOLE_QASD` in `test.h`: which lengths it makes that both parties accept, and which noise the
    encoding then keeps. -/

open Buffer

namespace ExtFieldPcg

/-- `parity`, what `VOLE_QASD` adds to an odd `n`. -/
def parity (n : ℕ) : ℕ := if n % 2 = 1 then 64 - n % 64 else 0

def padded (n : ℕ) : ℕ := (n + parity n) % u64

/-! ### Acceptance -/

/-- `r` and `s` are configured for the request `n`, in `64` parts of even size, and their expansions pass the
    check of the format. -/
structure Accepted (n : ℕ) (r : SilentWalshVoleReceiver) (s : SilentWalshVoleSender) : Prop where
  recvSize : r.mNoiseVecSize = n
  sendSize : s.mNoiseVecSize = n
  recvParts : 64 * r.mSizePer = n
  sendParts : 64 * s.mSizePer = n
  even : r.mSizePer % 2 = 0
  two_le : 2 ≤ r.mSizePer
  recvFormat : validateExpandFormat r.mNoiseVecSize r.mGen.mDomain r.mGen.mPntCount = .ok ()
  sendFormat : validateExpandFormat s.mNoiseVecSize s.mGen.mDomain s.mGen.mPntCount = .ok ()

/-- Both `configure(n)` succeed, with an accepted configuration. -/
def Accepts (r : SilentWalshVoleReceiver) (s : SilentWalshVoleSender) (n : ℕ) : Prop :=
  ∃ r' s', r.configure n = .ok r' ∧ s.configure n = .ok s' ∧ Accepted n r' s'

section
variable {r : SilentWalshVoleReceiver} {s : SilentWalshVoleSender} {n : ℕ}

theorem accepts_iff : Accepts r s n ↔ n % 128 = 0 ∧ 0 < n := by
  constructor
  · rintro ⟨r, s, -, -, A⟩
    have hparts := A.recvParts
    have heven := A.even
    have htwo := A.two_le
    omega
  · rintro ⟨hmod, hpos⟩
    obtain ⟨domain, rfl⟩ : ∃ domain, n = domain * 64 := ⟨n / 64, by omega⟩
    have hdiv : domain * 64 / 64 = domain := Nat.mul_div_cancel domain (by omega)
    have hparts : 64 * (domain * 64 / 64) = domain * 64 := by rw [hdiv, mul_comm]
    refine ⟨_, _, r.configure_ok (by omega) (by omega), s.configure_ok (by omega) (by omega), rfl, rfl, hparts, hparts,
      ?_, ?_, validateExpandFormat_ok domain, validateExpandFormat_ok domain⟩
    · show domain * 64 / 64 % 2 = 0
      omega
    · show 2 ≤ domain * 64 / 64
      omega

theorem padded_odd (hodd : n % 2 = 1) : padded n = (n + (64 - n % 64)) % u64 := by
  rw [padded, parity, if_pos hodd]

/-- The padding of an odd length is accepted exactly when its last `64`s end in the upper half of `128` and it
    does not leave the range. -/
theorem padded_accepts_iff (hodd : n % 2 = 1) (hn : n < u64) :
    Accepts r s (padded n) ↔ 64 < n % 128 ∧ n < u64 - 64 := by
  rw [accepts_iff, padded_odd hodd]
  unfold u64 at hn ⊢
  omega

/-- The padding of `81` is accepted. -/
theorem padded_accepts_iff_81 : Accepts {} {} (padded 81) :=
  (padded_accepts_iff (by decide) (by decide)).mpr (by decide)

/-- The padding of `3^7` is not. -/
theorem padded_not_accepts : ¬ ∀ n, n % 2 = 1 → 81 ≤ n → n < u64 → Accepts {} {} (padded n) := by
  intro h
  have hmod := (accepts_iff.mp (h (3 ^ 7) (by decide) (by decide) (by decide))).1
  exact absurd hmod (by decide)

example : ({} : SilentWalshVoleReceiver).configure (padded (3 ^ 7)) = .error .pprfDomainOdd := rfl

end

/-! ### Powers of three -/

section Powers
variable {k : ℕ}

theorem padded_pow (hk : 3 ^ k < u64) :
    padded (3 ^ k) = 3 ^ k + parity (3 ^ k) ∧ padded (3 ^ k) % 64 = 0 ∧ parity (3 ^ k) < 64 := by
  have hodd : 3 ^ k % 2 = 1 := Nat.odd_iff.mp (Odd.pow (by decide))
  have hle : 3 ^ k ≤ 3 ^ 40 := Nat.pow_le_pow_right (by omega) (exp_le_forty hk)
  have hparity : parity (3 ^ k) = 64 - 3 ^ k % 64 := if_pos hodd
  have hlt : 3 ^ k + (64 - 3 ^ k % 64) < u64 := by
    unfold u64
    omega
  rw [padded, hparity, Nat.mod_eq_of_lt hlt]
  omega

theorem four_le_of_accepts {r : SilentWalshVoleReceiver} {s : SilentWalshVoleSender} (hk : 3 ^ k < u64)
    (hacc : Accepts r s (padded (3 ^ k))) : 4 ≤ k := by
  by_contra hlt
  have hle : 3 ^ k ≤ 3 ^ 3 := Nat.pow_le_pow_right (by omega) (by omega)
  have hmod := accepts_iff.mp hacc
  have hpadded := padded_pow hk
  omega

theorem nearestLog3_padded (hk : 3 ^ k < u64) (h4 : 4 ≤ k) : NearestLog3 (padded (3 ^ k)) k := by
  obtain ⟨hpadded, -, hlt⟩ := padded_pow hk
  have hsquare : 3 ^ (2 * k) = (3 ^ k) ^ 2 := pow_mul' 3 2 k
  rw [hpadded, NearestLog3, pow_succ 3, hsquare]
  rcases Nat.eq_or_lt_of_le h4 with rfl | h5
  · decide
  · have hle : 3 ^ 5 ≤ 3 ^ k := Nat.pow_le_pow_right (by omega) h5
    generalize 3 ^ k = x at hle hlt
    generalize parity x = p at hlt
    constructor <;> nlinarith

/-! ### Noise -/

/-- All `64` points are different and in the first `3^k` places, and `mC` has the noise at them and zero
    elsewhere. -/
structure NoiseKept (k : ℕ) (r : SilentWalshVoleReceiver) (mC : AlignedUnVector) : Prop where
  size : mC.size = 3 ^ k
  inj : ∀ i < 64, ∀ j < 64, read r.mS i = read r.mS j → i = j
  lt : ∀ j < 64, read r.mS j < 3 ^ k
  noise : ∀ j < 64, mC.get (read r.mS j) = read r.mBaseC j
  zero : ∀ x < 3 ^ k, (∀ j < 64, read r.mS j ≠ x) → mC.get x = 0

theorem noisePoint_lt_iff {n pad domain : ℕ} {words : ℕ → ℕ} (hn : n + pad = domain * 64) (hdomain : 0 < domain) :
    (∀ j < 64, noisePoint domain words j < n) ↔ ∀ s < 8, 8 * (words (56 + s) % domain) + s + pad < 8 * domain := by
  constructor
  · intro h s hs
    have hlast := h (56 + s) (by omega)
    have hdiv : (56 + s) / 8 = 7 := by omega
    have hmod : (56 + s) % 8 = s := by omega
    rw [noisePoint, RegularPprfReceiver.interleave, hdiv, hmod] at hlast
    omega
  · intro h j hj
    rw [noisePoint, RegularPprfReceiver.interleave]
    by_cases hlast : 56 ≤ j
    · have hs := h (j - 56) (by omega)
      have hdiv : j / 8 = 7 := by omega
      have hmod : j % 8 = j - 56 := by omega
      rw [Nat.add_sub_cancel' hlast] at hs
      rw [hdiv, hmod]
      omega
    · have hpad := h 0 (by omega)
      have hrow : j / 8 * domain ≤ 6 * domain := Nat.mul_le_mul_right domain (by omega)
      have hleaf := Nat.mod_lt (words j) hdomain
      omega

variable {P : Parties}

/-- A cut of sizes that the encoding can count keeps the noise exactly when the points of the last eight trees stay
    out of the padding. -/
theorem noiseKept_iff_points (I : Idle P) (L : LibOTe coeffCtxGF128F4) (numVar : ℕ → ℕ)
    (g : SessionDraws coeffCtxGF128F4) (delta : Block) (h31 : 3 ^ k < 2 ^ 31) (hmod : padded (3 ^ k) % 128 = 0)
    (hvar : numVar (padded (3 ^ k)) = k) :
    (∃ P' mC, P.beforeEncoding L g delta (padded (3 ^ k)) = .ok P' ∧
      fitPower (numVar P'.recv.mA.size) g.growC P'.recv.mC = .ok mC ∧ NoiseKept k P'.recv mC) ↔
    ∀ s < 8, 8 * (g.words (56 + s) % (padded (3 ^ k) / 64)) + s + parity (3 ^ k) < 8 * (padded (3 ^ k) / 64) := by
  obtain ⟨hpadded, -, hpad⟩ := padded_pow (h31.trans (by decide))
  have hpow : 0 < 3 ^ k := by positivity
  obtain ⟨domain, hdomain⟩ : ∃ domain, padded (3 ^ k) = domain * 64 := ⟨padded (3 ^ k) / 64, by omega⟩
  have hdiv : padded (3 ^ k) / 64 = domain := by omega
  have hmem : domain * 64 ≤ maxBlocks := by
    unfold maxBlocks
    omega
  obtain ⟨P', hP', E⟩ := I.beforeEncoding_ok coeffCtxGF128F4_xor L g delta (by omega) (by omega) hmem
  have hsize : 3 ^ k ≤ P'.recv.mC.size := by
    rw [E.sizeC]
    omega
  rw [hdomain] at hvar
  rw [hdiv, hdomain, ← noisePoint_lt_iff (hpadded.symm.trans hdomain) (by omega)]
  simp only [hP', Except.ok.injEq, exists_and_left, exists_eq_left', E.sizeA, hvar, fitPower_ok h31 g.growC hsize]
  refine ⟨fun N j hj => E.point j hj ▸ N.lt j hj, fun h => ⟨rfl, fun i hi j hj hij => ?_, fun j hj => ?_, fun j hj => ?_,
    fun x hx hne => ?_⟩⟩
  · rw [E.point i hi, E.point j hj] at hij
    exact noisePoint_inj (by omega) hij
  · exact E.point j hj ▸ h j hj
  · rw [E.point j hj, E.baseC j hj]
    exact E.noise j hj
  · exact E.zero x (by omega) fun j hj => E.point j hj ▸ hne j hj

/-- The cut before the transform keeps the noise exactly when, besides, the encoding can count to `3^k`. -/
theorem noiseKept_iff (I : Idle P) (L : LibOTe coeffCtxGF128F4) (numVar : ℕ → ℕ) (g : SessionDraws coeffCtxGF128F4)
    (delta : Block) (hk : 3 ^ k < u64) (hacc : Accepts P.recv P.send (padded (3 ^ k)))
    (hnum : NearestLog3 (padded (3 ^ k)) (numVar (padded (3 ^ k)))) :
    (∃ P' mC, P.beforeEncoding L g delta (padded (3 ^ k)) = .ok P' ∧
      fitPower (numVar P'.recv.mA.size) g.growC P'.recv.mC = .ok mC ∧ NoiseKept k P'.recv mC) ↔
    3 ^ k < 2 ^ 31 ∧ ∀ s < 8, 8 * (g.words (56 + s) % (padded (3 ^ k) / 64)) + s + parity (3 ^ k) <
      8 * (padded (3 ^ k) / 64) := by
  have hvar := hnum.unique (nearestLog3_padded hk (four_le_of_accepts hk hacc))
  obtain ⟨hmod, hpos⟩ := accepts_iff.mp hacc
  by_cases h31 : 3 ^ k < 2 ^ 31
  · rw [noiseKept_iff_points I L numVar g delta h31 hmod hvar, and_iff_right h31]
  · refine ⟨?_, fun h => absurd h.1 h31⟩
    rintro ⟨P', mC, hP', hfit, -⟩
    obtain ⟨domain, hdomain⟩ : ∃ domain, padded (3 ^ k) = domain * 64 := ⟨padded (3 ^ k) / 64, by omega⟩
    rw [hdomain] at hP' hvar
    by_cases hmem : domain * 64 ≤ maxBlocks
    · obtain ⟨P'', hP'', E⟩ := I.beforeEncoding_ok coeffCtxGF128F4_xor L g delta (by omega) (by omega) hmem
      obtain rfl := Except.ok.inj (hP'.symm.trans hP'')
      rw [E.sizeA, hvar, fitPower_error (Nat.not_lt.mp h31)] at hfit
      cases hfit
    · rw [I.beforeEncoding_error coeffCtxGF128F4_xor L g delta (by omega) (by omega) (Nat.not_le.mp hmem)] at hP'
      cases hP'

/-- At `3^6` the points at the first leaves are kept. -/
theorem noiseKept_iff_729 :
    ∃ P' mC, ({} : Parties).beforeEncoding (.clear coeffCtxGF128F4_xor) (.ones coeffCtxGF128F4 rfl) 0 (padded (3 ^ 6)) =
      .ok P' ∧ fitPower 6 (fun _ => 0) P'.recv.mC = .ok mC ∧ NoiseKept 6 P'.recv mC :=
  (noiseKept_iff (k := 6) ⟨rfl, rfl, rfl, rfl, rfl⟩ (.clear coeffCtxGF128F4_xor) (fun _ => 6)
    (.ones coeffCtxGF128F4 rfl) 0 (by decide) (accepts_iff.mpr (by decide)) (by unfold NearestLog3; decide)).mpr
    ⟨by decide, by decide⟩

/-- At `3^4` the noise of the last eight trees is cut off. -/
theorem noise_lost_81 : Accepts {} {} (padded (3 ^ 4)) ∧ NearestLog3 (padded (3 ^ 4)) 4 ∧
    ¬ ∃ P' mC, ({} : Parties).beforeEncoding (.clear coeffCtxGF128F4_xor) (.ones coeffCtxGF128F4 rfl) 0 (padded (3 ^ 4)) =
      .ok P' ∧ fitPower 4 (fun _ => 0) P'.recv.mC = .ok mC ∧ NoiseKept 4 P'.recv mC := by
  refine ⟨accepts_iff.mpr (by decide), by unfold NearestLog3; decide, fun h => ?_⟩
  have hkept := (noiseKept_iff_points (k := 4) ⟨rfl, rfl, rfl, rfl, rfl⟩ (.clear coeffCtxGF128F4_xor)
    (fun _ => 4) (.ones coeffCtxGF128F4 rfl) 0 (by decide) (by decide) rfl).mp h
  exact absurd (hkept 0 (by decide)) (by decide)

end Powers

end ExtFieldPcg
