import ExtFieldPcg.Ole

/-! Where `Extension_Field_OLE` and `dpf` of `OLE.h` index their vectors of `length` entries, in 64 bits, for the
    depths that `main` passes on unchecked. -/

open Buffer

namespace ExtFieldPcg

/-! ### The code -/

/-- `domain = ipow(3, depth - block_length)`. -/
def oleDomain (depth blockLength : ℕ) : ℕ := ipow 3 ((depth + u64 - blockLength) % u64)

/-- The bytes that a run allocates before it places the noise: the headers of its vectors, the points and the
    coefficients, and the vectors of `length` entries. -/
def oleBytes (c numPoints length : ℕ) : ℕ :=
  24 * (7 * c + 3 * (c * c)) + 48 * c * numPoints + 16 * (4 + 3 * c + 3 * (c * c)) * length

/-- No access lies past the end, for the words `v` that the points are drawn from. Without the memory for its vectors
    the run ends before it places the noise. -/
structure AccessesInRange (depth blockLength c : ℕ) (v : ℕ → ℕ) : Prop where
  noise : oleBytes c (ipow 3 blockLength) (ipow 3 depth) ≤ 16 * maxBlocks → ∀ i < ipow 3 blockLength,
    noiseIndex (F3x32.fromInt (v i % oleDomain depth blockLength)) (oleDomain depth blockLength) i < ipow 3 depth
  fold : oleBytes c (ipow 3 blockLength) (ipow 3 depth) ≤ 16 * maxBlocks → ∀ i < ipow 3 blockLength,
    ∀ j < ipow 3 blockLength, ∀ k < oleDomain depth blockLength,
      foldIndex (ipow 3 blockLength) (oleDomain depth blockLength) i j k < ipow 3 depth

/-! ### The blocks of the domain -/

variable {depth b c : ℕ}

theorem oleDomain_eq (hb : b ≤ depth) (hdepth : depth < u64) : oleDomain depth b = 3 ^ (depth - b) % u64 := by
  rw [oleDomain, sub_u64 hb hdepth, ipow_eq (by decide) (by omega)]

theorem oleDomain_pos (depth b : ℕ) : 0 < oleDomain depth b := ipow_three_pos (Nat.mod_lt _ (by decide))

theorem oleDomain_lt (depth b : ℕ) : oleDomain depth b < u64 := by
  rw [oleDomain, ipow_eq (by decide) (Nat.mod_lt _ (by decide))]
  exact Nat.mod_lt _ (by decide)

/-- The product of block count and block size is the length, up to wrapping around. -/
theorem points_mul_domain_mod (hb : b ≤ depth) (hdepth : depth < u64) (hb40 : b ≤ 40) :
    ipow 3 b * oleDomain depth b % u64 = ipow 3 depth := by
  rw [oleDomain_eq hb hdepth, ipow_three hb40, ipow_eq (by decide) hdepth, Nat.mul_mod_mod, ← pow_add,
    Nat.add_sub_cancel' hb]

theorem points_mul_domain (hb : b ≤ depth) (hdepth : depth ≤ 40) : ipow 3 b * oleDomain depth b = ipow 3 depth := by
  have hdomain : oleDomain depth b = 3 ^ (depth - b) := by
    rw [oleDomain, sub_u64 hb (hdepth.trans_lt (by decide)), ipow_three (by omega)]
  rw [hdomain, ipow_three (by omega), ipow_three hdepth, ← pow_add, Nat.add_sub_cancel' hb]

/-- The blocks fill the vector exactly when their number divides its length. -/
theorem points_mul_domain_iff (hb : b ≤ depth) (hdepth : depth < u64) (hb40 : b ≤ 40) :
    ipow 3 b * oleDomain depth b = ipow 3 depth ↔ 3 ^ b ∣ 3 ^ depth % u64 := by
  have hmod := points_mul_domain_mod hb hdepth hb40
  rw [← ipow_eq (by decide) hdepth, ← ipow_three hb40]
  refine ⟨fun h => ⟨_, h.symm⟩, fun ⟨q, hq⟩ => ?_⟩
  have hpos : 0 < ipow 3 b := ipow_three_pos (by omega)
  have hlt : ipow 3 depth < u64 := hmod ▸ Nat.mod_lt _ (by decide)
  have hcoprime : Nat.gcd u64 (ipow 3 b) = 1 := by
    rw [ipow_three hb40]
    exact (Nat.Coprime.pow 64 b (by decide : Nat.Coprime 2 3) : Nat.Coprime (2 ^ 64) (3 ^ b))
  have hcancel : oleDomain depth b ≡ q [MOD u64] := Nat.ModEq.cancel_left_of_coprime hcoprime <| by
    rw [Nat.ModEq, hmod, ← hq, Nat.mod_eq_of_lt hlt]
  have hqlt : q < u64 := (Nat.le_mul_of_pos_left q hpos).trans_lt (hq ▸ hlt)
  rw [hq, hcancel.eq_of_lt_of_lt (oleDomain_lt depth b) hqlt]

theorem le_maxBlocks_of_bytes {numPoints length : ℕ} (h : oleBytes c numPoints length ≤ 16 * maxBlocks) :
    length ≤ maxBlocks := by
  have hone : 16 * 1 * length ≤ 16 * (4 + 3 * c + 3 * (c * c)) * length :=
    Nat.mul_le_mul_right length (Nat.mul_le_mul_left 16 (by omega))
  unfold oleBytes at h
  omega

/-- Blocks that fill a vector in memory keep every access inside it. -/
theorem AccessesInRange.of_product
    (h : oleBytes c (ipow 3 b) (ipow 3 depth) ≤ 16 * maxBlocks → ipow 3 b * oleDomain depth b = ipow 3 depth)
    (hpoints : 27 ≤ ipow 3 b) (v : ℕ → ℕ) : AccessesInRange depth b c v := by
  have hpos := oleDomain_pos depth b
  refine ⟨fun hmem i hi => ?_, fun hmem i hi j hj k hk => ?_⟩
  · have hfit : ipow 3 depth ≤ maxBlocks := le_maxBlocks_of_bytes hmem
    have hwrap (x : ℕ) (hx : x < maxBlocks) : x % u64 = x := Nat.mod_eq_of_lt (hx.trans (by decide))
    have hlt : v i % oleDomain depth b < oleDomain depth b := Nat.mod_lt _ hpos
    have hgrid := Loop.grid_lt hi hlt
    have hsmall : oleDomain depth b < 3 ^ 32 := by
      have hmul := (Nat.mul_le_mul_right (oleDomain depth b) hpoints).trans ((h hmem).trans_le hfit)
      unfold maxBlocks at hmul
      omega
    rw [h hmem] at hgrid
    rw [noiseIndex, F3x32.toInt_fromInt le_rfl (hlt.trans hsmall), hwrap (i * _) (by omega), hwrap _ (by omega)]
    omega
  · have hT := Nat.mod_lt (F3x32.fromInt i + F3x32.fromInt j).toInt (by omega : 0 < ipow 3 b)
    have hgrid := Loop.grid_lt hT hk
    rw [foldIndex_eq (by omega) hk ((h hmem).trans_le (le_maxBlocks_of_bytes hmem))]
    rw [h hmem] at hgrid
    omega

theorem noiseIndex_one (domain : ℕ) (h : domain < u64) : noiseIndex (F3x32.fromInt (0 % domain)) domain 1 = domain := by
  have hzero : (F3x32.fromInt 0).toInt = 0 := by decide
  rw [noiseIndex, Nat.zero_mod, hzero, one_mul, zero_add, Nat.mod_mod, Nat.mod_eq_of_lt h]

/-- Blocks whose size does not even fit the vector once are written past its end. -/
theorem not_accessesInRange (hmem : oleBytes c (ipow 3 b) (ipow 3 depth) ≤ 16 * maxBlocks) (hpoints : 1 < ipow 3 b)
    (h : ipow 3 depth ≤ oleDomain depth b) : ¬ ∀ v, AccessesInRange depth b c v := by
  intro hall
  have hlt := (hall fun _ => 0).noise hmem 1 hpoints
  rw [noiseIndex_one _ (oleDomain_lt depth b)] at hlt
  omega

/-- When the product of block count and block size wraps around, one block is longer than the vector. -/
theorem length_le_oleDomain (hle : b ≤ depth) (hdepth : depth < u64) (hpoints : ipow 3 b = 27 ∨ ipow 3 b = 81)
    (hb40 : b ≤ 40) (hfit : ipow 3 depth ≤ maxBlocks) (hdvd : ¬ 3 ^ b ∣ 3 ^ depth % u64) :
    ipow 3 depth ≤ oleDomain depth b := by
  have hproduct := mt (points_mul_domain_iff hle hdepth hb40).mp hdvd
  have hmod := points_mul_domain_mod hle hdepth hb40
  have hbig : u64 ≤ ipow 3 b * oleDomain depth b := by
    by_contra hlt
    exact hproduct (by rwa [Nat.mod_eq_of_lt (Nat.not_le.mp hlt)] at hmod)
  unfold maxBlocks at hfit
  unfold u64 at hbig
  rcases hpoints with h | h <;> rw [h] at hbig <;> omega

/-- Below the block length the difference in the exponent wraps around. -/
theorem maxBlocks_lt_oleDomain : ∀ depth < 4, ∀ b < 5, depth < b → maxBlocks < oleDomain depth b := by
  decide +kernel

/-! ### All depths -/

/-- With the arguments of `main` the accesses are in range exactly when the depth reaches the block length and, past the
    40 digits of a `u64`, the vectors are not in memory or the number of blocks divides their length. -/
theorem accessesInRange_iff (hb : b = 4 ∧ c = 2 ∨ b = 3 ∧ c = 3) (hdepth : depth < 2 ^ 31) :
    (∀ v, AccessesInRange depth b c v) ↔ b ≤ depth ∧
      (depth ≤ 40 ∨ 16 * maxBlocks < oleBytes c (3 ^ b) (3 ^ depth % u64) ∨ 3 ^ b ∣ 3 ^ depth % u64) := by
  have hu64 : depth < u64 := hdepth.trans (by decide)
  have hpoints : ipow 3 b = 27 ∨ ipow 3 b = 81 := by
    rcases hb with ⟨rfl, -⟩ | ⟨rfl, -⟩
    · exact .inr (by decide)
    · exact .inl (by decide)
  have hbytes : oleBytes c (3 ^ b) (3 ^ depth % u64) = oleBytes c (ipow 3 b) (ipow 3 depth) := by
    rw [ipow_three (by omega : b ≤ 40), ipow_eq (by decide) hu64]
  rw [hbytes]
  constructor
  · intro hall
    by_cases hle : b ≤ depth
    · refine ⟨hle, ?_⟩
      by_contra hnot
      obtain ⟨-, hmem, hdvd⟩ := not_or.mp hnot |>.imp id not_or.mp
      have hfit := le_maxBlocks_of_bytes (Nat.le_of_not_lt hmem)
      exact not_accessesInRange (Nat.le_of_not_lt hmem) (by omega)
        (length_le_oleDomain hle hu64 hpoints (by omega) hfit hdvd) hall
    · have hdomain := maxBlocks_lt_oleDomain depth (by omega) b (by omega) (by omega)
      have hlength : ipow 3 depth ≤ 27 := by
        rw [ipow_three (by omega)]
        exact Nat.pow_le_pow_right (by omega) (by omega : depth ≤ 3)
      have hmem : oleBytes c (ipow 3 b) (ipow 3 depth) ≤ 16 * maxBlocks := by
        unfold oleBytes maxBlocks
        rcases hb with ⟨-, rfl⟩ | ⟨-, rfl⟩ <;> omega
      exact absurd hall (not_accessesInRange hmem (by omega) (hlength.trans (by unfold maxBlocks at hdomain; omega)))
  · rintro ⟨hle, hcase⟩
    refine AccessesInRange.of_product (fun hmem => ?_) (by omega)
    rcases hcase with h | h | h
    · exact points_mul_domain hle h
    · exact absurd hmem (Nat.not_le.mpr h)
    · exact (points_mul_domain_iff hle hu64 (by omega)).mpr h

/-- Depth 4 with the first block length of `main`: 81 blocks of one position. -/
theorem accessesInRange_iff_four : AccessesInRange 4 4 2 id :=
  (accessesInRange_iff (.inl ⟨rfl, rfl⟩) (by decide)).mpr ⟨by decide, .inl (by decide)⟩ id

/-- `main --OLE 3` writes its noise past the 27 entries of its vectors. -/
theorem accesses_past_end_three :
    ¬ ∀ depth b c, b = 4 ∧ c = 2 ∨ b = 3 ∧ c = 3 → depth < 2 ^ 31 → ∀ v, AccessesInRange depth b c v := by
  intro h
  have hlt := (h 3 4 2 (.inl ⟨rfl, rfl⟩) (by decide) fun _ => 0).noise (by decide) 1 (by decide)
  revert hlt
  decide +kernel

end ExtFieldPcg
