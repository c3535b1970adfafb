import ExtFieldPcg.GroupRing
import ExtFieldPcg.Runtime

/-! The encoder of the quasi-abelian code for polynomial commitments (`QA_encode_test_PCS` of `test.h`): it is
    systematic, its parity blocks are products in the group ring of `Z_3^k`, and so it commutes with the
    translations of the group. -/

open Buffer Ternary

namespace ExtFieldPcg

/-! ### The code -/

/-- The loop `codeword[i] = a[i] * msg[i]`. -/
def mulPointwise (n : ℕ) (a msg codeword : Array Block) : Array Block :=
  Loop.run n (fun i codeword => write codeword i (f4Mul (read a i) (read msg i))) codeword

/-- The blocks of `QA_encode_test_PCS(num_var, n, inverse_rate)` on vectors of `n` entries: the message `msg` and the
    public vectors `a`. -/
def qaEncode (numVar n inverseRate : ℕ) (msg : Array Block) (a : ℕ → Array Block) : ℕ → Array Block :=
  let codeword := fun _ => Array.replicate n (0 : Block)
  let codeword := Function.update codeword (inverseRate - 1) (copy msg (codeword (inverseRate - 1)) 0)
  let msg := foleageFft msg numVar (n / 3)
  Loop.run (inverseRate - 1) (fun h codeword =>
    Function.update codeword h (invFoleageFft (mulPointwise n (a h) msg (codeword h)) numVar (n / 3))) codeword

/-- The blocks of `QA_encode_test_PCS(num_var, n)`, in one buffer of `size` entries. -/
def qaEncodeHalf (numVar n size : ℕ) (msg a : Array Block) : Array Block :=
  let codeword := copy msg (Array.replicate size (0 : Block)) n
  let msg := foleageFft msg numVar (n / 3)
  invFoleageFft (mulPointwise n a msg codeword) numVar (n / 3)

/-- A vector of `n` entries for an `int`; a negative one is a size that no vector has. -/
def vectorSize (n : ℤ) : Except Err ℕ := if 0 ≤ n then .ok n.toNat else .error .lengthError

/-- `QA_encode_test_PCS(num_var, n, inverse_rate)`. -/
def qaEncodeTestPCS (numVar : ℕ) (n : ℤ) (inverseRate : ℕ) (msg : Array Block) (a : ℕ → Array Block) :
    Except Err (ℕ → Array Block) := do
  let n ← vectorSize n
  return qaEncode numVar n inverseRate msg a

/-- `QA_encode_test_PCS(num_var, n)`, where `2 * n` is a product of `int`s. -/
def qaEncodeTestPCSHalf (numVar : ℕ) (n : ℤ) (msg a : Array Block) : Except Err (Array Block) := do
  let n ← vectorSize n
  let size ← int (2 * n)
  return qaEncodeHalf numVar n size msg a

/-- `int n=ipow(3,num_var)` in `main`. -/
def mainN (numVar : ℕ) : ℤ := toInt (ipow 3 numVar)

/-! ### Translations -/

variable {k : ℕ} {msg : Array Block}

/-- The vector moved by the element `g` of `Z_3^k`: its entry at `i + g` is the old one at `i`. -/
def translate (k g : ℕ) (v : Array Block) : Array Block :=
  Array.ofFn fun i : Fin (3 ^ k) => read v (digitAdd k i (digitNeg k g))

@[simp] theorem size_translate (g : ℕ) (v : Array Block) : (translate k g v).size = 3 ^ k := Array.size_ofFn

theorem slice_translate (g : ℕ) (v : Array Block) (x : Fin k → ZMod 3) :
    slice (translate k g v) k 0 x = slice v k 0 (x - digits k g) := by
  rw [slice_zero, slice_zero, translate, read_ofFn (fun i => read v (digitAdd k i (digitNeg k g))) (ofDigits_lt x),
    digitNeg, digitAdd_ofDigits, sub_eq_add_neg]

theorem groupRingMul_translate (g : ℕ) (f q : Array Block) :
    groupRingMul k (translate k g f) q = translate k g (groupRingMul k f q) := by
  have hsize (f : Array Block) : (groupRingMul k f q).size = 3 ^ k := Array.size_ofFn
  refine ext_read ((hsize _).trans (size_translate g _).symm) fun i hi => ?_
  rw [hsize] at hi
  rw [read_eq_slice hi, read_eq_slice hi, slice_translate, slice_groupRingMul, slice_groupRingMul]
  rw [funext (slice_translate g f)]
  exact Pairing.conv_translate f4MulHom _ _ _ _

/-! ### Blocks of the codeword -/

theorem mulPointwise_spec {n : ℕ} (a msg : Array Block) {codeword : Array Block} (h : n ≤ codeword.size) :
    (mulPointwise n a msg codeword).size = codeword.size ∧
      ∀ i, read (mulPointwise n a msg codeword) i =
        if i < n then f4Mul (read a i) (read msg i) else read codeword i := by
  have hspec := run_write_spec (fun i => f4Mul (read a i) (read msg i)) 0 ((Nat.zero_add n).trans_le h)
  simp only [Nat.zero_add, Nat.zero_le, true_and, Nat.sub_zero] at hspec
  exact hspec

/-- A pointwise product with the transform of the message, transformed back, is a product in the group ring. -/
theorem invFoleageFft_mulPointwise {a codeword : Array Block} (hmsg : msg.size = 3 ^ k) (ha : a.size = 3 ^ k)
    (h : 3 ^ k ≤ codeword.size) {i : ℕ} (hi : i < 3 ^ k) :
    read (invFoleageFft (mulPointwise (3 ^ k) a (foleageFft msg k (3 ^ k / 3)) codeword) k (3 ^ k / 3)) i =
      read (groupRingMul k msg (invFoleageFft a k (3 ^ k / 3))) i := by
  let product := groupRingMul k msg (invFoleageFft a k (3 ^ k / 3))
  have hproduct : product.size = 3 ^ k := Array.size_ofFn
  have hinv : 3 ^ k ≤ (invFoleageFft a k (3 ^ k / 3)).size := by rw [size_invFoleageFft ha.ge, ha]
  obtain ⟨hsize, hread⟩ := mulPointwise_spec a (foleageFft msg k (3 ^ k / 3)) h
  have hslice : slice (mulPointwise (3 ^ k) a (foleageFft msg k (3 ^ k / 3)) codeword) k 0 =
      slice (foleageFft product k (3 ^ k / 3)) k 0 := by
    funext x
    rw [slice_zero, slice_zero, hread, if_pos (ofDigits_lt x), foleageFft_groupRingMul hmsg.ge hinv (ofDigits_lt x),
      foleageFft_invFoleageFft ha.ge, f4Mul_comm]
  rw [read_eq_slice hi, slice_invFoleageFft (h.trans_eq hsize.symm), hslice, slice_foleageFft hproduct.ge,
    Pairing.idft_dft, ← read_eq_slice hi]

section Encode
variable {r : ℕ} {a : ℕ → Array Block}

/-- Each parity block is computed once, on zeros; the last block holds the message. -/
theorem qaEncode_row (n : ℕ) (msg : Array Block) (a : ℕ → Array Block) (h : ℕ) :
    qaEncode k n r msg a h =
      if h < r - 1 then invFoleageFft (mulPointwise n (a h) (foleageFft msg k (n / 3)) (Array.replicate n 0)) k (n / 3)
      else if h = r - 1 then copy msg (Array.replicate n 0) 0 else Array.replicate n 0 := by
  have hrun := Loop.run_update 0
    (fun h row => invFoleageFft (mulPointwise n (a h) (foleageFft msg k (n / 3)) row) k (n / 3))
    (Function.update (fun _ => Array.replicate n 0) (r - 1) (copy msg (Array.replicate n 0) 0)) (r - 1)
  simp only [Nat.zero_add, Nat.zero_le, true_and, Nat.sub_zero, Function.update_apply] at hrun
  refine (congrFun hrun h).trans ?_
  by_cases hlt : h < r - 1
  · rw [if_pos hlt, if_pos hlt, if_neg (by omega)]
  · rw [if_neg hlt, if_neg hlt]

theorem qaEncode_message (hmsg : msg.size = 3 ^ k) : qaEncode k (3 ^ k) r msg a (r - 1) = msg := by
  obtain ⟨hsize, hread⟩ := copy_spec msg (Array.replicate (3 ^ k) (0 : Block)) 0 (by simp [hmsg])
  rw [qaEncode_row, if_neg (by omega), if_pos rfl]
  refine ext_read (by rw [hsize, hmsg, Array.size_replicate]) fun i hi => ?_
  rw [hsize, Array.size_replicate] at hi
  rw [hread, if_pos (by omega), Nat.sub_zero]

theorem qaEncode_parity (hmsg : msg.size = 3 ^ k) {h : ℕ} (ha : (a h).size = 3 ^ k) (hh : h < r - 1) :
    qaEncode k (3 ^ k) r msg a h = groupRingMul k msg (invFoleageFft (a h) k (3 ^ k / 3)) := by
  have hzeros : 3 ^ k ≤ (Array.replicate (3 ^ k) (0 : Block)).size := Array.size_replicate.ge
  have hmul := (mulPointwise_spec (a h) (foleageFft msg k (3 ^ k / 3)) hzeros).1
  have hsize := (size_invFoleageFft (hzeros.trans_eq hmul.symm)).trans (hmul.trans Array.size_replicate)
  rw [qaEncode_row, if_pos hh]
  refine ext_read (hsize.trans Array.size_ofFn.symm) fun i hi => ?_
  exact invFoleageFft_mulPointwise hmsg ha hzeros (hsize ▸ hi)

theorem qaEncode_translate (hmsg : msg.size = 3 ^ k) (ha : ∀ h < r - 1, (a h).size = 3 ^ k) (g : ℕ) {h : ℕ} (hh : h < r) :
    qaEncode k (3 ^ k) r (translate k g msg) a h = translate k g (qaEncode k (3 ^ k) r msg a h) := by
  by_cases hlt : h < r - 1
  · rw [qaEncode_parity (size_translate g msg) (ha h hlt) hlt, qaEncode_parity hmsg (ha h hlt) hlt,
      groupRingMul_translate]
  · rw [(by omega : h = r - 1), qaEncode_message (size_translate g msg), qaEncode_message hmsg]

/-- The encoder of rate one half puts the parity before the message. -/
theorem qaEncodeHalf_spec {a : Array Block} (hmsg : msg.size = 3 ^ k) (ha : a.size = 3 ^ k) :
    (qaEncodeHalf k (3 ^ k) (2 * 3 ^ k) msg a).size = 2 * 3 ^ k ∧ ∀ i < 3 ^ k,
      read (qaEncodeHalf k (3 ^ k) (2 * 3 ^ k) msg a) i = read (groupRingMul k msg (invFoleageFft a k (3 ^ k / 3))) i ∧
      read (qaEncodeHalf k (3 ^ k) (2 * 3 ^ k) msg a) (3 ^ k + i) = read msg i := by
  obtain ⟨hcopy, hread⟩ := copy_spec msg (Array.replicate (2 * 3 ^ k) (0 : Block)) (3 ^ k)
    (by simp [hmsg, two_mul])
  have hle : 3 ^ k ≤ (copy msg (Array.replicate (2 * 3 ^ k) (0 : Block)) (3 ^ k)).size := by
    rw [hcopy, Array.size_replicate]
    omega
  obtain ⟨hmul, hpoint⟩ := mulPointwise_spec a (foleageFft msg k (3 ^ k / 3)) hle
  have T := invFoleageFft_transformed (hle.trans_eq hmul.symm)
  refine ⟨(T.size.trans hmul).trans (hcopy.trans Array.size_replicate), fun i hi => ⟨?_, ?_⟩⟩
  · exact invFoleageFft_mulPointwise hmsg ha hle hi
  · refine (T.frame _ (by omega)).trans ?_
    rw [hpoint, if_neg (by omega), hread, if_pos (by omega), Nat.add_sub_cancel_left]

/-! ### The functions on an `int` -/

theorem mainN_three (hk : 3 ^ k < 2 ^ 31) : mainN k = (3 ^ k : ℕ) := by
  have hle : k ≤ 19 := by
    by_contra h
    have : 3 ^ 20 ≤ 3 ^ k := Nat.pow_le_pow_right (by decide) (by omega)
    omega
  rw [mainN, ipow_three (by omega), toInt_of_lt hk]

theorem vectorSize_mainN_lt {n : ℕ} (h : vectorSize (mainN k) = .ok n) : n < 2 ^ 31 := by
  have hlt : mainN k < 2 ^ 31 := toInt_lt _
  rw [vectorSize] at h
  split at h
  · rw [← Except.ok.inj h]
    omega
  · cases h

theorem vectorSize_mainN (hk : 3 ^ k < 2 ^ 31) : vectorSize (mainN k) = .ok (3 ^ k) := by
  rw [vectorSize, mainN_three hk, if_pos (Int.natCast_nonneg _), Int.toNat_natCast]

/-- The code is systematic, with the products of the message in the group ring as its parity, and is mapped to itself
    by the translations of `Z_3^k`; the encoder of rate one half computes the same parity. -/
def EncodesQuasiAbelian (k r : ℕ) (msg : Array Block) (a : ℕ → Array Block) : Prop :=
  ∃ codeword half, qaEncodeTestPCS k (mainN k) r msg a = .ok codeword ∧
    qaEncodeTestPCSHalf k (mainN k) msg (a 0) = .ok half ∧
    codeword (r - 1) = msg ∧
    (∀ h < r - 1, codeword h = groupRingMul k msg (invFoleageFft (a h) k (3 ^ k / 3))) ∧
    (∀ g < 3 ^ k, ∃ moved, qaEncodeTestPCS k (mainN k) r (translate k g msg) a = .ok moved ∧
      ∀ h < r, moved h = translate k g (codeword h)) ∧
    half.size = 2 * 3 ^ k ∧ ∀ i < 3 ^ k, read half i = read (codeword 0) i ∧ read half (3 ^ k + i) = read msg i

theorem encodesQuasiAbelian (hrate : 2 ≤ r) (hmsg : msg.size = 3 ^ k) (ha : ∀ h < r - 1, (a h).size = 3 ^ k)
    (hint : 2 * 3 ^ k < 2 ^ 31) : EncodesQuasiAbelian k r msg a := by
  have hsize : vectorSize (mainN k) = .ok (3 ^ k) := vectorSize_mainN (by omega)
  have hrun (m : Array Block) : qaEncodeTestPCS k (mainN k) r m a = .ok (qaEncode k (3 ^ k) r m a) := by
    rw [qaEncodeTestPCS, hsize]
    rfl
  obtain ⟨hhalf, hread⟩ := qaEncodeHalf_spec hmsg (ha 0 (by omega))
  refine ⟨_, _, hrun msg, by rw [qaEncodeTestPCSHalf, hsize, ok_bind, int_ok hint]; rfl, qaEncode_message hmsg,
    fun h hh => qaEncode_parity hmsg (ha h hh) hh,
    fun g _ => ⟨_, hrun _, fun h hh => qaEncode_translate hmsg ha g hh⟩, hhalf, fun i hi => ⟨?_, (hread i hi).2⟩⟩
  rw [(hread i hi).1]
  exact congrArg (read · i) (qaEncode_parity hmsg (ha 0 (by omega)) (by omega)).symm

/-- The last block has as many entries as the vector that `n` asks for. -/
theorem size_qaEncode_message {n : ℕ} : (qaEncode k n r msg a (r - 1)).size = n := by
  rw [qaEncode_row, if_neg (by omega), if_pos rfl, size_copy, Array.size_replicate]

/-- The encoders do what they are meant to do exactly when both vectors have sizes that are `int`s. -/
theorem qaEncode_iff (hrate : 2 ≤ r) (msg : Array Block) (a : ℕ → Array Block) (hmsg : msg.size = 3 ^ k)
    (ha : ∀ h < r - 1, (a h).size = 3 ^ k) : EncodesQuasiAbelian k r msg a ↔ 2 * 3 ^ k < 2 ^ 31 := by
  refine ⟨?_, encodesQuasiAbelian hrate hmsg ha⟩
  rintro ⟨codeword, half, hcode, hhalf, hmessage, -⟩
  obtain ⟨n, hn, hcode⟩ := bind_eq_ok.mp hcode
  have hthree : n = 3 ^ k := by
    rw [← hmsg, ← hmessage, ← Except.ok.inj hcode, size_qaEncode_message]
  have hlt : 3 ^ k < 2 ^ 31 := hthree ▸ vectorSize_mainN_lt hn
  rw [qaEncodeTestPCSHalf, vectorSize_mainN hlt, ok_bind] at hhalf
  by_contra hlarge
  rw [int_error (Nat.le_of_not_lt hlarge)] at hhalf
  cases hhalf

/-- Rate one third on three positions. -/
theorem qaEncode_iff_three : EncodesQuasiAbelian 1 3 #[1, 0, 0] fun _ => #[1, 1, 0] :=
  (qaEncode_iff (k := 1) (r := 3) (by decide) #[1, 0, 0] (fun _ => #[1, 1, 0]) rfl fun _ _ => rfl).mpr (by decide)

/-- `--QA_PCS 20`: the `int` that is to be `3 ^ 20` is negative. -/
theorem qaEncode_negative :
    ¬ EncodesQuasiAbelian 20 2 (Array.replicate (3 ^ 20) 0) fun _ => Array.replicate (3 ^ 20) 0 := by
  rintro ⟨codeword, half, hcode, -⟩
  have hsize : vectorSize (mainN 20) = .error .lengthError := rfl
  rw [qaEncodeTestPCS, hsize] at hcode
  cases hcode

end Encode
end ExtFieldPcg
