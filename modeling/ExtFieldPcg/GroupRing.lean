import ExtFieldPcg.FoleageUtils
import ExtFieldPcg.F4Ring
import ExtFieldPcg.Fft

/-! What the FFT does for the code: it is the Fourier transform of `Z_3^k` along the powers of `ω`, so it turns
    the product of the group ring into the pointwise `F4_mul`, and `inv_foleageFft` inverts it. -/

open Buffer Ternary

namespace ExtFieldPcg

variable {k : ℕ} {a f g v : Array Block}

/-- Entry `i` of the product in the group ring of `Z_3^k`: the XOR over `x + y = i` of the products. -/
def groupRingEntry (k : ℕ) (f g : Array Block) (i : ℕ) : Block :=
  ∑ x ∈ Finset.range (3 ^ k), ∑ y ∈ Finset.range (3 ^ k),
    if digitAdd k x y = i then f4Mul (read f x) (read g y) else 0

def groupRingMul (k : ℕ) (f g : Array Block) : Array Block := Array.ofFn fun i : Fin (3 ^ k) => groupRingEntry k f g i

theorem read_groupRingMul {i : ℕ} (hi : i < 3 ^ k) : read (groupRingMul k f g) i = groupRingEntry k f g i :=
  read_ofFn _ hi

/-! ### The transforms of the two routines -/

theorem foleageFft_transformed (h : 3 ^ k ≤ a.size) :
    Transformed GF4.cubeChar k 0 a (foleageFft a k (3 ^ k / 3)) :=
  fft_transformed butterfly_spec k 0 a (by omega)

theorem invFoleageFft_transformed (h : 3 ^ k ≤ a.size) :
    Transformed (fun z => GF4.cubeChar (-z)) k 0 a (invFoleageFft a k (3 ^ k / 3)) :=
  fft_transformed invButterfly_spec k 0 a (by omega)

@[simp] theorem size_foleageFft (h : 3 ^ k ≤ a.size) : (foleageFft a k (3 ^ k / 3)).size = a.size :=
  (foleageFft_transformed h).size

@[simp] theorem size_invFoleageFft (h : 3 ^ k ≤ a.size) : (invFoleageFft a k (3 ^ k / 3)).size = a.size :=
  (invFoleageFft_transformed h).size

/-- `foleageFft` is the transform along the pairing `ω^(x·y)`. -/
theorem slice_foleageFft (h : 3 ^ k ≤ a.size) :
    slice (foleageFft a k (3 ^ k / 3)) k 0 = (pairing k).dft (slice a k 0) :=
  funext (foleageFft_transformed h).sum

theorem slice_invFoleageFft (h : 3 ^ k ≤ a.size) :
    slice (invFoleageFft a k (3 ^ k / 3)) k 0 = (pairing k).idft (slice a k 0) := by
  funext x
  rw [(invFoleageFft_transformed h).sum, Pairing.idft]
  refine Finset.sum_congr rfl fun y _ => ?_
  rw [pairing_chi, dotProduct_neg]

theorem slice_zero (a : Array Block) (x : Fin k → ZMod 3) : slice a k 0 x = read a (ofDigits k x) := by
  rw [slice, zero_add]

theorem read_eq_slice {i : ℕ} (hi : i < 3 ^ k) (a : Array Block) : read a i = slice a k 0 (digits k i) := by
  rw [slice_zero, ofDigits_digits hi]

theorem read_foleageFft (h : 3 ^ k ≤ a.size) {i : ℕ} (hi : i < 3 ^ k) :
    read (foleageFft a k (3 ^ k / 3)) i = (pairing k).dft (slice a k 0) (digits k i) := by
  rw [read_eq_slice hi, slice_foleageFft h]

theorem read_foleageFft_zero (h : 3 ^ k ≤ a.size) :
    read (foleageFft a k (3 ^ k / 3)) 0 = ∑ i ∈ Finset.range (3 ^ k), read a i := by
  have hdigits : digits k 0 = 0 := by
    funext t
    simp [digits]
  rw [read_foleageFft h (by positivity), hdigits, Pairing.dft, sum_range]
  refine Finset.sum_congr rfl fun y _ => ?_
  rw [pairing_chi, zero_dotProduct, GF4.cubeChar_zero, one_smul, slice_zero]

theorem slice_groupRingMul :
    slice (groupRingMul k f g) k 0 = Pairing.conv f4MulHom (slice f k 0) (slice g k 0) := by
  funext z
  rw [slice_zero, read_groupRingMul (ofDigits_lt z), groupRingEntry, sum_range, Pairing.conv]
  refine Finset.sum_congr rfl fun x _ => ?_
  rw [sum_range]
  refine Finset.sum_congr rfl fun y _ => ?_
  simp only [digitAdd_ofDigits, ofDigits_injective.eq_iff, slice_zero, f4MulHom_apply]

theorem foleageFft_groupRingMul {i : ℕ} (hf : 3 ^ k ≤ f.size) (hg : 3 ^ k ≤ g.size) (hi : i < 3 ^ k) :
    read (foleageFft (groupRingMul k f g) k (3 ^ k / 3)) i =
      f4Mul (read (foleageFft f k (3 ^ k / 3)) i) (read (foleageFft g k (3 ^ k / 3)) i) := by
  rw [read_foleageFft hf hi, read_foleageFft hg hi, read_foleageFft (by simp [groupRingMul]) hi,
    slice_groupRingMul, Pairing.dft_conv, f4MulHom_apply]

/-- The transform keeps a correlation `a = b + c * d` of `F4_mul`. -/
theorem foleageFft_corr {b c : Array Block} (d : Block) (ha : 3 ^ k ≤ a.size) (hb : 3 ^ k ≤ b.size)
    (hc : 3 ^ k ≤ c.size) (h : ∀ i < 3 ^ k, read a i = read b i + f4Mul (read c i) d) {i : ℕ} (hi : i < 3 ^ k) :
    read (foleageFft a k (3 ^ k / 3)) i =
      read (foleageFft b k (3 ^ k / 3)) i + f4Mul (read (foleageFft c k (3 ^ k / 3)) i) d := by
  have hslice : slice a k 0 = slice b k 0 + fun x => f4MulHom d (slice c k 0 x) := by
    funext x
    rw [Pi.add_apply, slice_zero, slice_zero, slice_zero, h _ (ofDigits_lt x), f4MulHom_apply, f4Mul_comm]
  rw [read_foleageFft ha hi, read_foleageFft hb hi, read_foleageFft hc hi, hslice, Pairing.dft_add, Pi.add_apply,
    Pairing.dft_map, f4MulHom_apply, f4Mul_comm]

theorem foleageFft_map_f4Mul (d : Block) (h : f.size = 3 ^ k) :
    foleageFft (f.map (f4Mul d)) k (3 ^ k / 3) = (foleageFft f k (3 ^ k / 3)).map (f4Mul d) := by
  have hsize : 3 ^ k ≤ (f.map (f4Mul d)).size := by rw [Array.size_map, h]
  refine ext_read ?_ fun i hi => ?_
  · rw [size_foleageFft hsize, Array.size_map, Array.size_map, size_foleageFft h.ge]
  · rw [size_foleageFft hsize, Array.size_map, h] at hi
    have hslice : slice (f.map (f4Mul d)) k 0 = fun x => f4MulHom d (slice f k 0 x) := by
      funext x
      rw [slice_zero, slice_zero, read_map _ (h ▸ ofDigits_lt x), f4MulHom_apply]
    rw [read_map _ (by rw [size_foleageFft h.ge, h]; exact hi), read_foleageFft hsize hi, read_foleageFft h.ge hi,
      hslice, Pairing.dft_map, f4MulHom_apply]

/-- The FFT turns the product of the group ring, whose indices add as `F3x32` adds them, into `F4_mul`, and
    commutes with `F4_mul` by a constant. -/
theorem foleageFft_convolution (f g : Array Block) (hf : f.size = 3 ^ k) (hg : g.size = 3 ^ k) :
    (∀ i < 3 ^ k, read (foleageFft (groupRingMul k f g) k (3 ^ k / 3)) i =
      f4Mul (read (foleageFft f k (3 ^ k / 3)) i) (read (foleageFft g k (3 ^ k / 3)) i)) ∧
    (∀ d, foleageFft (f.map (f4Mul d)) k (3 ^ k / 3) = (foleageFft f k (3 ^ k / 3)).map (f4Mul d)) ∧
    (k ≤ 32 → ∀ x < 3 ^ k, ∀ y < 3 ^ k, digitAdd k x y = (F3x32.fromInt x + F3x32.fromInt y).toInt) := by
  refine ⟨fun i hi => foleageFft_groupRingMul hf.ge hg.ge hi, fun d => foleageFft_map_f4Mul d hf, ?_⟩
  exact fun hk x hx y hy => (F3x32.toInt_fromInt_add hk hx hy).symm

theorem foleageFft_convolution_ones :
    read (foleageFft (groupRingMul 1 #[1, 1, 1] #[1, 1, 1]) 1 (3 ^ 1 / 3)) 2 =
      f4Mul (read (foleageFft #[1, 1, 1] 1 (3 ^ 1 / 3)) 2) (read (foleageFft #[1, 1, 1] 1 (3 ^ 1 / 3)) 2) :=
  (foleageFft_convolution #[1, 1, 1] #[1, 1, 1] rfl rfl).1 2 (by decide)

/-! ### Inversion -/

theorem invFoleageFft_foleageFft (h : 3 ^ k ≤ v.size) :
    invFoleageFft (foleageFft v k (3 ^ k / 3)) k (3 ^ k / 3) = v := by
  have T := foleageFft_transformed h
  have h' : 3 ^ k ≤ (foleageFft v k (3 ^ k / 3)).size := h.trans_eq T.size.symm
  refine ext_read ((size_invFoleageFft h').trans T.size) fun i _ => ?_
  by_cases hi : i < 3 ^ k
  · rw [read_eq_slice hi, slice_invFoleageFft h', slice_foleageFft h, Pairing.idft_dft, ← read_eq_slice hi]
  · rw [(invFoleageFft_transformed h').frame i (by omega), T.frame i (by omega)]

theorem foleageFft_invFoleageFft (h : 3 ^ k ≤ v.size) :
    foleageFft (invFoleageFft v k (3 ^ k / 3)) k (3 ^ k / 3) = v := by
  have T := invFoleageFft_transformed h
  have h' : 3 ^ k ≤ (invFoleageFft v k (3 ^ k / 3)).size := h.trans_eq T.size.symm
  refine ext_read ((size_foleageFft h').trans T.size) fun i _ => ?_
  by_cases hi : i < 3 ^ k
  · rw [read_foleageFft h' hi, slice_invFoleageFft h, Pairing.dft_idft, ← read_eq_slice hi]
  · rw [(foleageFft_transformed h').frame i (by omega), T.frame i (by omega)]

/-- The two routines invert each other and leave the buffer past its first `3^k` entries alone. -/
theorem foleageFft_round_trip (v : Array Block) (h : 3 ^ k ≤ v.size) :
    invFoleageFft (foleageFft v k (3 ^ k / 3)) k (3 ^ k / 3) = v ∧
      foleageFft (invFoleageFft v k (3 ^ k / 3)) k (3 ^ k / 3) = v ∧
      (foleageFft v k (3 ^ k / 3)).size = v.size ∧ (invFoleageFft v k (3 ^ k / 3)).size = v.size ∧
      ∀ i, 3 ^ k ≤ i → read (foleageFft v k (3 ^ k / 3)) i = read v i ∧
        read (invFoleageFft v k (3 ^ k / 3)) i = read v i :=
  ⟨invFoleageFft_foleageFft h, foleageFft_invFoleageFft h, size_foleageFft h, size_invFoleageFft h, fun i hi =>
    ⟨(foleageFft_transformed h).frame i (by omega), (invFoleageFft_transformed h).frame i (by omega)⟩⟩

theorem foleageFft_round_trip_four :
    invFoleageFft (foleageFft #[1, 0, 0, 1] 1 (3 ^ 1 / 3)) 1 (3 ^ 1 / 3) = #[1, 0, 0, 1] :=
  (foleageFft_round_trip (k := 1) #[1, 0, 0, 1] (by decide)).1

end ExtFieldPcg
