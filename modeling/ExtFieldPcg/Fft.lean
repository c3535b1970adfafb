import ExtFieldPcg.Lib.Buffer
import ExtFieldPcg.Lib.Ternary
import ExtFieldPcg.F4

/-! The FFT of the encoder and its inverse (`fft/FoleageFft.h`, `F4.h`), in place on a buffer of blocks, and
    the transform of `Z_3^k` that they compute. -/

open Buffer

namespace ExtFieldPcg

/-! ### The code -/

def maskH : Block := Block.allSame 0b10101010

def maskL : Block := Block.allSame 0b01010101

/-- `mult`, computed from `coeffsM[j] ^ coeffsR[j]`. -/
def mult (m r : Block) : Block :=
  let xorH := (m ^^^ r) &&& maskH
  let xorL := (m ^^^ r) &&& maskL
  ((xorH.srliEpi64 1) ^^^ xorL) ||| (xorL.slliEpi64 1)

/-- The new `coeffsL[j]`, `coeffsM[j]`, `coeffsR[j]` of `foleageFft`. -/
def butterfly (l m r : Block) : Block × Block × Block :=
  let tL := l ^^^ m ^^^ r
  let tM := l ^^^ r ^^^ mult m r
  (tL, tM, l ^^^ m ^^^ mult m r)

/-- The new `coeffsL[j]`, `coeffsM[j]`, `coeffsR[j]` of `inv_foleageFft`. -/
def invButterfly (l m r : Block) : Block × Block × Block :=
  let tL := l ^^^ m ^^^ r
  let tM := l ^^^ r ^^^ mult m r
  (tL, l ^^^ m ^^^ mult m r, tM)

/-- The loop over `j`, on the span that starts at `off`. -/
def pass (fly : Block → Block → Block → Block × Block × Block) (numCoeffs off : ℕ) (coeffs : Array Block) :
    Array Block :=
  Loop.run numCoeffs (fun j c =>
    let out := fly (read c (off + j)) (read c (off + numCoeffs + j)) (read c (off + 2 * numCoeffs + j))
    let c := write c (off + 2 * numCoeffs + j) out.2.2
    let c := write c (off + j) out.1
    write c (off + numCoeffs + j) out.2.1) coeffs

/-- The recursion that `foleageFft` and `inv_foleageFft` share. -/
def fft (fly : Block → Block → Block → Block × Block × Block) : ℕ → ℕ → ℕ → Array Block → Array Block
  | 0, numCoeffs, off, coeffs => pass fly numCoeffs off coeffs
  | numVars + 1, numCoeffs, off, coeffs =>
    let coeffs := if numVars + 1 > 1 then
        let coeffs := fft fly numVars (numCoeffs / 3) off coeffs
        let coeffs := fft fly numVars (numCoeffs / 3) (off + numCoeffs) coeffs
        fft fly numVars (numCoeffs / 3) (off + 2 * numCoeffs) coeffs
      else coeffs
    pass fly numCoeffs off coeffs

def foleageFft (coeffs : Array Block) (numVars numCoeffs : ℕ) : Array Block := fft butterfly numVars numCoeffs 0 coeffs

def invFoleageFft (coeffs : Array Block) (numVars numCoeffs : ℕ) : Array Block :=
  fft invButterfly numVars numCoeffs 0 coeffs

/-! ### One butterfly -/

theorem bit_maskH {i : ℕ} (h : i < 128) : maskH.bit i = decide (i % 2 = 1) := by
  have hbyte : ∀ i < 8, (0b10101010 : BitVec 8).getLsbD i = decide (i % 2 = 1) := by decide
  rw [maskH, Block.bit_allSame _ h, hbyte _ (by omega), (by omega : i % 8 % 2 = i % 2)]

theorem bit_maskL {i : ℕ} (h : i < 128) : maskL.bit i = decide (i % 2 = 0) := by
  have hbyte : ∀ i < 8, (0b01010101 : BitVec 8).getLsbD i = decide (i % 2 = 0) := by decide
  rw [maskL, Block.bit_allSame _ h, hbyte _ (by omega), (by omega : i % 8 % 2 = i % 2)]

/-- The masks and shifts multiply every lane by `ω = α²`. -/
theorem mult_eq (m r : Block) : mult m r = GF4.omega • (m + r) := by
  refine Block.ext_lane fun k hk => ?_
  have hlo : (mult m r).bit (2 * k) = ((m + r).bit (2 * k) ^^ (m + r).bit (2 * k + 1)) := by
    have hleft : (((m + r) &&& maskL).slliEpi64 1).bit (2 * k) = false := by
      by_cases h : 2 * k % 64 = 0
      · exact Block.bit_slliEpi64_one_bottom _ (by omega) h
      · rw [Block.bit_slliEpi64_one _ (by omega) h, Block.bit_and, bit_maskL (by omega),
          decide_eq_false (by omega), Bool.and_false]
    simp only [mult, Block.xor_eq_add]
    rw [Block.bit_or, Block.bit_add, Block.bit_srliEpi64_one _ (by omega) (by omega), hleft, Block.bit_and,
      Block.bit_and, bit_maskH (by omega), bit_maskL (by omega), decide_eq_true (by omega),
      decide_eq_true (by omega), Bool.and_true, Bool.and_true, Bool.or_false, Bool.xor_comm]
  have hhi : (mult m r).bit (2 * k + 1) = (m + r).bit (2 * k) := by
    have hright : (((m + r) &&& maskH).srliEpi64 1).bit (2 * k + 1) = false := by
      by_cases h : (2 * k + 1) % 64 = 63
      · exact Block.bit_srliEpi64_one_top _ h
      · rw [Block.bit_srliEpi64_one _ (by omega) h, Block.bit_and, bit_maskH (by omega),
          decide_eq_false (by omega), Bool.and_false]
    simp only [mult, Block.xor_eq_add]
    rw [Block.bit_or, Block.bit_add, hright, Block.bit_slliEpi64_one _ (by omega) (by omega), Block.bit_and,
      Block.bit_and, bit_maskL (by omega), bit_maskL (by omega), decide_eq_false (by omega),
      decide_eq_true (by omega), Bool.and_false, Bool.and_true]
    rfl
  rw [Block.lane_smul _ _ hk, Block.lane, hlo, hhi, Block.lane, GF4.omega_mul]

/-- `fly` transforms its three blocks along the character `ψ` of `Z_3`. -/
structure Butterfly (fly : Block → Block → Block → Block × Block × Block) (ψ : ZMod 3 → GF4) : Prop where
  zero : ψ 0 = 1
  add : ∀ a b, ψ (a + b) = ψ a * ψ b
  outL : ∀ l m r, (fly l m r).1 = l + m + r
  outM : ∀ l m r, (fly l m r).2.1 = l + ψ 1 • m + ψ 2 • r
  outR : ∀ l m r, (fly l m r).2.2 = l + ψ 2 • m + ψ 1 • r

theorem omega_sq_smul (x : Block) : (GF4.omega ^ 2) • x = GF4.omega • x + x := by
  rw [(by decide : GF4.omega ^ 2 = GF4.omega + 1), add_smul, one_smul]

theorem butterfly_spec : Butterfly butterfly GF4.cubeChar where
  zero := GF4.cubeChar_zero
  add := GF4.cubeChar_add
  outL _ _ _ := rfl
  outM l m r := by
    show l + r + mult m r = l + GF4.omega ^ 1 • m + GF4.omega ^ 2 • r
    rw [mult_eq, omega_sq_smul, pow_one, smul_add]
    abel
  outR l m r := by
    show l + m + mult m r = l + GF4.omega ^ 2 • m + GF4.omega ^ 1 • r
    rw [mult_eq, omega_sq_smul, pow_one, smul_add]
    abel

theorem invButterfly_spec : Butterfly invButterfly fun z => GF4.cubeChar (-z) where
  zero := by rw [neg_zero, GF4.cubeChar_zero]
  add a b := by rw [neg_add, GF4.cubeChar_add]
  outL _ _ _ := rfl
  outM := butterfly_spec.outR
  outR := butterfly_spec.outM

/-! ### One pass -/

section Pass
variable {fly : Block → Block → Block → Block × Block × Block} {numCoeffs off : ℕ} {a : Array Block}

def passOut (fly : Block → Block → Block → Block × Block × Block) (numCoeffs off : ℕ) (a : Array Block) (j : ℕ) :
    Block × Block × Block :=
  fly (read a (off + j)) (read a (off + numCoeffs + j)) (read a (off + 2 * numCoeffs + j))

/-- After `n` rounds: the slots below `n` hold their triples, all else is as before. -/
structure PassInv (fly : Block → Block → Block → Block × Block × Block) (numCoeffs off : ℕ) (a : Array Block)
    (n : ℕ) (t : Array Block) : Prop where
  size : t.size = a.size
  outL : ∀ j < n, read t (off + j) = (passOut fly numCoeffs off a j).1
  outM : ∀ j < n, read t (off + numCoeffs + j) = (passOut fly numCoeffs off a j).2.1
  outR : ∀ j < n, read t (off + 2 * numCoeffs + j) = (passOut fly numCoeffs off a j).2.2
  rest : ∀ i, (∀ j < n, i ≠ off + j ∧ i ≠ off + numCoeffs + j ∧ i ≠ off + 2 * numCoeffs + j) → read t i = read a i

theorem pass_inv (h : off + 3 * numCoeffs ≤ a.size) : PassInv fly numCoeffs off a numCoeffs (pass fly numCoeffs off a) := by
  refine Loop.run_induct (PassInv fly numCoeffs off a) ⟨rfl, by simp, by simp, by simp, fun _ _ => rfl⟩ ?_
  intro n hn t I
  have hout : fly (read t (off + n)) (read t (off + numCoeffs + n)) (read t (off + 2 * numCoeffs + n)) =
      passOut fly numCoeffs off a n := by
    rw [I.rest _ fun j hj => by omega, I.rest _ fun j hj => by omega, I.rest _ fun j hj => by omega, passOut]
  rw [hout]
  have hsize := I.size
  constructor
  · simp [I.size]
  · intro j hj
    rcases Nat.lt_succ_iff_lt_or_eq.mp hj with hj | rfl
    · rw [read_write_ne (by omega), read_write_ne (by omega), read_write_ne (by omega), I.outL j hj]
    · rw [read_write_ne (by omega), read_write_self (by rw [size_write]; omega)]
  · intro j hj
    rcases Nat.lt_succ_iff_lt_or_eq.mp hj with hj | rfl
    · rw [read_write_ne (by omega), read_write_ne (by omega), read_write_ne (by omega), I.outM j hj]
    · rw [read_write_self (by rw [size_write, size_write]; omega)]
  · intro j hj
    rcases Nat.lt_succ_iff_lt_or_eq.mp hj with hj | rfl
    · rw [read_write_ne (by omega), read_write_ne (by omega), read_write_ne (by omega), I.outR j hj]
    · rw [read_write_ne (by omega), read_write_ne (by omega), read_write_self (by omega)]
  · intro i hi
    have hn := hi n (by omega)
    rw [read_write_ne (by omega), read_write_ne (by omega), read_write_ne (by omega)]
    exact I.rest i fun j hj => hi j (by omega)

end Pass

theorem size_pass (fly : Block → Block → Block → Block × Block × Block) (numCoeffs off : ℕ) (a : Array Block) :
    (pass fly numCoeffs off a).size = a.size := by
  refine Loop.run_induct (fun _ (t : Array Block) => t.size = a.size) rfl fun j _ t ht => ?_
  rw [size_write, size_write, size_write, ht]

/-- Whatever its arguments, the recursion keeps the size of the buffer. -/
theorem size_fft (fly : Block → Block → Block → Block × Block × Block) :
    ∀ (k numCoeffs off : ℕ) (a : Array Block), (fft fly k numCoeffs off a).size = a.size
  | 0, _, _, _ => size_pass ..
  | k + 1, _, _, _ => by
    rw [fft, size_pass]
    split
    · rw [size_fft fly k, size_fft fly k, size_fft fly k]
    · rfl

/-! ### The transform -/

open Matrix Ternary

section Transform
variable {fly : Block → Block → Block → Block × Block × Block} {ψ : ZMod 3 → GF4} {k off : ℕ}

/-- The entries of a buffer at `off + 3^k`-digit indices. -/
def slice (a : Array Block) (k off : ℕ) (x : Fin k → ZMod 3) : Block := read a (off + ofDigits k x)

/-- `a'` is `a` with the `3^k` entries from `off` on transformed along `ψ`. -/
structure Transformed (ψ : ZMod 3 → GF4) (k off : ℕ) (a a' : Array Block) : Prop where
  size : a'.size = a.size
  sum : ∀ x, slice a' k off x = ∑ y, ψ (x ⬝ᵥ y) • slice a k off y
  frame : ∀ i, i < off ∨ off + 3 ^ k ≤ i → read a' i = read a i

theorem slice_snoc (a : Array Block) (k off : ℕ) (x : Fin k → ZMod 3) (d : ZMod 3) :
    slice a (k + 1) off (Fin.snoc x d : Fin (k + 1) → ZMod 3) = slice a k (off + d.val * 3 ^ k) x := by
  rw [slice, slice, ofDigits_snoc, add_assoc]

theorem slice_congr {a a' : Array Block} (h : ∀ i, off ≤ i → i < off + 3 ^ k → read a' i = read a i) :
    slice a' k off = slice a k off := by
  funext x
  exact h _ (by omega) (by have := ofDigits_lt x; omega)

theorem sum_snoc_smul (F : Butterfly fly ψ) (f : (Fin (k + 1) → ZMod 3) → Block) (x : Fin k → ZMod 3)
    (d : ZMod 3) :
    ∑ y, ψ ((Fin.snoc x d : Fin (k + 1) → ZMod 3) ⬝ᵥ y) • f y =
      ∑ b : ZMod 3, ψ (d * b) • ∑ y : Fin k → ZMod 3, ψ (x ⬝ᵥ y) • f (Fin.snoc y b : Fin (k + 1) → ZMod 3) := by
  rw [sum_snoc]
  refine Finset.sum_congr rfl fun b _ => ?_
  rw [Finset.smul_sum]
  refine Finset.sum_congr rfl fun y _ => ?_
  rw [dot_snoc, F.add, smul_smul, mul_comm]

theorem transformed_pass (F : Butterfly fly ψ) {a t : Array Block} (hsize : t.size = a.size)
    (hbound : off + 3 * 3 ^ k ≤ a.size)
    (hslice : ∀ d : ZMod 3, ∀ x, slice t k (off + d.val * 3 ^ k) x =
      ∑ y, ψ (x ⬝ᵥ y) • slice a k (off + d.val * 3 ^ k) y)
    (hframe : ∀ i, i < off ∨ off + 3 * 3 ^ k ≤ i → read t i = read a i) :
    Transformed ψ (k + 1) off a (pass fly (3 ^ k) off t) := by
  have I : PassInv fly (3 ^ k) off t (3 ^ k) (pass fly (3 ^ k) off t) := pass_inv (by omega)
  have hpow : 3 ^ (k + 1) = 3 * 3 ^ k := pow_succ' 3 k
  constructor
  · rw [I.size, hsize]
  · intro z
    obtain ⟨x, d, rfl⟩ : ∃ (x : Fin k → ZMod 3) (d : ZMod 3), z = (Fin.snoc x d : Fin (k + 1) → ZMod 3) :=
      ⟨Fin.init z, z (Fin.last k), (Fin.snoc_init_self z).symm⟩
    have hx := ofDigits_lt x
    -- the three thirds of `t` at the lower digits `x`
    have hthird (b : ZMod 3) : read t (off + b.val * 3 ^ k + ofDigits k x) =
        ∑ y, ψ (x ⬝ᵥ y) • slice a (k + 1) off (Fin.snoc y b : Fin (k + 1) → ZMod 3) := by
      simp only [slice_snoc]
      exact hslice b x
    have hout : passOut fly (3 ^ k) off t (ofDigits k x) =
        fly (read t (off + (0 : ZMod 3).val * 3 ^ k + ofDigits k x))
          (read t (off + (1 : ZMod 3).val * 3 ^ k + ofDigits k x))
          (read t (off + (2 : ZMod 3).val * 3 ^ k + ofDigits k x)) := by
      rw [passOut, ZMod.val_zero, ZMod.val_one, val_two, zero_mul, one_mul, add_zero]
    rw [slice_snoc, sum_snoc_smul F, sum_three, slice]
    obtain rfl | rfl | rfl := cases_three d
    · rw [ZMod.val_zero, zero_mul, add_zero, I.outL _ hx, hout, F.outL, hthird, hthird, hthird]
      simp only [zero_mul, F.zero, one_smul]
    · rw [ZMod.val_one, one_mul, I.outM _ hx, hout, F.outM, hthird, hthird, hthird]
      simp only [mul_zero, F.zero, one_smul, one_mul]
    · rw [val_two, I.outR _ hx, hout, F.outR, hthird, hthird, hthird]
      simp only [mul_zero, F.zero, one_smul, mul_one, (by decide : (2 : ZMod 3) * 2 = 1)]
  · intro i hi
    rw [I.rest i fun j hj => by omega, hframe i (by omega)]

theorem fft_zero (a : Array Block) : fft fly 0 (3 ^ 0 / 3) off a = a := rfl

/-- With `3^k` coefficients in a third, the recursion is always three calls and a pass: one digit below,
    the calls have nothing to do. -/
theorem fft_succ (k off : ℕ) (a : Array Block) :
    fft fly (k + 1) (3 ^ k) off a =
      pass fly (3 ^ k) off (fft fly k (3 ^ k / 3) (off + 2 * 3 ^ k)
        (fft fly k (3 ^ k / 3) (off + 3 ^ k) (fft fly k (3 ^ k / 3) off a))) := by
  rw [fft]
  cases k with
  | zero => rfl
  | succ k => rw [if_pos (by omega)]

/-- The recursion transforms `3^k` entries and leaves the others. -/
theorem fft_transformed (F : Butterfly fly ψ) : ∀ (k off : ℕ) (a : Array Block), off + 3 ^ k ≤ a.size →
    Transformed ψ k off a (fft fly k (3 ^ k / 3) off a)
  | 0, off, a, _ => by
    refine ⟨rfl, fun x => ?_, fun i _ => rfl⟩
    rw [fft_zero, Fintype.sum_subsingleton _ x, dotProduct_of_isEmpty, F.zero, one_smul]
  | k + 1, off, a, h => by
    have hpow : 3 ^ (k + 1) = 3 * 3 ^ k := pow_succ' 3 k
    rw [hpow] at h
    have T₀ := fft_transformed F k off a (by omega)
    have T₁ := fft_transformed F k (off + 3 ^ k) _ (by rw [T₀.size]; omega)
    have T₂ := fft_transformed F k (off + 2 * 3 ^ k) _ (by rw [T₁.size, T₀.size]; omega)
    rw [hpow, Nat.mul_div_cancel_left _ (by omega : 0 < 3), fft_succ]
    refine transformed_pass F ?_ (by omega) (fun d x => ?_) fun i hi => ?_
    · rw [T₂.size, T₁.size, T₀.size]
    · obtain rfl | rfl | rfl := cases_three d
      · rw [ZMod.val_zero, zero_mul, add_zero, ← T₀.sum x]
        refine congrFun (slice_congr fun i hlo hhi => ?_) x
        rw [T₂.frame i (by omega), T₁.frame i (by omega)]
      · rw [ZMod.val_one, one_mul, slice_congr fun i hlo hhi => T₂.frame i (by omega), T₁.sum x,
          slice_congr fun i hlo hhi => T₀.frame i (by omega)]
      · rw [val_two, T₂.sum x, slice_congr fun i hlo hhi => T₁.frame i (by omega),
          slice_congr fun i hlo hhi => T₀.frame i (by omega)]
    · rw [T₂.frame i (by omega), T₁.frame i (by omega), T₀.frame i (by omega)]

end Transform

end ExtFieldPcg
