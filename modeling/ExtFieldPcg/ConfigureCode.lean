import ExtFieldPcg.DualEncode
import ExtFieldPcg.GF128
import ExtFieldPcg.VoleCorrelation

/-! The parameters of `TwoChooseOne/ConfigureCode.cpp` for the codes of `EACode.h` and `ExConvCode.h`, and the encoding
    that `SilentVoleReceiver.h` and `SilentVoleSender.h` choose by `mMultType`. -/

open Buffer

namespace ExtFieldPcg

/-! ### The code -/

/-- The codes that a silent VOLE accumulates with. -/
inductive MultType where
  | exAcc21
  | exAcc40
  | exConv7x24
  | exConv21x24
deriving DecidableEq, Repr

/-- `scaler` of `EAConfigure` and `ExConvConfigure`. -/
def MultType.scaler : MultType → ℕ
  | .exAcc21 | .exAcc40 => 5
  | .exConv7x24 | .exConv21x24 => 2

/-- `getRegNoiseWeight(minDistRatio, N, secParam)`, where the floating-point number `-secParam / d` is `quotient` once it is
    truncated. -/
def getRegNoiseWeight (quotient N : ℕ) : ℕ :=
  let t := max 40 quotient
  let t := if N < 512 then max t 64 else t
  roundUpTo t 8

structure SyndromeDecoding where
  mNumPartitions : ℕ
  mSizePer : ℕ
  mNoiseVecSize : ℕ
deriving DecidableEq, Repr

/-- `syndromeDecodingConfigure` for `mRequestSize` correlations. -/
def syndromeDecodingConfigure (quotient : MultType → ℕ) (mRequestSize : ℕ) (mMultType : MultType) : SyndromeDecoding :=
  let scaler := mMultType.scaler
  let mNumPartitions := getRegNoiseWeight (quotient mMultType) (mRequestSize * scaler)
  let mSizePer := max 4 (roundUpTo (divCeil (mRequestSize * scaler) mNumPartitions) 2)
  ⟨mNumPartitions, mSizePer, mSizePer * mNumPartitions⟩

namespace MultType

/-- `ExConvCode::config(mRequestSize, mNoiseVecSize, expanderWeight, 24)`. -/
def exConv (mRequestSize mNoiseVecSize expanderWeight : ℕ) : ExConvCode :=
  ExConvCode.config mRequestSize mNoiseVecSize expanderWeight 24 true true (block 9996754675674599 56756745976768754)

/-- `EACode::config(mRequestSize, mNoiseVecSize, weight)`. -/
def exAcc (mRequestSize mNoiseVecSize weight : ℕ) : ExpanderCode :=
  EACode.config mRequestSize mNoiseVecSize weight (block 33333 33333)

section Code
variable {F : Type} [Inhabited F] (A : CodeAes) (ctx : CoeffCtx F) (mulConst : F → F) (acc8 : ExConvCode.AccOne8 F)
  (mRequestSize mNoiseVecSize : ℕ)

/-- The encoding of one vector of `mNoiseVecSize` entries. -/
def dualEncode : MultType → Array F → Except Err (Array F)
  | .exConv7x24 => (exConv mRequestSize mNoiseVecSize 7).dualEncode A ctx mulConst acc8
  | .exConv21x24 => (exConv mRequestSize mNoiseVecSize 21).dualEncode A ctx mulConst acc8
  | .exAcc21 => EACode.dualEncodeIter A ctx mulConst (exAcc mRequestSize mNoiseVecSize 21)
  | .exAcc40 => EACode.dualEncodeIter A ctx mulConst (exAcc mRequestSize mNoiseVecSize 40)

def encoded : MultType → Array F → Array F
  | .exConv7x24 => (exConv mRequestSize mNoiseVecSize 7).encoded A ctx mulConst
  | .exConv21x24 => (exConv mRequestSize mNoiseVecSize 21).encoded A ctx mulConst
  | .exAcc21 => EACode.encoded A ctx mulConst (exAcc mRequestSize mNoiseVecSize 21)
  | .exAcc40 => EACode.encoded A ctx mulConst (exAcc mRequestSize mNoiseVecSize 40)

end Code
end MultType

/-! ### Parameters -/

theorem le_roundUpTo (val : ℕ) {d : ℕ} (hd : 0 < d) : val ≤ roundUpTo val d := (Pprf.divCeil_le_iff hd val _).mp le_rfl

theorem roundUpTo_mod (val d : ℕ) : roundUpTo val d % d = 0 := Nat.mul_mod_left _ _

theorem le_getRegNoiseWeight (quotient N : ℕ) : 40 ≤ getRegNoiseWeight quotient N := by
  refine le_trans ?_ (le_roundUpTo _ (by decide))
  split
  · exact (le_max_left 40 quotient).trans (le_max_left _ _)
  · exact le_max_left 40 quotient

theorem le_sizePer_mul (m : ℕ) {count : ℕ} (hcount : 0 < count) : m ≤ max 4 (roundUpTo (divCeil m count) 2) * count :=
  calc m ≤ divCeil m count * count := le_roundUpTo m hcount
    _ ≤ max 4 (roundUpTo (divCeil m count) 2) * count :=
      Nat.mul_le_mul_right count ((le_roundUpTo _ (by decide)).trans (le_max_right 4 _))

theorem sizePer_even (m : ℕ) : max 4 (roundUpTo m 2) % 2 = 0 := by
  rcases max_choice 4 (roundUpTo m 2) with h | h <;> rw [h]
  exact roundUpTo_mod m 2

/-- What the punctured PRF and the encoders ask of the parameters. -/
structure SyndromeDecoding.Fits (p : SyndromeDecoding) (n : ℕ) : Prop where
  batches : p.mNumPartitions % 8 = 0
  partitions : 40 ≤ p.mNumPartitions
  even : p.mSizePer % 2 = 0
  sizePer : 4 ≤ p.mSizePer
  size : p.mNoiseVecSize = p.mSizePer * p.mNumPartitions
  request : 2 * n ≤ p.mNoiseVecSize

theorem syndromeDecodingConfigure_fits (quotient : MultType → ℕ) (n : ℕ) (type : MultType) :
    (syndromeDecodingConfigure quotient n type).Fits n := by
  have hweight := le_getRegNoiseWeight (quotient type) (n * type.scaler)
  refine ⟨roundUpTo_mod _ 8, hweight, sizePer_even _, le_max_left _ _, rfl, ?_⟩
  have hscaler : 2 ≤ type.scaler := by cases type <;> decide
  calc 2 * n ≤ type.scaler * n := Nat.mul_le_mul_right n hscaler
    _ = n * type.scaler := Nat.mul_comm _ _
    _ ≤ (syndromeDecodingConfigure quotient n type).mNoiseVecSize := le_sizePer_mul _ (by omega)

theorem SyndromeDecoding.Fits.le_size {p : SyndromeDecoding} {n : ℕ} (P : p.Fits n) : 160 ≤ p.mNoiseVecSize := by
  rw [P.size]
  exact Nat.mul_le_mul P.sizePer P.partitions

/-! ### The encoding -/

namespace MultType
variable {n N : ℕ} {A : CodeAes}

theorem exConv_sized (hn : 2 * n ≤ N) (hN : 160 ≤ N) (hlt : N < 2 ^ 64) {weight : ℕ} (hpos : 0 < weight)
    (hweight : weight ≤ 21) : (exConv n N weight).Sized := by
  have hrest : (true : Bool).toNat * n = n := Nat.one_mul n
  refine ExConvCode.config_sized (by omega) ?_ (by decide) hpos ?_ hlt _ <;> omega

theorem exAcc_sized (hpos : 0 < N) (hlt : N < 2 ^ 64) (weight : ℕ) : (exAcc n N weight).Sized :=
  ⟨hpos, hlt, fun h => Bool.noConfusion h, Nat.zero_le N⟩

section Encoded
variable {F G : Type} [AddCommGroup F] [AddCommGroup G] [Inhabited F] [Inhabited G] {φ : G →+ F} {ctxF : CoeffCtx F}
  {ctxG : CoeffCtx G} {mulConstF : F → F} {mulConstG : G → G} {acc8 : ExConvCode.AccOne8 F}

omit [AddCommGroup F] in
theorem dualEncode_ok (hacc : ExConvCode.Agrees ctxF acc8) (hn : 2 * n ≤ N) (hN : 160 ≤ N) (hlt : N < 2 ^ 64)
    (type : MultType) {e : Array F} (he : e.size = N) :
    dualEncode A ctxF mulConstF acc8 n N type e = .ok (encoded A ctxF mulConstF n N type e) := by
  have hacc' (weight : ℕ) : EACode.dualEncodeIter A ctxF mulConstF (exAcc n N weight) e = .ok _ :=
    EACode.dualEncodeIter_ok (show 0 < N by omega) he
  cases type with
  | exAcc21 => exact hacc' 21
  | exAcc40 => exact hacc' 40
  | exConv7x24 => exact ExConvCode.dualEncode_ok hacc (exConv_sized hn hN hlt (by decide) (by decide)) e
  | exConv21x24 => exact ExConvCode.dualEncode_ok hacc (exConv_sized hn hN hlt (by decide) (by decide)) e

/-- Every code keeps the correlation. -/
theorem encoded_preserves (L : Linear φ ctxF ctxG mulConstF mulConstG) (hdiv : A.Divides) (hn : 2 * n ≤ N) (hN : 160 ≤ N)
    (hlt : N < 2 ^ 64) (hdefault : (default : F) = default + φ default) (type : MultType) :
    Preserves φ N (encoded A ctxF mulConstF n N type) (encoded A ctxG mulConstG n N type) := by
  have hconv (weight : ℕ) (hpos : 0 < weight) (hweight : weight ≤ 21) :
      Preserves φ N ((exConv n N weight).encoded A ctxF mulConstF) ((exConv n N weight).encoded A ctxG mulConstG) := by
    have hcode : (exConv n N weight).mCodeSize = N := if_neg (by omega)
    have h := ExConvCode.encoded_preserves L hdiv (exConv_sized hn hN hlt hpos hweight) hdefault
    rwa [hcode] at h
  have hacc (weight : ℕ) := EACode.encoded_preserves L hdiv (exAcc_sized (n := n) (by omega : 0 < N) hlt weight)
    (by show n ≤ N; omega) hdefault
  cases type with
  | exAcc21 => exact hacc 21
  | exAcc40 => exact hacc 40
  | exConv7x24 => exact hconv 7 (by decide) (by decide)
  | exConv21x24 => exact hconv 21 (by decide) (by decide)

end Encoded
end MultType

/-! ### The contexts on blocks -/

def mulDelta {ctx : CoeffCtx Block} (X : XorCtx ctx) (delta : Block) : Block →+ Block :=
  AddMonoidHom.mk' (ctx.mul · delta) fun x y => X.add_mul x y delta

theorem linear_gf128 (delta : Block) :
    Linear (mulDelta coeffCtxGF128_xor delta) coeffCtxGF128 coeffCtxGF128 mulConstGF128 mulConstGF128 := by
  refine ⟨fun _ _ => rfl, fun _ _ => rfl, rfl, rfl, fun x y => ?_⟩
  show mulConstGF128 (x + gf128Mul y delta) = mulConstGF128 x + gf128Mul (mulConstGF128 y) delta
  simp only [mulConstGF128_eq, add_gf128Mul, gf128Mul_assoc, gf128Mul_comm delta]

end ExtFieldPcg
