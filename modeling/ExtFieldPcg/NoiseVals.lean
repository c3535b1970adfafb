import ExtFieldPcg.Prime128
import ExtFieldPcg.SilentWalshVole

/-! The noise values that `sampleBaseVoleVals` of the receiver draws, over any context and with the malicious
    check. Its comments ask for values that are not zero, and odd unless the context is a field. -/

open Buffer

namespace ExtFieldPcg

/-! ### The code -/

/-- `CoeffCtxInteger` on an unsigned integer of `w` bits; `expand` stands for the counter mode that fills an integer
    larger than a block. -/
def coeffCtxInteger (w : ℕ) (expand : Block → BitVec w) : CoeffCtx (BitVec w) where
  plus := (· + ·)
  minus := (· - ·)
  mul := (· * ·)
  eq x y := x == y
  isField := false
  bitSize := w
  binaryDecomposition x i := x.getLsbD i
  fromBlock b := if w ≤ 128 then b.bits.setWidth w else expand b
  zero := 0
  one := 1

/-- `gf128Pow`, squaring from the lowest bit of `i` on. -/
def gf128Pow (x : Block) (i : ℕ) : Block :=
  if x = block 0 0 then block 0 0
  else
    (Loop.run (Nat.size i) (fun k st =>
      (if i.testBit k then gf128Mul st.1 st.2 else st.1, gf128Mul st.2 st.2)) (block 0 1, x)).1

/-- What the malicious check appends to the noise values. -/
def malCheckValue (mMalCheckSeed : Block) (mS : Array ℕ) (mBaseC : Array Block) : Block :=
  Loop.run mBaseC.size (fun i sum => sum ^^^ gf128Mul (gf128Pow mMalCheckSeed (read mS i + 1)) (read mBaseC i)) 0

/-- The fields of the receiver that `sampleBaseVoleVals` reads and writes. -/
structure NoiseReceiver (F : Type) where
  mState : State
  malicious : Bool
  mNumPartitions : ℕ
  mGen : RegularPprfReceiver
  mS : Array ℕ
  mBaseC : Array F
  mMalCheckSeed : Block

/-- `sampleBaseVoleVals(prng)`; `malCheck` is the value of the malicious check where `MaliciousSupported` holds, and
    `seed` the draw for it. -/
def NoiseReceiver.sampleBaseVoleVals {F : Type} {ctx : CoeffCtx F}
    (malCheck : Option (Block → Array ℕ → Array F → F)) (r : NoiseReceiver F) (g : NoiseDraws ctx) (seed : Block) :
    Except Err (NoiseReceiver F) :=
  if r.mState = .default then .error .notConfigured
  else
    let mBaseC := Array.ofFn fun i : Fin r.mNumPartitions => g.sample i
    let mS := r.mGen.getPoints
    if r.malicious then
      match malCheck with
      | none => .error .maliciousUnsupported
      | some check => .ok { r with mBaseC := mBaseC.push (check seed mS mBaseC), mS := mS, mMalCheckSeed := seed }
    else .ok { r with mBaseC := mBaseC, mS := mS }

/-- What the function reads of a receiver on blocks. -/
def SilentWalshVoleReceiver.noiseReceiver (r : SilentWalshVoleReceiver) : NoiseReceiver Block where
  mState := r.mState
  malicious := false
  mNumPartitions := r.mNumPartitions
  mGen := r.mGen
  mS := r.mS
  mBaseC := r.mBaseC
  mMalCheckSeed := 0

/-- Semi-honest and on blocks it is the function of a session. -/
theorem sampleBaseVoleVals_session {ctx : CoeffCtx Block} (r : SilentWalshVoleReceiver) (g : NoiseDraws ctx)
    (malCheck : Option (Block → Array ℕ → Array Block → Block)) (seed : Block) :
    r.sampleBaseVoleVals g = (r.noiseReceiver.sampleBaseVoleVals malCheck g seed).map fun v =>
      { r with mBaseC := v.mBaseC, mS := v.mS } := by
  rw [SilentWalshVoleReceiver.sampleBaseVoleVals, NoiseReceiver.sampleBaseVoleVals]
  by_cases h : r.mState = .default
  · have h' : r.noiseReceiver.mState = .default := h
    rw [if_pos h, if_pos h']
    rfl
  · have h' : ¬ r.noiseReceiver.mState = .default := h
    rw [if_neg h, if_neg h']
    rfl

/-! ### What it leaves -/

section Valid
variable {F : Type} {ctx : CoeffCtx F}

/-- The draw that ends the rejection loop of noise value `i`. -/
def NoiseDraws.first (g : NoiseDraws ctx) (i : ℕ) : F := ctx.fromBlock (g.draw i (Nat.find (g.ends i)))

theorem NoiseDraws.first_ne (g : NoiseDraws ctx) (i : ℕ) : ctx.eq ctx.zero (g.first i) = false := Nat.find_spec (g.ends i)

theorem NoiseDraws.first_eq {g : NoiseDraws ctx} {i : ℕ} (h : ctx.eq ctx.zero (ctx.fromBlock (g.draw i 0)) = false) :
    g.first i = ctx.fromBlock (g.draw i 0) := by
  rw [NoiseDraws.first, (Nat.find_eq_zero (g.ends i)).mpr h]

theorem sample_eq (g : NoiseDraws ctx) (i : ℕ) :
    g.sample i = if ctx.bitSize = 1 then ctx.one
      else if ctx.isField = false then
        if ctx.binaryDecomposition (g.first i) 0 then ctx.plus (g.first i) ctx.one else g.first i
      else g.first i := rfl

/-- What the comments of the loop ask of a noise value. -/
def NoiseValid (ctx : CoeffCtx F) (x : F) : Prop :=
  ctx.eq ctx.zero x = false ∧ (ctx.isField = false → ctx.binaryDecomposition x 0 = true)

/-- A context of the residues modulo `m`, on words that need not be reduced. -/
structure Residues (ctx : CoeffCtx F) (m : ℕ) (word : F → ℕ) : Prop where
  notField : ctx.isField = false
  bits : ctx.bitSize ≠ 1
  large : 3 < m
  lt : ∀ x, word x < 2 * m + 2
  eq : ∀ x, ctx.eq ctx.zero x = false ↔ word x % m ≠ 0
  odd : ∀ x, ctx.binaryDecomposition x 0 = decide (word x % 2 = 1)
  succ : ∀ x, word (ctx.plus x ctx.one) = (word x + 1) % m

/-- The contexts that noise is drawn in. -/
inductive NoiseCtx (ctx : CoeffCtx F) where
  | field (h : ctx.isField = true) (one : ctx.eq ctx.zero ctx.one = false)
  | residues (m : ℕ) (word : F → ℕ) (h : Residues ctx m word)

/-- The draws that the loop leaves valid: all of a field, and of the residues the odd words between an odd modulus and
    twice the modulus less one. -/
def NoiseCtx.Keeps : NoiseCtx ctx → F → Prop
  | .field _ _, _ => True
  | .residues m word _, x => word x % 2 = 1 ∧ m % 2 = 1 ∧ m < word x ∧ word x < 2 * m - 1

/-- Adding one modulo `m` keeps an odd `q` odd and nonzero exactly where it passes an odd `m` but not `2m`. -/
theorem odd_succ_mod {m q : ℕ} (hm : 3 < m) (hq : q < 2 * m + 2) (hne : q % m ≠ 0) (hodd : q % 2 = 1) :
    (q + 1) % m ≠ 0 ∧ (q + 1) % m % 2 = 1 ↔ m % 2 = 1 ∧ m < q ∧ q < 2 * m - 1 := by
  have hqm : q ≠ m := by
    rintro rfl
    exact hne (Nat.mod_self q)
  by_cases hlow : q + 1 < m
  · rw [Nat.mod_eq_of_lt hlow]
    omega
  by_cases hmid : q + 1 < 2 * m
  · have hmod : (q + 1) % m = q + 1 - m := by rw [Nat.mod_eq_sub_mod (by omega), Nat.mod_eq_of_lt (by omega)]
    rw [hmod]
    omega
  · have hmod : (q + 1) % m = q + 1 - m - m := by
      rw [Nat.mod_eq_sub_mod (by omega), Nat.mod_eq_sub_mod (by omega), Nat.mod_eq_of_lt (by omega)]
    rw [hmod]
    omega

/-- An even draw is left even, and an odd one gets one more. -/
theorem sample_valid_iff (C : NoiseCtx ctx) (g : NoiseDraws ctx) (i : ℕ) :
    NoiseValid ctx (g.sample i) ↔ C.Keeps (g.first i) := by
  have hne := g.first_ne i
  rw [sample_eq]
  cases C with
  | field hfield hone =>
    refine iff_of_true ?_ trivial
    by_cases hbit : ctx.bitSize = 1
    · simp [NoiseValid, hbit, hone, hfield]
    · simp [NoiseValid, hbit, hne, hfield]
  | residues m word R =>
    rw [if_neg R.bits, if_pos R.notField, NoiseCtx.Keeps]
    rcases Nat.mod_two_eq_zero_or_one (word (g.first i)) with heven | hodd
    · have hbit : ctx.binaryDecomposition (g.first i) 0 = false := by rw [R.odd, heven]; rfl
      simp [NoiseValid, R.notField, hbit, heven]
    · have hbit : ctx.binaryDecomposition (g.first i) 0 = true := by rw [R.odd, hodd]; rfl
      rw [if_pos hbit, NoiseValid, R.eq, R.odd, R.succ, forall_prop_of_true R.notField, decide_eq_true_eq, Nat.mod_mod,
        and_iff_right hodd]
      exact odd_succ_mod R.large (R.lt _) ((R.eq _).mp hne) hodd

variable {malCheck : Option (Block → Array ℕ → Array F → F)} {r r' : NoiseReceiver F} {g : NoiseDraws ctx} {seed : Block}

theorem sampleBaseVoleVals_read [Inhabited F] (h : r.sampleBaseVoleVals malCheck g seed = .ok r') {i : ℕ}
    (hi : i < r.mNumPartitions) : read r'.mBaseC i = g.sample i := by
  have hsample : read (Array.ofFn fun i : Fin r.mNumPartitions => g.sample i) i = g.sample i := read_ofFn g.sample hi
  unfold NoiseReceiver.sampleBaseVoleVals at h
  by_cases hstate : r.mState = .default
  · simp [hstate] at h
  rw [if_neg hstate] at h
  cases hmal : r.malicious with
  | false =>
    rw [hmal] at h
    cases h
    exact hsample
  | true =>
    rw [hmal] at h
    cases malCheck with
    | none => cases h
    | some check =>
      cases h
      -- the value of the check comes after the noise values
      rw [read_push (by simpa using hi)]
      exact hsample

/-- The noise is valid exactly when every draw that is taken stays valid. -/
theorem sampleBaseVoleVals_valid_iff [Inhabited F] (C : NoiseCtx ctx) (h : r.sampleBaseVoleVals malCheck g seed = .ok r') :
    (∀ i < r.mNumPartitions, NoiseValid ctx (read r'.mBaseC i)) ↔ ∀ i < r.mNumPartitions, C.Keeps (g.first i) := by
  refine forall₂_congr fun i hi => ?_
  rw [sampleBaseVoleVals_read h hi]
  exact sample_valid_iff C g i

end Valid

/-! ### The contexts of the repository -/

def NoiseCtx.gf2 : NoiseCtx coeffCtxGF2 := .field rfl rfl

def NoiseCtx.gf128 : NoiseCtx coeffCtxGF128 := .field rfl rfl

def NoiseCtx.gf128F4 : NoiseCtx coeffCtxGF128F4 := .field rfl rfl

theorem decide_odd {w : ℕ} (x : BitVec w) : x.getLsbD 0 = decide (x.toNat % 2 = 1) := Nat.testBit_zero ..

theorem residues_integer {w : ℕ} (hw : 1 < w) (expand : Block → BitVec w) :
    Residues (coeffCtxInteger w expand) (2 ^ w) BitVec.toNat where
  notField := rfl
  bits := Nat.ne_of_gt hw
  large := (Nat.pow_le_pow_right (by decide) hw : 2 ^ 2 ≤ 2 ^ w)
  lt x := x.isLt.trans_le (by omega)
  eq x := by
    rw [Nat.mod_eq_of_lt x.isLt]
    show (0 == x) = false ↔ x.toNat ≠ 0
    rw [beq_eq_false_iff_ne, ne_comm, ne_eq, ne_eq, BitVec.toNat_eq]
    rfl
  odd x := decide_odd x
  succ x := by
    have hone : (1 : BitVec w).toNat = 1 := Nat.mod_eq_of_lt (Nat.one_lt_two_pow (by omega))
    exact (BitVec.toNat_add x 1).trans (by rw [hone])

/-- `Z_2^w`, the values of `CoeffCtxInteger` and of `CoeffCtxArray`; no draw stays valid. -/
def NoiseCtx.integer {w : ℕ} (hw : 1 < w) (expand : Block → BitVec w) : NoiseCtx (coeffCtxInteger w expand) :=
  .residues (2 ^ w) BitVec.toNat (residues_integer hw expand)

theorem not_keeps_integer {w : ℕ} (hw : 1 < w) (expand : Block → BitVec w) (x : BitVec w) :
    ¬ (NoiseCtx.integer hw expand).Keeps x := by
  rintro ⟨-, hodd, -⟩
  have heven : 2 ^ w % 2 = 0 := Nat.mod_eq_zero_of_dvd (dvd_pow_self 2 (by omega))
  omega

/-- The integers modulo `2^127 - 1`, on 128-bit words. -/
def NoiseCtx.prime128 : NoiseCtx Prime128.ctx.toCoeffCtx :=
  .residues Prime128.p BitVec.toNat
    { notField := rfl
      bits := by decide
      large := by decide
      lt x := x.isLt
      eq x := by
        have h : Prime128.eq 0 x = false ↔ x.toNat % Prime128.p ≠ 0 := by
          rw [← Bool.not_eq_true, Prime128.eq_iff]
          exact not_congr ⟨fun h => h.symm, fun h => h.symm⟩
        exact h
      odd x := decide_odd x
      succ x := (Prime128.toNat_plus x 1).2 }

theorem sampleBaseVoleVals_integer {w : ℕ} (hw : 1 < w) {expand : Block → BitVec w}
    {malCheck : Option (Block → Array ℕ → Array (BitVec w) → BitVec w)} {r r' : NoiseReceiver (BitVec w)}
    {g : NoiseDraws (coeffCtxInteger w expand)} {seed : Block} (h : r.sampleBaseVoleVals malCheck g seed = .ok r')
    {i : ℕ} (hi : i < r.mNumPartitions) : ¬ NoiseValid (coeffCtxInteger w expand) (read r'.mBaseC i) := by
  rw [sampleBaseVoleVals_read h hi, sample_valid_iff (.integer hw expand)]
  exact not_keeps_integer hw expand _

/-! ### Runs -/

/-- A configured receiver of 64 partitions. -/
def NoiseReceiver.fresh (F : Type) : NoiseReceiver F where
  mState := .configured
  malicious := false
  mNumPartitions := 64
  mGen := { mDomain := 2, mDepth := 1, mPntCount := 64 }
  mS := #[]
  mBaseC := #[]
  mMalCheckSeed := 0

/-- Draws of one block for each value. -/
def NoiseDraws.always {F : Type} (ctx : CoeffCtx F) (x : ℕ → Block)
    (h : ∀ i, ctx.eq ctx.zero (ctx.fromBlock (x i)) = false) : NoiseDraws ctx := ⟨fun i _ => x i, fun i => ⟨0, h i⟩⟩

theorem first_always {F : Type} {ctx : CoeffCtx F} {x : ℕ → Block}
    (h : ∀ i, ctx.eq ctx.zero (ctx.fromBlock (x i)) = false) (i : ℕ) :
    (NoiseDraws.always ctx x h).first i = ctx.fromBlock (x i) := NoiseDraws.first_eq (h i)

/-- Modulo `2^127 - 1` the odd word `2^127 + 1` is a draw that stays valid. -/
theorem sampleBaseVoleVals_valid_iff_prime128 :
    ∃ (g : NoiseDraws Prime128.ctx.toCoeffCtx) (r' : NoiseReceiver (BitVec 128)),
      (NoiseReceiver.fresh (BitVec 128)).sampleBaseVoleVals none g 0 = .ok r' ∧
        ∀ i < 64, NoiseValid Prime128.ctx.toCoeffCtx (read r'.mBaseC i) := by
  let g := NoiseDraws.always Prime128.ctx.toCoeffCtx (fun _ => ⟨1#128 <<< 127 ||| 1#128⟩) fun _ => by decide
  obtain ⟨r', h⟩ : ∃ r', (NoiseReceiver.fresh (BitVec 128)).sampleBaseVoleVals none g 0 = .ok r' := ⟨_, rfl⟩
  refine ⟨g, r', h, (sampleBaseVoleVals_valid_iff .prime128 h).mpr fun i _ => ?_⟩
  rw [first_always, NoiseCtx.prime128, NoiseCtx.Keeps]
  decide

/-- Over `Z_2^8` the draw 1 becomes 2, and the draw 255 becomes 0. -/
theorem sampleBaseVoleVals_fails : ∃ (g : NoiseDraws (coeffCtxInteger 8 fun _ => 0)) (r' : NoiseReceiver (BitVec 8)),
    (NoiseReceiver.fresh (BitVec 8)).sampleBaseVoleVals none g 0 = .ok r' ∧ read r'.mBaseC 0 = 2 ∧
      read r'.mBaseC 1 = 0 ∧ ¬ ∀ i < 64, NoiseValid (coeffCtxInteger 8 fun _ => 0) (read r'.mBaseC i) := by
  have hdraw (i : ℕ) : (coeffCtxInteger 8 fun _ => 0).eq 0
      ((coeffCtxInteger 8 fun _ => 0).fromBlock (if i = 0 then block 0 1 else block 0 255)) = false := by
    by_cases hi : i = 0
    · rw [if_pos hi]
      decide
    · rw [if_neg hi]
      decide
  let g := NoiseDraws.always (coeffCtxInteger 8 fun _ => 0) (fun i => if i = 0 then block 0 1 else block 0 255) hdraw
  have hfirst (i : ℕ) : g.first i = (coeffCtxInteger 8 fun _ => 0).fromBlock (if i = 0 then block 0 1 else block 0 255) :=
    first_always hdraw i
  obtain ⟨r', h⟩ : ∃ r', (NoiseReceiver.fresh (BitVec 8)).sampleBaseVoleVals none g 0 = .ok r' := ⟨_, rfl⟩
  refine ⟨g, r', h, ?_, ?_, fun hall => ?_⟩
  · rw [sampleBaseVoleVals_read h (by decide), sample_eq, hfirst]
    decide
  · rw [sampleBaseVoleVals_read h (by decide), sample_eq, hfirst]
    decide
  · exact sampleBaseVoleVals_integer (by decide) h (by decide : 0 < 64) (hall 0 (by decide))

end ExtFieldPcg
