import ExtFieldPcg.GF128Field
import ExtFieldPcg.VoleProtocol

/-! Sessions with `SilentSecType::Malicious`: one more base VOLE carries the sum of the noise under the powers of a seed,
    and both parties hash their expansions under the same powers (`ferretMalCheck`). -/

open Buffer

namespace ExtFieldPcg

/-! ### The code -/

/-- `ferretMalCheck` of both parties up to the hash: the products are summed before they are reduced. -/
def malSum (X : Block) (v : AlignedUnVector) : Block :=
  let st := Loop.run v.size (fun i st =>
    let xy := mmGf128Mul st.1 (v.get i)
    (gf128Mul st.1 X, st.2.1 ^^^ xy.1, st.2.2 ^^^ xy.2)) (X, (0 : Block), (0 : Block))
  mmGf128Reduce st.2.1 st.2.2

/-- `xs.back()`. -/
def back (xs : Array Block) : Block := read xs (xs.size - 1)

/-- The receiver with the seed of its check. -/
structure MalReceiver extends SilentWalshVoleReceiver where
  mMalCheckSeed : Block := 0

section Code
variable {H : Type} (hash : Block → H)

def MalReceiver.ferretMalCheck (r : MalReceiver) : H := hash (malSum r.mMalCheckSeed r.mA ^^^ back r.mBaseA)

def SilentWalshVoleSender.ferretMalCheck (s : SilentWalshVoleSender) (X : Block) : H :=
  hash (malSum X s.mB ^^^ back s.mBaseB)

end Code

def MalReceiver.sampleBaseVoleVals (r : MalReceiver) (g : NoiseDraws coeffCtxGF128) (seed : Block) :
    Except Err MalReceiver := do
  let v ← NoiseReceiver.sampleBaseVoleVals (some malCheckValue)
    { r.noiseReceiver with malicious := true, mMalCheckSeed := r.mMalCheckSeed } g seed
  .ok { r with mBaseC := v.mBaseC, mS := v.mS, mMalCheckSeed := v.mMalCheckSeed }

/-- `setSilentBaseOts` when `baseVoleCount()` counts the value of the check. -/
def SilentWalshVoleSender.setMalBaseOts (s : SilentWalshVoleSender) (sendBaseOts : Array (Block × Block))
    (b : Array Block) : Except Err SilentWalshVoleSender :=
  if s.mState = .default then .error .notConfigured
  else if sendBaseOts.size ≠ s.mGen.baseOtCount then .error .rteLoc
  else if b.size ≠ s.mNumPartitions + 1 then .error .rteLoc
  else do
    let gen ← s.mGen.setBase s.mGen.mPntCount sendBaseOts
    .ok { s with
      mGen := gen
      mBaseB := Array.ofFn fun i : Fin b.size => coeffCtxGF128.minus coeffCtxGF128.zero (read b i) }

structure MalParties where
  recv : MalReceiver := {}
  send : SilentWalshVoleSender := {}

structure MalDraws extends ProtocolDraws coeffCtxGF128 where
  /-- `prng.get()`, the seed of the check. -/
  malSeed : Block

inductive MalErr where
  | err (e : Err)
  /-- "malcicious security check failed. " -/
  | checkFailed

namespace MalParties

/-- What the steps that know nothing of the check work on. -/
def parties (P : MalParties) : Parties := ⟨P.recv.toSilentWalshVoleReceiver, P.send⟩

def withParties (P : MalParties) (Q : Parties) : MalParties :=
  ⟨{ P.recv with toSilentWalshVoleReceiver := Q.recv }, Q.send⟩

def genSilentBaseOts (A : PprfAes) (g : MalDraws) (delta : Block) (P : MalParties) : Except Err MalParties := do
  let recv ← P.recv.toSilentWalshVoleReceiver.sampleBaseChoiceBits g.words
  let recv ← { P.recv with toSilentWalshVoleReceiver := recv }.sampleBaseVoleVals g.noise g.malSeed
  let depth := recv.mGen.mDepth
  let msg := Array.ofFn fun i : Fin P.send.mGen.baseOtCount => g.baseOt i
  let recvMsg := Array.ofFn fun i : Fin recv.mGen.baseOtCount =>
    TernaryDpf.key (g.baseOt i) (recv.mGen.mBaseChoices (i / depth) (i % depth))
  let vole ← NoisyVole.run coeffCtxGF128.noisy A.prngBlock g.voleOt recv.mBaseC delta
  let base ← recv.toSilentWalshVoleReceiver.setSilentBaseOts recvMsg vole.1
  let send ← P.send.setMalBaseOts msg vole.2
  .ok ⟨{ recv with toSilentWalshVoleReceiver := base }, send⟩

def ensureBaseOts (A : PprfAes) (g : MalDraws) (delta : Block) (P : MalParties) : Except Err MalParties :=
  match P.recv.mGen.hasBaseOts, P.send.mGen.hasBaseOts with
  | true, true => .ok P
  | false, false => P.genSilentBaseOts A g delta
  | _, _ => .error .blocked

/-- Both `Inplace` functions on the size `n`, up to the check. -/
def beforeCheck (A : PprfAes) (g : MalDraws) (delta : Block) (n : ℕ) (P : MalParties) : Except Err MalParties := do
  let Q ← P.parties.start n
  let P ← (P.withParties Q).ensureBaseOts A g delta
  let Q ← Protocol.expand A g.toProtocolDraws P.parties
  .ok (P.withParties Q)

variable {H : Type} [DecidableEq H]

/-- The receiver sends its seed, the sender its hash. -/
def check (hash : Block → H) (P : MalParties) : Except MalErr MalParties :=
  let myHash := P.recv.ferretMalCheck hash
  let theirHash := P.send.ferretMalCheck hash P.recv.mMalCheckSeed
  if theirHash ≠ myHash then .error .checkFailed else .ok P

/-- Both `Inplace` functions on the size `n`, up to the encoding. -/
def beforeEncoding (hash : Block → H) (A : PprfAes) (g : MalDraws) (delta : Block) (n : ℕ) (P : MalParties) :
    Except MalErr MalParties := do
  let P ← (P.beforeCheck A g delta n).mapError .err
  P.check hash

end MalParties

/-! ### The sums in the field -/

theorem toRing_malSum (X : Block) (v : AlignedUnVector) :
    GF128.toRing (malSum X v) = ∑ i ∈ Finset.range v.size, GF128.toRing X ^ (i + 1) * GF128.toRing (v.get i) := by
  have hrun := Loop.run_induct (n := v.size) (s := (X, (0 : Block), (0 : Block)))
    (f := fun i st =>
      let xy := mmGf128Mul st.1 (v.get i)
      (gf128Mul st.1 X, st.2.1 ^^^ xy.1, st.2.2 ^^^ xy.2))
    (fun i st => GF128.toRing st.1 = GF128.toRing X ^ (i + 1) ∧ GF128.toRing (mmGf128Reduce st.2.1 st.2.2) =
      ∑ j ∈ Finset.range i, GF128.toRing X ^ (j + 1) * GF128.toRing (v.get j)) ⟨?_, ?_⟩ ?_
  · exact hrun.2
  · rw [zero_add, pow_one]
  · have hzero : mmGf128Reduce 0 0 = 0 := by decide
    rw [Finset.sum_range_zero]
    exact (congrArg GF128.toRing hzero).trans (map_zero GF128.toRing)
  · rintro i - st ⟨hx, hsum⟩
    have hpow : GF128.toRing (gf128Mul st.1 X) = GF128.toRing X ^ (i + 1 + 1) := by
      rw [GF128.toRing_gf128Mul, hx, ← pow_succ]
    refine ⟨hpow, ?_⟩
    rw [Finset.sum_range_succ, ← hsum, ← hx, ← GF128.toRing_gf128Mul, ← map_add]
    exact congrArg GF128.toRing (mmGf128Reduce_add ..)

theorem toRing_malCheckValue (seed : Block) (mS : Array ℕ) (mBaseC : Array Block) :
    GF128.toRing (malCheckValue seed mS mBaseC) =
      ∑ i ∈ Finset.range mBaseC.size, GF128.toRing seed ^ (read mS i + 1) * GF128.toRing (read mBaseC i) := by
  rw [malCheckValue]
  refine Loop.run_induct (fun i sum => GF128.toRing sum =
    ∑ j ∈ Finset.range i, GF128.toRing seed ^ (read mS j + 1) * GF128.toRing (read mBaseC j)) (map_zero GF128.toRing) fun i _ sum hsum => ?_
  rw [Finset.sum_range_succ, ← hsum, Block.xor_eq_add, map_add, GF128.toRing_gf128Mul, toRing_gf128Pow (.inr (Nat.succ_ne_zero _))]

/-! ### What the check decides -/

section Check
variable {r : MalReceiver} {s : SilentWalshVoleSender} {H : Type} {hash : Block → H} {n : ℕ} {delta : Block}

/-- How far entry `i` of the expansions is from its correlation. -/
def malError (r : MalReceiver) (s : SilentWalshVoleSender) (delta : Block) (i : ℕ) : Block :=
  r.mA.get i + (s.mB.get i + gf128Mul (r.mC.get i) delta)

/-- The base VOLE of the check is that of the vector of the receiver under the powers of its seed. -/
def MalBase (r : MalReceiver) (s : SilentWalshVoleSender) (delta : Block) : Prop :=
  back r.mBaseA + back s.mBaseB = gf128Mul (malSum r.mMalCheckSeed r.mC) delta

/-- Both hashes agree exactly where the seed is a root of the polynomial of the errors. -/
theorem ferretMalCheck_eq_iff (hinj : Function.Injective hash) (hA : r.mA.size = n) (hB : s.mB.size = n)
    (hC : r.mC.size = n) (hbase : MalBase r s delta) :
    s.ferretMalCheck hash r.mMalCheckSeed = r.ferretMalCheck hash ↔
      ∑ i ∈ Finset.range n, GF128.toRing r.mMalCheckSeed ^ (i + 1) * GF128.toRing (malError r s delta i) = 0 := by
  rw [SilentWalshVoleSender.ferretMalCheck, MalReceiver.ferretMalCheck, hinj.eq_iff, Block.xor_eq_add, Block.xor_eq_add,
    ← Block.add_eq_zero_iff, ← map_eq_zero_iff GF128.toRing GF128.toRing_injective]
  have hsum : GF128.toRing (malSum r.mMalCheckSeed s.mB + back s.mBaseB + (malSum r.mMalCheckSeed r.mA + back r.mBaseA)) =
      GF128.toRing (malSum r.mMalCheckSeed r.mA) + (GF128.toRing (malSum r.mMalCheckSeed s.mB) +
        GF128.toRing (malSum r.mMalCheckSeed r.mC) * GF128.toRing delta) := by
    rw [← GF128.toRing_gf128Mul, ← hbase]
    simp only [map_add]
    abel
  rw [hsum, toRing_malSum, toRing_malSum, toRing_malSum, hA, hB, hC, Finset.sum_mul, ← Finset.sum_add_distrib,
    ← Finset.sum_add_distrib]
  refine Eq.congr_left (Finset.sum_congr rfl fun i _ => ?_)
  rw [malError, map_add, map_add, GF128.toRing_gf128Mul]
  ring

variable [DecidableEq H]

/-- The receiver with another seed and base VOLE for its check. -/
def MalReceiver.withBase (r : MalReceiver) (X : Block) (baseA : Array Block) : MalReceiver :=
  { r with mMalCheckSeed := X, mBaseA := baseA }

def SilentWalshVoleSender.withBase (s : SilentWalshVoleSender) (baseB : Array Block) : SilentWalshVoleSender :=
  { s with mBaseB := baseB }

/-- Where the expansions are not correlated, all but `n` seeds make the check fail, whatever the base VOLE hides. -/
theorem check_sound (hinj : Function.Injective hash) (hA : r.mA.size = n) (hB : s.mB.size = n) (hC : r.mC.size = n)
    (hwrong : ∃ i < n, r.mA.get i ≠ s.mB.get i + gf128Mul (r.mC.get i) delta) :
    ∃ S : Finset Block, S.card ≤ n ∧ ∀ X baseA baseB, MalBase (r.withBase X baseA) (s.withBase baseB) delta →
      (∃ P, MalParties.check hash ⟨r.withBase X baseA, s.withBase baseB⟩ = .ok P) → X ∈ S := by
  have herror : ∃ i < n, GF128.toRing (malError r s delta i) ≠ 0 := by
    obtain ⟨i, hi, hne⟩ := hwrong
    refine ⟨i, hi, fun h => hne ?_⟩
    exact Block.add_eq_zero_iff.mp ((map_eq_zero_iff GF128.toRing GF128.toRing_injective).mp h)
  obtain ⟨S, hcard, hroots⟩ := exists_finset_roots herror
  refine ⟨S, hcard, fun X baseA baseB hbase hcheck => hroots X ?_⟩
  refine (ferretMalCheck_eq_iff (r := r.withBase X baseA) (s := s.withBase baseB) hinj hA hB hC hbase).mp ?_
  by_contra hne
  obtain ⟨P, hP⟩ := hcheck
  rw [MalParties.check, if_pos hne] at hP
  cases hP

/-- Expansions of one block that are not correlated. -/
theorem check_sound_one :
    let r : MalReceiver := { mA := ⟨#[block 0 1], 1, le_rfl⟩, mC := ⟨#[0], 1, le_rfl⟩ }
    let s : SilentWalshVoleSender := { mB := ⟨#[0], 1, le_rfl⟩ }
    ∃ S : Finset Block, S.card ≤ 1 ∧ ∀ X baseA baseB, MalBase (r.withBase X baseA) (s.withBase baseB) (block 0 2) →
      (∃ P, MalParties.check id ⟨r.withBase X baseA, s.withBase baseB⟩ = .ok P) → X ∈ S :=
  check_sound Function.injective_id rfl rfl rfl ⟨0, by decide, by decide⟩

theorem check_of_corr (hA : r.mA.size = n) (hB : s.mB.size = n) (hC : r.mC.size = n) (hbase : MalBase r s delta)
    (hcorr : ∀ i < n, r.mA.get i = s.mB.get i + gf128Mul (r.mC.get i) delta) (hash : Block → H) :
    MalParties.check hash ⟨r, s⟩ = .ok ⟨r, s⟩ := by
  have hid : s.ferretMalCheck id r.mMalCheckSeed = r.ferretMalCheck id := by
    refine (ferretMalCheck_eq_iff Function.injective_id hA hB hC hbase).mpr (Finset.sum_eq_zero fun i hi => ?_)
    rw [malError, hcorr i (Finset.mem_range.mp hi), Block.add_self, map_zero, mul_zero]
  exact if_neg (not_not.mpr (congrArg hash hid))

end Check

/-! ### Honest sessions -/

/-- The sum under the powers of the seed reads the noise alone. -/
theorem malCheckValue_eq {v : AlignedUnVector} {seed : Block} {mS : Array ℕ} {mBaseC : Array Block} {S : ℕ → ℕ}
    (hS : ∀ j < mBaseC.size, read mS j = S j) (hinj : ∀ i j, S i = S j → i = j) (hlt : ∀ j < mBaseC.size, S j < v.size)
    (hat : ∀ j < mBaseC.size, v.get (S j) = read mBaseC j)
    (hoff : ∀ x < v.size, (∀ j < mBaseC.size, S j ≠ x) → v.get x = 0) :
    malCheckValue seed mS mBaseC = malSum seed v := by
  apply GF128.toRing_injective
  rw [toRing_malCheckValue, toRing_malSum]
  have hterm (x : ℕ) (hx : x ∈ Finset.range v.size) (hne : x ∉ (Finset.range mBaseC.size).image S) :
      GF128.toRing seed ^ (x + 1) * GF128.toRing (v.get x) = 0 := by
    rw [hoff x (Finset.mem_range.mp hx) fun j hj h => hne (Finset.mem_image.mpr ⟨j, Finset.mem_range.mpr hj, h⟩), map_zero,
      mul_zero]
  have himage : (Finset.range mBaseC.size).image S ⊆ Finset.range v.size := by
    rintro x hx
    obtain ⟨j, hj, rfl⟩ := Finset.mem_image.mp hx
    exact Finset.mem_range.mpr (hlt j (Finset.mem_range.mp hj))
  rw [← Finset.sum_subset himage hterm, Finset.sum_image fun i _ j _ => hinj i j]
  refine Finset.sum_congr rfl fun j hj => ?_
  have hj := Finset.mem_range.mp hj
  rw [hS j hj, hat j hj]

section Honest
variable {A : PprfAes} {g : MalDraws} {delta : Block} {domain : ℕ} {P P' : MalParties}

/-- The values of the base VOLE: the noise and then the value of the check. -/
def malBaseC (domain : ℕ) (g : MalDraws) : Array Block :=
  let noise := Array.ofFn fun i : Fin 64 => g.noise.sample i
  noise.push (malCheckValue g.malSeed (receiverGen domain g.words #[]).getPoints noise)

theorem size_malBaseC : (malBaseC domain g).size = 65 := by simp [malBaseC]

theorem read_malBaseC {j : ℕ} (hj : j < 64) : read (malBaseC domain g) j = g.noise.sample j :=
  (read_push (by simpa using hj) _).trans (read_ofFn g.noise.sample hj)

theorem back_eq {xs : Array Block} {n : ℕ} (h : xs.size = n + 1) : back xs = read xs n := by rw [back, h, Nat.add_sub_cancel]

theorem back_push (xs : Array Block) (x : Block) : back (xs.push x) = x := by simp [back, Buffer.read]

theorem back_malBaseC : back (malBaseC domain g) = malCheckValue g.malSeed (receiverGen domain g.words #[]).getPoints
    (Array.ofFn fun i : Fin 64 => g.noise.sample i) := by
  rw [malBaseC]
  exact back_push _ _

def malSampled (domain : ℕ) (g : MalDraws) (r : MalReceiver) : MalReceiver :=
  ⟨{ sampled domain g.toSessionDraws r.toSilentWalshVoleReceiver with mBaseC := malBaseC domain g }, g.malSeed⟩

theorem malSample_ok (C : Configured domain P.parties) :
    (do
      let recv ← P.recv.toSilentWalshVoleReceiver.sampleBaseChoiceBits g.words
      MalReceiver.sampleBaseVoleVals { P.recv with toSilentWalshVoleReceiver := recv } g.noise g.malSeed) =
      .ok (malSampled domain g P.recv) := by
  have hstate : P.recv.mState ≠ .default := fun h => by
    have hconf : P.recv.mState = .configured := C.recv
    rw [h] at hconf
    cases hconf
  have hgen : P.recv.mGen.sampleChoiceBits g.words = receiverGen domain g.words #[] := by
    have hrecv : P.recv.mGen.toRegularPprf = _ := C.recvGen
    rw [RegularPprfReceiver.sampleChoiceBits, hrecv]
    rfl
  have hcount : P.recv.mNumPartitions = 64 := C.recvCount
  rw [SilentWalshVoleReceiver.sampleBaseChoiceBits, if_neg hstate, ok_bind, MalReceiver.sampleBaseVoleVals,
    NoiseReceiver.sampleBaseVoleVals]
  simp only [SilentWalshVoleReceiver.noiseReceiver, hgen, hstate, if_false, if_true, ok_bind]
  rw [hcount]
  rfl

/-- The base OTs of the receiver do not depend on its noise. -/
theorem setSilentBaseOts_withC (r : SilentWalshVoleReceiver) (c recvBaseOts baseA : Array Block) :
    SilentWalshVoleReceiver.setSilentBaseOts { r with mBaseC := c } recvBaseOts baseA =
      (r.setSilentBaseOts recvBaseOts baseA).map fun r' => { r' with mBaseC := c } := by
  rw [SilentWalshVoleReceiver.setSilentBaseOts, SilentWalshVoleReceiver.setSilentBaseOts]
  split
  · rfl
  · split
    · rfl
    · cases r.mGen.setBase ((r.mGen.mPntCount + 7) / 8 * 8) recvBaseOts <;> rfl

theorem setMalRecv_ok (C : Configured domain P.parties) (baseA : Array Block) :
    (malSampled domain g P.recv).toSilentWalshVoleReceiver.setSilentBaseOts (baseOTs domain g.toSessionDraws) baseA =
      .ok { (malSampled domain g P.recv).toSilentWalshVoleReceiver with
        mGen := receiverGen domain g.words (Array.ofFn fun i : Fin ((64 + 7) / 8 * 8 * log2ceil domain) =>
          read (baseOTs domain g.toSessionDraws) i)
        mBaseA := baseA
        mState := .hasBase } := by
  rw [malSampled, setSilentBaseOts_withC]
  exact congrArg (Except.map _) (C.setRecv_ok g.toSessionDraws baseA)

theorem setMalSend_ok (C : Configured domain P.parties) {b : Array Block} (hb : b.size = 65) :
    P.send.setMalBaseOts (Array.ofFn fun i : Fin (log2ceil domain * 64) => g.baseOt i) b = .ok { P.send with
      mGen := ⟨domain, log2ceil domain, 64, Array.ofFn fun i : Fin (64 * log2ceil domain) =>
        read (Array.ofFn fun i : Fin (log2ceil domain * 64) => g.baseOt i) i⟩
      mBaseB := Array.ofFn fun i : Fin b.size => coeffCtxGF128.minus coeffCtxGF128.zero (read b i) } := by
  have hconf : P.send.mState = .configured := C.send
  have hgen : P.send.mGen = _ := C.sendGen
  have hcount : P.send.mNumPartitions = 64 := C.sendCount
  rw [SilentWalshVoleSender.setMalBaseOts, if_neg (by rw [hconf]; decide), hgen, RegularPprf.baseOtCount, if_neg (by simp),
    if_neg (by simp [hb, hcount]), RegularPprf.setBase, RegularPprf.baseOtCount, if_neg (by simp), ok_bind]

/-- The parties hold their base OTs and the base VOLE of the noise and of the check. -/
structure MalWithBase (g : MalDraws) (delta : Block) (domain : ℕ) (P : MalParties) : Prop where
  base : WithBase coeffCtxGF128 g.toSessionDraws delta domain P.parties
  valid : P.recv.mGen.Valid
  seed : P.recv.mMalCheckSeed = g.malSeed
  last : back P.recv.mBaseA + back P.send.mBaseB = gf128Mul (malCheckValue g.malSeed
    (receiverGen domain g.words #[]).getPoints (Array.ofFn fun i : Fin 64 => g.noise.sample i)) delta

theorem malEnsureBaseOts_ok (A : PprfAes) (g : MalDraws) (delta : Block) (C : Configured domain P.parties)
    (heven : domain % 2 = 0) (htwo : 2 ≤ domain) :
    ∃ P', P.ensureBaseOts A g delta = .ok P' ∧ MalWithBase g delta domain P' := by
  have hrecv : P.recv.mGen.hasBaseOts = false := by
    have hgen : P.recv.mGen.toRegularPprf = _ := C.recvGen
    simp [RegularPprf.hasBaseOts, hgen]
  have hsend : P.send.mGen.hasBaseOts = false := by
    have hgen : P.send.mGen = _ := C.sendGen
    simp [RegularPprf.hasBaseOts, hgen]
  have hcount : P.send.mGen.baseOtCount = log2ceil domain * 64 := by
    have hgen : P.send.mGen = _ := C.sendGen
    rw [hgen]
    rfl
  obtain ⟨a, b, hvole, ha, hb, hspec⟩ := NoisyVole.run_spec coeffCtxGF128_bit.noisy_exact A.prngBlock g.voleOt
    (c := malBaseC domain g) (by rw [size_malBaseC]; decide) delta
  rw [size_malBaseC] at ha hb hspec
  have hset := setMalRecv_ok (g := g) C a
  have hset' := setMalSend_ok (g := g) C hb
  have hgen : P.genSilentBaseOts A g delta = (do
      let base ← (malSampled domain g P.recv).toSilentWalshVoleReceiver.setSilentBaseOts (baseOTs domain g.toSessionDraws) a
      let send ← P.send.setMalBaseOts (Array.ofFn fun i : Fin (log2ceil domain * 64) => g.baseOt i) b
      .ok ⟨{ malSampled domain g P.recv with toSilentWalshVoleReceiver := base }, send⟩) := by
    rw [MalParties.genSilentBaseOts, ← bind_assoc, malSample_ok C, ok_bind, hcount]
    have hC : (malSampled domain g P.recv).mBaseC = malBaseC domain g := rfl
    rw [hC, hvole]
    rfl
  rw [hset, ok_bind, hset', ok_bind] at hgen
  have hread (j : ℕ) (hj : j < 65) : read (Array.ofFn fun i : Fin b.size =>
      coeffCtxGF128.minus coeffCtxGF128.zero (read b i)) j = read b j := by
    rw [read_ofFn (fun i => coeffCtxGF128.minus coeffCtxGF128.zero (read b i)) (hb.symm ▸ hj)]
    exact zero_add _
  have hsum (j : ℕ) (hj : j < 65) :
      read a j + read b j = gf128Mul (read (malBaseC domain g) j) delta := by
    have hj := hspec j hj
    refine (congrArg (· + read b j) hj).trans ?_
    rw [add_right_comm]
    exact (congrArg (· + _) (Block.add_self _)).trans (zero_add _)
  rw [MalParties.ensureBaseOts, hrecv, hsend]
  refine ⟨_, hgen, ⟨C.recvSize, C.sendSize, rfl, C.sendCount, rfl, rfl, receiverGen_matched (by omega) g.toSessionDraws, rfl,
    fun j hj => getPoints_receiverGen (by omega) g.words _ hj, fun j hj => read_malBaseC hj, fun j hj => ?_,
    C.mA, C.mC, C.mB⟩, ⟨heven, htwo, rfl⟩, rfl, ?_⟩
  · have hcount : P.send.mNumPartitions = 64 := C.sendCount
    have hbaseB := read_ofFn (read (Array.ofFn fun i : Fin b.size =>
      coeffCtxGF128.minus coeffCtxGF128.zero (read b i))) (hcount.symm ▸ hj)
    exact (congrArg (read a j + ·) (hbaseB.trans (hread j (by omega)))).trans (hsum j (by omega))
  · have h64 := hsum 64 (by decide)
    rw [← hread 64 (by decide), ← back_eq ha, ← back_eq (Array.size_ofFn.trans hb), ← back_eq size_malBaseC,
      back_malBaseC] at h64
    exact h64

theorem malCheckValue_noise (hdomain : 0 < domain) {Q : Parties} (E : Expanded coeffCtxGF128 g.toSessionDraws delta domain Q) :
    malCheckValue g.malSeed (receiverGen domain g.words #[]).getPoints (Array.ofFn fun i : Fin 64 => g.noise.sample i) =
      malSum g.malSeed Q.recv.mC := by
  have hsize : (Array.ofFn fun i : Fin 64 => g.noise.sample i).size = 64 := Array.size_ofFn
  refine malCheckValue_eq (S := noisePoint domain g.words) ?_ (fun i j => noisePoint_inj hdomain) ?_ ?_ ?_
  · rw [hsize]
    exact fun j hj => getPoints_receiverGen hdomain g.words #[] hj
  · rw [hsize, E.sizeC]
    exact fun j hj => noisePoint_lt g.words hdomain hj
  · rw [hsize]
    exact fun j hj => (E.noise j hj).trans (read_ofFn g.noise.sample hj).symm
  · rw [hsize, E.sizeC]
    exact E.zero

variable {H : Type} [DecidableEq H]

/-- The check lets every honest session pass, and its expansions are correlated. -/
theorem MalParties.check_honest (I : Idle P.parties) (hash : Block → H) (A : PprfAes) (g : MalDraws) (delta : Block)
    (heven : domain % 2 = 0) (htwo : 2 ≤ domain) (hmem : domain * 64 ≤ maxBlocks) :
    ∃ P', P.beforeEncoding hash A g delta (domain * 64) = .ok P' ∧ Expanded coeffCtxGF128 g.toSessionDraws delta domain
      P'.parties := by
  obtain ⟨Q, hstart, C⟩ := I.start_ok heven htwo
  obtain ⟨P₁, hbase, W⟩ := malEnsureBaseOts_ok (P := P.withParties Q) A g delta C heven htwo
  have hexpand := Protocol.expand_eq (A := A) (B := coeffCtxGF128_bit) (g := g.toProtocolDraws) (P := P₁.parties) fun _ =>
    ⟨W.base.matched, W.valid, W.base.size_baseB⟩
  obtain ⟨Q', hQ', E⟩ := W.base.expand_ok coeffCtxGF128_xor (.ofRun A coeffCtxGF128_bit g.toProtocolDraws) (by omega) hmem
  rw [← hexpand] at hQ'
  obtain ⟨hA, -, -, -, hB⟩ := Protocol.expand_frame hQ'
  have hbefore : P.beforeCheck A g delta (domain * 64) = .ok (P₁.withParties Q') := by
    rw [MalParties.beforeCheck, hstart, ok_bind, hbase, ok_bind, hQ', ok_bind]
  have hvalue : malCheckValue g.malSeed (receiverGen domain g.words #[]).getPoints
      (Array.ofFn fun i : Fin 64 => g.noise.sample i) = malSum g.malSeed Q'.recv.mC :=
    malCheckValue_noise (by omega) E
  have hmal : MalBase (P₁.withParties Q').recv (P₁.withParties Q').send delta := by
    have hlast := W.last
    rw [hvalue, ← W.seed] at hlast
    exact (congrArg₂ (back · + back ·) hA hB).trans hlast
  refine ⟨P₁.withParties Q', ?_, E⟩
  rw [MalParties.beforeEncoding, hbefore]
  exact check_of_corr E.sizeA E.sizeB E.sizeC hmal E.corr hash

theorem MalParties.check_honest_two :
    let g : MalDraws := ⟨⟨.ones coeffCtxGF128 rfl, fun i => (block 1 i, block 2 i), block 0 7, true,
      ⟨fun _ _ => 0, fun _ => 0⟩, ⟨fun _ _ => 0, fun _ => 0⟩⟩, block 0 9⟩
    ∃ P', MalParties.beforeEncoding id default g (block 0 3) (2 * 64) {} = .ok P' ∧
      Expanded coeffCtxGF128 g.toSessionDraws (block 0 3) 2 P'.parties :=
  MalParties.check_honest ⟨rfl, rfl, rfl, rfl, rfl⟩ id _ _ _ rfl le_rfl (by decide)

end Honest
end ExtFieldPcg
