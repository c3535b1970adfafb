import Mathlib.Data.Nat.Find
import ExtFieldPcg.Aligned
import ExtFieldPcg.CoeffCtx
import ExtFieldPcg.RegularPprf

/-! The silent VOLE of `SilentWalshVoleReceiver.h` and `SilentWalshVoleSender.h` on blocks, as `test.h` runs it:
    semi-honest and without debugging. Each step of a party up to the next message is one function. -/

open Buffer

namespace ExtFieldPcg

inductive State where
  | default
  | configured
  | hasBase
deriving DecidableEq, Repr

/-! ### Noise -/

/-- What is drawn for each noise value. The rejection loop of each ends. -/
structure NoiseDraws {F : Type} (ctx : CoeffCtx F) where
  draw : ℕ → ℕ → Block
  ends : ∀ i, ∃ t, ctx.eq ctx.zero (ctx.fromBlock (draw i t)) = false

/-- Noise value `i`: the first draw that is not zero. When the context is not a field, an odd one gets one more. -/
def NoiseDraws.sample {F : Type} {ctx : CoeffCtx F} (g : NoiseDraws ctx) (i : ℕ) : F :=
  if ctx.bitSize = 1 then ctx.one
  else
    let x := ctx.fromBlock (g.draw i (Nat.find (g.ends i)))
    if ctx.isField = false then
      let odd := ctx.binaryDecomposition x 0
      if odd then ctx.plus x ctx.one else x
    else x

/-! ### Encoding -/

/-- `num_size`, an `int`. -/
def numSize (numVar : ℕ) : Except Err ℕ := if 3 ^ numVar < 2 ^ 31 then .ok (3 ^ numVar) else .error .conversion

/-- The resize before the transform. -/
def fitPower (numVar : ℕ) (junk : ℕ → Block) (v : AlignedUnVector) : Except Err AlignedUnVector := do
  let numSize ← numSize numVar
  v.resize numSize junk

/-- The encoding of one vector when `G` is `block`. -/
def encode (numVar : ℕ) (junk : ℕ → Block) (v : AlignedUnVector) : Except Err AlignedUnVector := do
  let v ← fitPower numVar junk v
  .ok (v.fft numVar)

theorem numSize_ok {k : ℕ} (h : 3 ^ k < 2 ^ 31) : numSize k = .ok (3 ^ k) := if_pos h

theorem numSize_error {k : ℕ} (h : 2 ^ 31 ≤ 3 ^ k) : numSize k = .error .conversion := if_neg (by omega)

theorem fitPower_error {k : ℕ} (h : 2 ^ 31 ≤ 3 ^ k) (junk : ℕ → Block) (v : AlignedUnVector) :
    fitPower k junk v = .error .conversion := by
  rw [fitPower, numSize_error h, error_bind]

theorem encode_error {k : ℕ} (h : 2 ^ 31 ≤ 3 ^ k) (junk : ℕ → Block) (v : AlignedUnVector) :
    encode k junk v = .error .conversion := by
  rw [encode, fitPower_error h, error_bind]

theorem encode_size {k : ℕ} {junk : ℕ → Block} {v w : AlignedUnVector} (h : encode k junk v = .ok w) :
    3 ^ k < 2 ^ 31 ∧ w.size = 3 ^ k := by
  by_cases hsize : 3 ^ k < 2 ^ 31
  · obtain ⟨u, hu, hw⟩ := bind_eq_ok.mp h
    rw [fitPower, numSize_ok hsize, ok_bind] at hu
    cases hw
    exact ⟨hsize, (AlignedUnVector.resize_spec hu).1⟩
  · rw [encode_error (Nat.not_lt.mp hsize)] at h
    cases h

/-- The encoding fails only on a length that is no `int`; memory for the others can be had. -/
theorem encode_ok_iff (k : ℕ) (junk : ℕ → Block) (v : AlignedUnVector) :
    (∃ w, encode k junk v = .ok w) ↔ 3 ^ k < 2 ^ 31 := by
  constructor
  · rintro ⟨w, hw⟩
    exact (encode_size hw).1
  · intro h
    have hmax : 3 ^ k ≤ maxBlocks := h.le.trans (by decide)
    obtain ⟨u, hu⟩ := (v.resize_ok_iff (3 ^ k) junk).mpr (.inr hmax)
    refine ⟨u.fft k, ?_⟩
    rw [encode, fitPower, numSize_ok h, ok_bind, hu, ok_bind]

/-- The first `n` blocks from `begin()` on. -/
def copyOut (n : ℕ) (v : AlignedUnVector) : Array Block := Array.ofFn fun i : Fin n => v.get i

/-! ### The receiver -/

structure SilentWalshVoleReceiver where
  mState : State := .default
  mRequestSize : ℕ := 0
  mNoiseVecSize : ℕ := 0
  mSizePer : ℕ := 0
  mNumPartitions : ℕ := 0
  mS : Array ℕ := #[]
  mGen : RegularPprfReceiver := {}
  mA : AlignedUnVector := .empty
  mC : AlignedUnVector := .empty
  mBaseA : Array Block := #[]
  mBaseC : Array Block := #[]

namespace SilentWalshVoleReceiver

/-- What `configure(requestSize)` sets before it configures the PPRF. -/
def configured (r : SilentWalshVoleReceiver) (requestSize : ℕ) : SilentWalshVoleReceiver :=
  { r with
    mNumPartitions := 64
    mRequestSize := requestSize
    mState := .configured
    mNoiseVecSize := requestSize
    mSizePer := requestSize / 64 }

def configure (r : SilentWalshVoleReceiver) (requestSize : ℕ) : Except Err SilentWalshVoleReceiver := do
  let r := r.configured requestSize
  let gen ← RegularPprf.configure r.mSizePer r.mNumPartitions
  .ok { r with mGen := { r.mGen with toRegularPprf := gen } }

/-- The start of `silentReceiveInplace(n)`. -/
def start (r : SilentWalshVoleReceiver) (n : ℕ) : Except Err SilentWalshVoleReceiver := do
  let r ← if r.mState = .default then r.configure n else .ok r
  if r.mRequestSize < n then .error .requestSize else .ok r

def sampleBaseChoiceBits (r : SilentWalshVoleReceiver) (words : ℕ → ℕ) : Except Err SilentWalshVoleReceiver :=
  if r.mState = .default then .error .notConfigured
  else .ok { r with mGen := r.mGen.sampleChoiceBits words }

def sampleBaseVoleVals {ctx : CoeffCtx Block} (r : SilentWalshVoleReceiver) (g : NoiseDraws ctx) :
    Except Err SilentWalshVoleReceiver :=
  if r.mState = .default then .error .notConfigured
  else .ok { r with mBaseC := Array.ofFn fun i : Fin r.mNumPartitions => g.sample i, mS := r.mGen.getPoints }

def setSilentBaseOts (r : SilentWalshVoleReceiver) (recvBaseOts baseA : Array Block) :
    Except Err SilentWalshVoleReceiver :=
  if r.mState = .default then .error .notConfigured
  else if recvBaseOts.size ≠ r.mGen.baseOtCount then .error .wrongBaseOts
  else do
    -- the rows are padded to whole blocks of eight
    let gen ← r.mGen.setBase ((r.mGen.mPntCount + 7) / 8 * 8) recvBaseOts
    .ok { r with mGen := { r.mGen with toRegularPprf := gen }, mBaseA := baseA, mState := .hasBase }

/-- `mA` and `mC` before the expansion, and its check of `mA`. -/
def beginExpand (r : SilentWalshVoleReceiver) (memA memC : ℕ → Block) : Except Err SilentWalshVoleReceiver := do
  let mA ← r.mA.resize 0 memA
  let mA ← mA.resize r.mNoiseVecSize memA
  let mC ← r.mC.resize 0 memC
  let mC ← mC.resize r.mNoiseVecSize memC
  let mC := mC.fill fun _ => 0
  validateExpandFormat mA.size r.mGen.mDomain r.mGen.mPntCount
  .ok { r with mA := mA, mC := mC }

/-- One round of the loop that adds the noise to `mC` and the shares of its products to `mA`. -/
def noiseRound (ctx : CoeffCtx Block) (r : SilentWalshVoleReceiver) (i : ℕ) (st : AlignedUnVector × AlignedUnVector) :
    AlignedUnVector × AlignedUnVector :=
  let pnt := read r.mS i
  let mC := st.2.set pnt (read r.mBaseC i)
  let mA := st.1.set pnt (ctx.plus (st.1.get pnt) (read r.mBaseA i))
  (mA, mC)

def addNoise (ctx : CoeffCtx Block) (r : SilentWalshVoleReceiver) : SilentWalshVoleReceiver :=
  let out := Loop.run r.mNumPartitions (r.noiseRound ctx) (r.mA, r.mC)
  { r with mA := out.1, mC := out.2 }

/-- The expansion of the PPRF is received; it drops its base OTs. Then the noise is added. -/
def finishExpand (ctx : CoeffCtx Block) (r : SilentWalshVoleReceiver) (output : Array Block) : SilentWalshVoleReceiver :=
  addNoise ctx { r with mA := r.mA.fill (read output), mGen := { r.mGen with mBaseOTs := #[] } }

/-- Both vectors are encoded and the run is over. -/
def finish (r : SilentWalshVoleReceiver) (numVar : ℕ → ℕ) (growA growC : ℕ → Block) :
    Except Err SilentWalshVoleReceiver := do
  let numVar := numVar r.mA.size
  let mA ← encode numVar growA r.mA
  let mC ← encode numVar growC r.mC
  .ok { r with mA := mA, mC := mC, mBaseC := #[], mBaseA := #[], mState := .default }

def clear (r : SilentWalshVoleReceiver) : SilentWalshVoleReceiver :=
  { r with mS := #[], mA := .empty, mC := .empty, mGen := {} }

end SilentWalshVoleReceiver

/-! ### The sender -/

structure SilentWalshVoleSender where
  mState : State := .default
  mGen : RegularPprf (Block × Block) := {}
  mRequestSize : ℕ := 0
  mNoiseVecSize : ℕ := 0
  mNumPartitions : ℕ := 0
  mSizePer : ℕ := 0
  mBaseB : Array Block := #[]
  mB : AlignedUnVector := .empty

namespace SilentWalshVoleSender

/-- What `configure(requestSize)` sets before it configures the PPRF. -/
def configured (s : SilentWalshVoleSender) (requestSize : ℕ) : SilentWalshVoleSender :=
  { s with
    mNumPartitions := 64
    mRequestSize := requestSize
    mState := .configured
    mNoiseVecSize := requestSize
    mSizePer := requestSize / 64 }

def configure (s : SilentWalshVoleSender) (requestSize : ℕ) : Except Err SilentWalshVoleSender := do
  let s := s.configured requestSize
  let gen ← RegularPprf.configure s.mSizePer s.mNumPartitions
  .ok { s with mGen := gen }

/-- The start of `silentSendInplace(delta, n)`. -/
def start (s : SilentWalshVoleSender) (n : ℕ) : Except Err SilentWalshVoleSender := do
  let s ← if s.mState = .default then s.configure n else .ok s
  if s.mRequestSize < n then .error .requestSize else .ok s

def setSilentBaseOts (ctx : CoeffCtx Block) (s : SilentWalshVoleSender) (sendBaseOts : Array (Block × Block))
    (b : Array Block) : Except Err SilentWalshVoleSender :=
  if s.mState = .default then .error .notConfigured
  else if sendBaseOts.size ≠ s.mGen.baseOtCount then .error .rteLoc
  else if b.size ≠ s.mNumPartitions then .error .rteLoc
  else do
    let gen ← s.mGen.setBase s.mGen.mPntCount sendBaseOts
    .ok { s with mGen := gen, mBaseB := Array.ofFn fun i : Fin b.size => ctx.minus ctx.zero (read b i) }

/-- `mB` before the expansion, and its check of `mB`. -/
def beginExpand (s : SilentWalshVoleSender) (memB : ℕ → Block) : Except Err SilentWalshVoleSender := do
  let mB ← s.mB.resize 0 memB
  let mB ← mB.resize s.mNoiseVecSize memB
  validateExpandFormat mB.size s.mGen.mDomain s.mGen.mPntCount
  .ok { s with mB := mB }

/-- `baseB`, the values that the expansion is programmed to. -/
def baseB (s : SilentWalshVoleSender) : Array Block := Array.ofFn fun i : Fin s.mNumPartitions => read s.mBaseB i

/-- The expansion of the PPRF is done; it drops its base OTs. -/
def finishExpand (s : SilentWalshVoleSender) (output : Array Block) : SilentWalshVoleSender :=
  { s with mB := s.mB.fill (read output), mGen := { s.mGen with mBaseOTs := #[] } }

/-- The vector is encoded and the run is over. -/
def finish (s : SilentWalshVoleSender) (numVar : ℕ → ℕ) (growB : ℕ → Block) : Except Err SilentWalshVoleSender := do
  let mB ← encode (numVar s.mB.size) growB s.mB
  .ok { s with mB := mB, mState := .default, mBaseB := #[] }

def clear (s : SilentWalshVoleSender) : SilentWalshVoleSender := { s with mB := .empty, mGen := {} }

end SilentWalshVoleSender
end ExtFieldPcg
