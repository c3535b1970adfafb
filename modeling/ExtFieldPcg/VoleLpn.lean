import ExtFieldPcg.ConfigureCode
import ExtFieldPcg.VoleEncoding
import ExtFieldPcg.VoleProtocol

/-! The silent VOLE of `SilentVoleReceiver.h` and `SilentVoleSender.h`, as `Vole_LPN` of `test.h` runs it. Its objects hold
    what those of `SilentWalshVole.lean` hold, and differ from them in their configuration and their encoding. -/

open Buffer

namespace ExtFieldPcg

namespace SilentVole

/-! ### The code -/

section Code
variable (quotient : MultType → ℕ) (A : CodeAes) (ctx : CoeffCtx Block) (mulConst : Block → Block)
  (acc8 : ExConvCode.AccOne8 Block) (mMultType : MultType)

/-- The encoding of a vector, and its resize. -/
def compress (mRequestSize mNoiseVecSize : ℕ) (v : AlignedUnVector) : Except Err AlignedUnVector := do
  let e ← mMultType.dualEncode A ctx mulConst acc8 mRequestSize mNoiseVecSize (copyOut v.size v)
  (v.fill (read e)).resize mRequestSize fun _ => 0

namespace Receiver

/-- What `configure(requestSize)` sets before it configures the PPRF. -/
def configured (r : SilentWalshVoleReceiver) (requestSize : ℕ) : SilentWalshVoleReceiver :=
  let p := syndromeDecodingConfigure quotient requestSize mMultType
  { r with
    mRequestSize := requestSize
    mState := .configured
    mNumPartitions := p.mNumPartitions
    mSizePer := p.mSizePer
    mNoiseVecSize := p.mNoiseVecSize }

def configure (r : SilentWalshVoleReceiver) (requestSize : ℕ) : Except Err SilentWalshVoleReceiver := do
  let r := configured quotient mMultType r requestSize
  let gen ← RegularPprf.configure r.mSizePer r.mNumPartitions
  .ok { r with mGen := { r.mGen with toRegularPprf := gen } }

/-- The start of `silentReceiveInplace(n)`. -/
def start (r : SilentWalshVoleReceiver) (n : ℕ) : Except Err SilentWalshVoleReceiver := do
  let r ← if r.mState = .default then configure quotient mMultType r n else .ok r
  if r.mRequestSize < n then .error .requestSize else .ok r

def finish (r : SilentWalshVoleReceiver) : Except Err SilentWalshVoleReceiver := do
  let mA ← compress A ctx mulConst acc8 mMultType r.mRequestSize r.mNoiseVecSize r.mA
  let mC ← compress A ctx mulConst acc8 mMultType r.mRequestSize r.mNoiseVecSize r.mC
  .ok { r with mA := mA, mC := mC, mBaseC := #[], mBaseA := #[], mState := .default }

end Receiver

namespace Sender

/-- What `configure(requestSize)` sets before it configures the PPRF. -/
def configured (s : SilentWalshVoleSender) (requestSize : ℕ) : SilentWalshVoleSender :=
  let p := syndromeDecodingConfigure quotient requestSize mMultType
  { s with
    mRequestSize := requestSize
    mState := .configured
    mNumPartitions := p.mNumPartitions
    mSizePer := p.mSizePer
    mNoiseVecSize := p.mNoiseVecSize }

def configure (s : SilentWalshVoleSender) (requestSize : ℕ) : Except Err SilentWalshVoleSender := do
  let s := configured quotient mMultType s requestSize
  let gen ← RegularPprf.configure s.mSizePer s.mNumPartitions
  .ok { s with mGen := gen }

def start (s : SilentWalshVoleSender) (n : ℕ) : Except Err SilentWalshVoleSender := do
  let s ← if s.mState = .default then configure quotient mMultType s n else .ok s
  if s.mRequestSize < n then .error .requestSize else .ok s

def finish (s : SilentWalshVoleSender) : Except Err SilentWalshVoleSender := do
  let mB ← compress A ctx mulConst acc8 mMultType s.mRequestSize s.mNoiseVecSize s.mB
  .ok { s with mB := mB, mState := .default, mBaseB := #[] }

end Sender

def start (n : ℕ) (P : Parties) : Except Err Parties := do
  let recv ← Receiver.start quotient mMultType P.recv n
  let send ← Sender.start quotient mMultType P.send n
  .ok ⟨recv, send⟩

def finish (P : Parties) : Except Err Parties := do
  let recv ← Receiver.finish A ctx mulConst acc8 mMultType P.recv
  let send ← Sender.finish A ctx mulConst acc8 mMultType P.send
  .ok ⟨recv, send⟩

end Code

/-- `silentReceive(c, a)` and `silentSend(delta, b)` on vectors of `n` blocks. -/
def silentVole {ctx : CoeffCtx Block} (quotient : MultType → ℕ) (aes : PprfAes) (A : CodeAes) (mulConst : Block → Block)
    (acc8 : ExConvCode.AccOne8 Block) (mMultType : MultType) (g : ProtocolDraws ctx) (delta : Block) (n : ℕ) (P : Parties) :
    Except Err (Parties × VoleOutput) := do
  let P ← start quotient mMultType n P
  let P ← Protocol.ensureBaseOts aes g delta P
  let P ← Protocol.expand aes g P
  let P ← finish A ctx mulConst acc8 mMultType P
  .ok (⟨P.recv.clear, P.send.clear⟩, ⟨copyOut n P.recv.mC, copyOut n P.recv.mA, copyOut n P.send.mB⟩)

/-- The comparison at the end of `Vole_LPN`. -/
def compare (ctx : CoeffCtx Block) (n : ℕ) (d : Block) (out : VoleOutput) : Except Err Unit :=
  Loop.tryRun n (fun i _ =>
    let exp := ctx.mul d (read out.c i)
    let exp := ctx.plus exp (read out.b i)
    if ctx.eq (read out.a i) exp then .ok () else .error .rteLoc) ()

/-! ### Configuration -/

variable {ctx : CoeffCtx Block} {g : ProtocolDraws ctx} {delta : Block} {domain count n : ℕ} {P P' : Parties}

/-- Both parties are configured for `count` trees of `domain` leaves. -/
structure Ready (n domain count : ℕ) (P : Parties) : Prop where
  recv : P.recv.mState = .configured
  send : P.send.mState = .configured
  recvRequest : P.recv.mRequestSize = n
  sendRequest : P.send.mRequestSize = n
  recvSize : P.recv.mNoiseVecSize = domain * count
  sendSize : P.send.mNoiseVecSize = domain * count
  recvCount : P.recv.mNumPartitions = count
  sendCount : P.send.mNumPartitions = count
  recvGen : P.recv.mGen.toRegularPprf = ⟨domain, log2ceil domain, count, #[]⟩
  sendGen : P.send.mGen = ⟨domain, log2ceil domain, count, #[]⟩
  mA : P.recv.mA = .empty
  mC : P.recv.mC = .empty
  mB : P.send.mB = .empty

theorem Receiver.start_ok {r : SilentWalshVoleReceiver} (hstate : r.mState = .default) (quotient : MultType → ℕ)
    (type : MultType) (n : ℕ) :
    let p := syndromeDecodingConfigure quotient n type
    start quotient type r n = .ok { configured quotient type r n with
      mGen := { r.mGen with toRegularPprf := ⟨p.mSizePer, log2ceil p.mSizePer, p.mNumPartitions, #[]⟩ } } := by
  have F := syndromeDecodingConfigure_fits quotient n type
  have hgen : RegularPprf.configure (syndromeDecodingConfigure quotient n type).mSizePer
      (syndromeDecodingConfigure quotient n type).mNumPartitions = .ok (_ : RegularPprf Block) :=
    RegularPprf.configure_ok F.even ((by decide : 2 ≤ 4).trans F.sizePer)
  simp only [start, hstate, if_true, configure, configured, hgen, ok_bind, lt_irrefl, if_false]

theorem Sender.start_ok {s : SilentWalshVoleSender} (hstate : s.mState = .default) (quotient : MultType → ℕ)
    (type : MultType) (n : ℕ) :
    let p := syndromeDecodingConfigure quotient n type
    start quotient type s n = .ok { configured quotient type s n with
      mGen := ⟨p.mSizePer, log2ceil p.mSizePer, p.mNumPartitions, #[]⟩ } := by
  have F := syndromeDecodingConfigure_fits quotient n type
  have hgen : RegularPprf.configure (syndromeDecodingConfigure quotient n type).mSizePer
      (syndromeDecodingConfigure quotient n type).mNumPartitions = .ok (_ : RegularPprf (Block × Block)) :=
    RegularPprf.configure_ok F.even ((by decide : 2 ≤ 4).trans F.sizePer)
  simp only [start, hstate, if_true, configure, configured, hgen, ok_bind, lt_irrefl, if_false]

theorem start_ready (I : Idle P) (quotient : MultType → ℕ) (type : MultType) (n : ℕ) :
    let p := syndromeDecodingConfigure quotient n type
    ∃ P', start quotient type n P = .ok P' ∧ Ready n p.mSizePer p.mNumPartitions P' := by
  intro p
  refine ⟨_, by rw [start, Receiver.start_ok I.recv, ok_bind, Sender.start_ok I.send, ok_bind], ?_⟩
  exact ⟨rfl, rfl, rfl, rfl, rfl, rfl, rfl, rfl, rfl, rfl, I.mA, I.mC, I.mB⟩

/-! ### Base OTs and base VOLE -/

/-- The PPRF of the receiver once its points are sampled. -/
def pointGen (domain count : ℕ) (words : ℕ → ℕ) (baseOTs : Array Block) : RegularPprfReceiver :=
  ⟨⟨domain, log2ceil domain, count, baseOTs⟩, fun i j => (words i % domain).testBit j⟩

theorem leafPoint_pointGen (hdomain : 0 < domain) (words : ℕ → ℕ) (baseOTs : Array Block) (j : ℕ) :
    (pointGen domain count words baseOTs).leafPoint j = words j % domain :=
  RegularPprfReceiver.leafPoint_sampleChoiceBits ⟨⟨domain, log2ceil domain, count, baseOTs⟩, fun _ _ => false⟩ words
    hdomain rfl j

/-- Base OTs and base VOLE are set. -/
structure Based (g : ProtocolDraws ctx) (delta : Block) (n domain count : ℕ) (P : Parties) : Prop where
  recvRequest : P.recv.mRequestSize = n
  sendRequest : P.send.mRequestSize = n
  recvSize : P.recv.mNoiseVecSize = domain * count
  sendSize : P.send.mNoiseVecSize = domain * count
  recvCount : P.recv.mNumPartitions = count
  sendCount : P.send.mNumPartitions = count
  genDomain : P.recv.mGen.mDomain = domain
  genCount : P.recv.mGen.mPntCount = count
  valid : P.recv.mGen.Valid
  leaf : ∀ j, P.recv.mGen.leafPoint j = g.words j % domain
  matched : PprfMatched P.recv.mGen P.send.mGen
  points : P.recv.mS = P.recv.mGen.getPoints
  baseC : ∀ j < count, read P.recv.mBaseC j = g.noise.sample j
  base : ∀ j < count, read P.recv.mBaseA j + read P.send.baseB j = ctx.mul (read P.recv.mBaseC j) delta
  mA : P.recv.mA = .empty
  mC : P.recv.mC = .empty
  mB : P.send.mB = .empty

/-- The base OTs that a receiver gets for its points. -/
def keys (domain : ℕ) (g : SessionDraws ctx) (x : ℕ) : Block :=
  TernaryDpf.key (g.baseOt x) ((g.words (x / log2ceil domain) % domain).testBit (x % log2ceil domain))

theorem read_ofFn_read {β : Type} [Inhabited β] (f : ℕ → β) {N M x : ℕ} (hN : x < N) (hM : x < M) :
    read (Array.ofFn fun i : Fin N => read (Array.ofFn fun i : Fin M => f i) i) x = f x :=
  (read_ofFn (read (Array.ofFn fun i : Fin M => f i)) hN).trans (read_ofFn f hM)

theorem pointGen_matched (hdomain : 0 < domain) (hbatch : count % 8 = 0) (g : SessionDraws ctx) :
    PprfMatched
      (pointGen domain count g.words (Array.ofFn fun i : Fin ((count + 7) / 8 * 8 * log2ceil domain) =>
        read (Array.ofFn fun i : Fin (log2ceil domain * count) => keys domain g i) i))
      ⟨domain, log2ceil domain, count, Array.ofFn fun i : Fin (count * log2ceil domain) =>
        read (Array.ofFn fun i : Fin (log2ceil domain * count) => g.baseOt i) i⟩ := by
  refine ⟨rfl, rfl, rfl, hbatch, fun j _ => ?_, fun i hi j hj => ?_⟩
  · rw [leafPoint_pointGen hdomain]
    exact Nat.mod_lt _ hdomain
  · have hlt : i * log2ceil domain + j < count * log2ceil domain := Loop.grid_lt hi hj
    have hlt' : i * log2ceil domain + j < log2ceil domain * count := by rwa [Nat.mul_comm (log2ceil domain)]
    have hrows : (count + 7) / 8 * 8 = count := by omega
    refine (read_ofFn_read (keys domain g) (by rwa [hrows]) hlt').trans ?_
    refine Eq.trans ?_ (congrArg (TernaryDpf.key · _) (read_ofFn_read g.baseOt hlt hlt').symm)
    have hj' : j < log2ceil domain := hj
    rw [keys, Loop.grid_div hj', Loop.grid_mod hj']
    rfl

def sampled (domain count : ℕ) (g : SessionDraws ctx) (r : SilentWalshVoleReceiver) : SilentWalshVoleReceiver :=
  { r with
    mNumPartitions := count
    mGen := pointGen domain count g.words #[]
    mBaseC := Array.ofFn fun i : Fin count => g.noise.sample i
    mS := (pointGen domain count g.words #[]).getPoints }

theorem Ready.sample_ok (R : Ready n domain count P) (g : SessionDraws ctx) :
    (do
      let r ← P.recv.sampleBaseChoiceBits g.words
      r.sampleBaseVoleVals g.noise) = .ok (sampled domain count g P.recv) := by
  have hstate : P.recv.mState ≠ .default := by simp [R.recv]
  have hgen : P.recv.mGen.sampleChoiceBits g.words = pointGen domain count g.words #[] := by
    rw [RegularPprfReceiver.sampleChoiceBits, R.recvGen]
    rfl
  rw [SilentWalshVoleReceiver.sampleBaseChoiceBits, if_neg hstate, ok_bind,
    SilentWalshVoleReceiver.sampleBaseVoleVals, if_neg hstate, hgen, R.recvCount]
  rfl

theorem Ready.setRecv_ok (R : Ready n domain count P) (g : SessionDraws ctx) (baseA : Array Block) :
    (sampled domain count g P.recv).setSilentBaseOts (Array.ofFn fun i : Fin (log2ceil domain * count) => keys domain g i)
      baseA = .ok { sampled domain count g P.recv with
        mGen := pointGen domain count g.words (Array.ofFn fun i : Fin ((count + 7) / 8 * 8 * log2ceil domain) =>
          read (Array.ofFn fun i : Fin (log2ceil domain * count) => keys domain g i) i)
        mBaseA := baseA
        mState := .hasBase } := by
  have hstate : (sampled domain count g P.recv).mState ≠ .default := by simp [sampled, R.recv]
  have hsize : (Array.ofFn fun i : Fin (log2ceil domain * count) => keys domain g i).size = log2ceil domain * count :=
    Array.size_ofFn
  have hcount : (sampled domain count g P.recv).mGen.baseOtCount = log2ceil domain * count := rfl
  rw [SilentWalshVoleReceiver.setSilentBaseOts, if_neg hstate, if_neg (not_not.mpr (hsize.trans hcount.symm)),
    RegularPprf.setBase, if_neg (not_not.mpr (hcount.trans hsize.symm)), ok_bind]
  rfl

theorem Ready.setSend_ok (R : Ready n domain count P) (g : SessionDraws ctx) {b : Array Block} (hb : b.size = count) :
    P.send.setSilentBaseOts ctx (Array.ofFn fun i : Fin (log2ceil domain * count) => g.baseOt i) b = .ok { P.send with
      mGen := ⟨domain, log2ceil domain, count, Array.ofFn fun i : Fin (count * log2ceil domain) =>
        read (Array.ofFn fun i : Fin (log2ceil domain * count) => g.baseOt i) i⟩
      mBaseB := Array.ofFn fun i : Fin b.size => ctx.minus ctx.zero (read b i) } := by
  have hstate : P.send.mState ≠ .default := by simp [R.send]
  rw [SilentWalshVoleSender.setSilentBaseOts, if_neg hstate, R.sendGen, RegularPprf.baseOtCount, if_neg (by simp),
    if_neg (by simp [hb, R.sendCount]), RegularPprf.setBase, RegularPprf.baseOtCount, if_neg (by simp), ok_bind]

theorem Ready.ensureBaseOts_ok (R : Ready n domain count P) (B : BitCtx ctx) (A : PprfAes) (g : ProtocolDraws ctx)
    (delta : Block) (heven : domain % 2 = 0) (htwo : 2 ≤ domain) (hcount : 0 < count) (hbatch : count % 8 = 0) :
    ∃ P', Protocol.ensureBaseOts A g delta P = .ok P' ∧ Based g delta n domain count P' := by
  have hrecv : P.recv.mGen.hasBaseOts = false := by simp [RegularPprf.hasBaseOts, R.recvGen]
  have hsend : P.send.mGen.hasBaseOts = false := by simp [RegularPprf.hasBaseOts, R.sendGen]
  have hots : P.send.mGen.baseOtCount = log2ceil domain * count := by rw [R.sendGen]; rfl
  have hsize : (sampled domain count g.toSessionDraws P.recv).mBaseC.size = count := Array.size_ofFn
  have hdomain : 0 < domain := by omega
  obtain ⟨a, b, hvole, ha, hb, hcorr⟩ :=
    NoisyVole.run_spec B.noisy_exact A.prngBlock g.voleOt (hcount.trans_eq hsize.symm) delta
  rw [hsize] at ha hb hcorr
  have hgen : Protocol.genSilentBaseOts A g delta P = (do
      let vole ← NoisyVole.run ctx.noisy A.prngBlock g.voleOt (sampled domain count g.toSessionDraws P.recv).mBaseC delta
      let recv ← (sampled domain count g.toSessionDraws P.recv).setSilentBaseOts
        (Array.ofFn fun i : Fin (log2ceil domain * count) => keys domain g.toSessionDraws i) vole.1
      let send ← P.send.setSilentBaseOts ctx (Array.ofFn fun i : Fin (log2ceil domain * count) => g.baseOt i) vole.2
      .ok ⟨recv, send⟩) := by
    rw [Protocol.genSilentBaseOts, ← bind_assoc, R.sample_ok g.toSessionDraws, ok_bind, hots]
    rfl
  rw [hvole, ok_bind, R.setRecv_ok, ok_bind, R.setSend_ok g.toSessionDraws hb, ok_bind] at hgen
  rw [Protocol.ensureBaseOts, hrecv, hsend]
  refine ⟨_, hgen, R.recvRequest, R.sendRequest, R.recvSize, R.sendSize, rfl, R.sendCount, rfl, rfl, ⟨heven, htwo, rfl⟩,
    leafPoint_pointGen hdomain g.words _, pointGen_matched hdomain hbatch g.toSessionDraws, rfl,
    fun j hj => read_ofFn g.noise.sample hj, fun j hj => ?_, R.mA, R.mC, R.mB⟩
  -- the sender keeps the negative of its share
  have hneg : read (Array.ofFn fun i : Fin b.size => ctx.minus ctx.zero (read b i)) j = read b j := by
    rw [read_ofFn (fun i => ctx.minus ctx.zero (read b i)) (hj.trans_eq hb.symm), B.minus, B.zero, zero_add]
  have hbaseB := read_ofFn (read (Array.ofFn fun i : Fin b.size => ctx.minus ctx.zero (read b i)))
    (hj.trans_eq R.sendCount.symm)
  refine (congrArg₂ (· + ·) (hcorr j hj) (hbaseB.trans hneg)).trans ?_
  rw [id, add_right_comm, Block.add_self, zero_add]
  rfl

/-! ### The expansion -/

/-- The noise of a session at its interleaved points. -/
def sparseVector (domain count : ℕ) (g : SessionDraws ctx) : Array Block :=
  Array.ofFn fun x : Fin (domain * count) =>
    ∑ j ∈ Finset.range count, if noisePoint domain g.words j = x then g.noise.sample j else 0

/-- The sparse vectors before they are encoded. -/
structure Sparse (g : SessionDraws ctx) (delta : Block) (n domain count : ℕ) (P : Parties) : Prop where
  recvRequest : P.recv.mRequestSize = n
  sendRequest : P.send.mRequestSize = n
  recvSize : P.recv.mNoiseVecSize = domain * count
  sendSize : P.send.mNoiseVecSize = domain * count
  sizeA : P.recv.mA.size = domain * count
  sizeB : P.send.mB.size = domain * count
  sizeC : P.recv.mC.size = domain * count
  noise : ∀ x < domain * count, P.recv.mC.get x = read (sparseVector domain count g) x
  corr : ∀ x < domain * count, P.recv.mA.get x = P.send.mB.get x + ctx.mul (P.recv.mC.get x) delta

theorem validateExpandFormat_ok (domain : ℕ) (hbatch : count % 8 = 0) :
    validateExpandFormat (domain * count) domain count = .ok () := by
  rw [validateExpandFormat, if_neg (not_not.mpr hbatch), if_neg (not_not.mpr rfl)]

theorem Based.beginRecv_ok (W : Based g delta n domain count P) (hmem : domain * count ≤ maxBlocks) (memA memC : ℕ → Block) :
    ∃ wA wC : AlignedUnVector, P.recv.beginExpand memA memC = .ok { P.recv with mA := wA, mC := wC.fill fun _ => 0 } ∧
      wA.size = domain * count ∧ wC.size = domain * count := by
  obtain ⟨wA, hwA, hA, -⟩ := AlignedUnVector.resize_empty hmem memA
  obtain ⟨wC, hwC, hC, -⟩ := AlignedUnVector.resize_empty hmem memC
  have hvalid := validateExpandFormat_ok domain (W.genCount ▸ W.matched.batches)
  refine ⟨wA, wC, ?_, hA, hC⟩
  rw [SilentWalshVoleReceiver.beginExpand, W.mA, W.mC, W.genDomain, W.genCount]
  simp only [AlignedUnVector.resize_empty_zero, ok_bind, W.recvSize, hwA, hwC, hA, hvalid]

theorem Based.beginSend_ok (W : Based g delta n domain count P) (hmem : domain * count ≤ maxBlocks) (memB : ℕ → Block) :
    ∃ wB : AlignedUnVector, P.send.beginExpand memB = .ok { P.send with mB := wB } ∧ wB.size = domain * count := by
  obtain ⟨wB, hwB, hB, -⟩ := AlignedUnVector.resize_empty hmem memB
  have hvalid := validateExpandFormat_ok domain (W.genCount ▸ W.matched.batches)
  refine ⟨wB, ?_, hB⟩
  rw [SilentWalshVoleSender.beginExpand, W.mB, W.matched.domain, W.matched.count, W.genDomain, W.genCount]
  simp only [AlignedUnVector.resize_empty_zero, ok_bind, W.sendSize, hwB, hB, hvalid]

theorem Based.domain_pos (W : Based g delta n domain count P) : 0 < domain := by
  obtain ⟨-, htwo, -⟩ := W.valid
  rw [W.genDomain] at htwo
  omega

theorem Based.batches (W : Based g delta n domain count P) : count % 8 = 0 := W.genCount ▸ W.matched.batches

/-- The two expansions differ at the points only, by the shares of the sender. -/
theorem Based.pprf_ok (W : Based g delta n domain count P) (X : XorCtx ctx) (A : PprfAes) (output : Array Block × Array Block)
    (hrecv : output.1.size = domain * count) (hsend : output.2.size = domain * count) :
    ∃ a b, Pprf.run A ctx.pprf P.recv.mGen P.send.mGen P.send.baseB g.seed .interleaved true g.mEagerSend output g.scratch =
        .ok (a, b) ∧
      (∀ j < count, read a (noisePoint domain g.words j) = read b (noisePoint domain g.words j) + read P.send.baseB j) ∧
      ∀ x < domain * count, (∀ j < count, noisePoint domain g.words j ≠ x) → read a x = read b x := by
  have hgen : P.recv.mGen.mDomain * P.recv.mGen.mPntCount = domain * count := by rw [W.genDomain, W.genCount]
  have hvalue : P.send.baseB.size = P.send.mGen.mPntCount := by
    rw [W.matched.count, W.genCount, ← W.sendCount]
    exact Array.size_ofFn
  obtain ⟨a, b, hrun, -, -, hleaves⟩ := Pprf.run_matched A X W.matched W.valid g.mEagerSend g.seed hvalue output
    (hrecv.trans hgen.symm) (hsend.trans hgen.symm) g.scratch
  rw [W.genCount, W.genDomain] at hleaves
  refine ⟨a, b, hrun, fun j hj => ?_, fun x hx hne => ?_⟩
  · obtain ⟨hb, ha⟩ := hleaves j hj (g.words j % domain) (Nat.mod_lt _ W.domain_pos)
    rw [if_pos (W.leaf j).symm, ← hb] at ha
    exact ha
  · obtain ⟨j, hj, c, hc, rfl⟩ := Pprf.place_surj (fun _ : Pprf.PprfOutputFormat.interleaved = .interleaved => W.batches) hx
    obtain ⟨hb, ha⟩ := hleaves j hj c hc
    have hpoint : c ≠ P.recv.mGen.leafPoint j := fun h => hne j hj (by rw [h, W.leaf]; rfl)
    rw [if_neg hpoint, ← hb] at ha
    exact ha

/-- The expansions of both parties, corrected by the base VOLE, are correlated. -/
theorem Based.expand_ok (W : Based g delta n domain count P) (X : XorCtx ctx) (A : PprfAes)
    (hmem : domain * count ≤ maxBlocks) :
    ∃ P', Protocol.expand A g P = .ok P' ∧ Sparse g.toSessionDraws delta n domain count P' := by
  obtain ⟨wA, wC, hrecv, hsizeA, hsizeC⟩ := W.beginRecv_ok hmem g.memA g.memC
  obtain ⟨wB, hsend, hsizeB⟩ := W.beginSend_ok hmem g.memB
  obtain ⟨a, b, hrun, hat, hoff⟩ := W.pprf_ok X A (copyOut wA.size wA, copyOut wB.size wB)
    (Array.size_ofFn.trans hsizeA) (Array.size_ofFn.trans hsizeB)
  let S := noisePoint domain g.words
  let r : SilentWalshVoleReceiver := { P.recv with
    mA := wA.fill (read a)
    mC := wC.fill fun _ => 0
    mGen := { P.recv.mGen with mBaseOTs := #[] } }
  have hexpand : Protocol.expand A g P = .ok ⟨r.addNoise ctx, { P.send with
      mB := wB.fill (read b)
      mGen := { P.send.mGen with mBaseOTs := #[] } }⟩ := by
    rw [Protocol.expand, hrecv, ok_bind, hsend, ok_bind]
    exact congrArg (· >>= _) hrun
  have hlt (j : ℕ) (hj : j < count) : S j < domain * count :=
    RegularPprfReceiver.interleave_lt (Nat.mod_lt _ W.domain_pos) W.batches hj
  have N : NoiseAdded ctx r S count ((r.addNoise ctx).mA, (r.addNoise ctx).mC) := by
    refine addNoise_spec W.recvCount (fun j hj => ?_) (fun i j => noisePoint_inj W.domain_pos) (fun j hj => ?_) fun j hj => ?_
    · rw [show r.mS = P.recv.mGen.getPoints from W.points, read_getPoints (hj.trans_eq W.genCount.symm), W.genDomain, W.leaf]
      rfl
    · exact hsizeA.symm ▸ hlt j hj
    · exact hsizeC.symm ▸ hlt j hj
  have hzero (x : ℕ) (hx : x < domain * count) : r.mC.get x = 0 := AlignedUnVector.get_fill wC _ (hsizeC.symm ▸ hx)
  have hA (x : ℕ) (hx : x < domain * count) : r.mA.get x = read a x := AlignedUnVector.get_fill wA _ (hsizeA.symm ▸ hx)
  have hB (x : ℕ) (hx : x < domain * count) : (wB.fill (read b)).get x = read b x :=
    AlignedUnVector.get_fill wB _ (hsizeB.symm ▸ hx)
  refine ⟨_, hexpand, W.recvRequest, W.sendRequest, W.recvSize, W.sendSize, N.sizeA.trans hsizeA, hsizeB,
    N.sizeC.trans hsizeC, fun x hx => ?_, fun x hx => ?_⟩
  · refine Eq.trans ?_ (read_ofFn (fun x => ∑ j ∈ Finset.range count, if S j = x then g.noise.sample j else 0) hx).symm
    refine eq_sum_noise W.domain_pos (fun j hj hS => ?_) fun hne => (N.offC x hne).trans (hzero x hx)
    rw [← hS]
    exact (N.atC j hj).trans (W.baseC j hj)
  · have hcorr := N.corr X x (read b x) (hzero x hx) (fun j hj hS => by rw [hA x hx, ← hS, hat j hj])
      (fun hne => (hA x hx).trans (hoff x hx hne)) W.base
    rwa [← hB x hx] at hcorr

/-! ### The encoding -/

section Encoding
variable {A : CodeAes} {mulConst : Block → Block} {acc8 : ExConvCode.AccOne8 Block} {N : ℕ}

/-- An encoded vector keeps its first `n` entries. -/
theorem compress_ok (A : CodeAes) (mulConst : Block → Block) (type : MultType) (hacc : ExConvCode.Agrees ctx acc8)
    (hn : 2 * n ≤ N) (hN : 160 ≤ N) (hlt : N < 2 ^ 64) {v : AlignedUnVector} (hv : v.size = N) :
    ∃ w, compress A ctx mulConst acc8 type n N v = .ok w ∧ w.size = n ∧
      ∀ i < n, w.get i = read (type.encoded A ctx mulConst n N (copyOut N v)) i := by
  have hsize : n ≤ (v.fill (read (type.encoded A ctx mulConst n N (copyOut N v)))).size := by
    show n ≤ v.size
    omega
  refine ⟨⟨(v.fill (read (type.encoded A ctx mulConst n N (copyOut N v)))).mem, n, hsize.trans (AlignedUnVector.size_le _)⟩,
    ?_, rfl, fun i hi => AlignedUnVector.get_fill v _ (by omega)⟩
  have hcopy : (copyOut N v).size = N := Array.size_ofFn
  rw [compress, hv, MultType.dualEncode_ok hacc hn hN hlt type hcopy, ok_bind]
  exact AlignedUnVector.resize_le hsize _

structure Encoded (A : CodeAes) (ctx : CoeffCtx Block) (mulConst : Block → Block) (type : MultType) (g : SessionDraws ctx)
    (delta : Block) (n domain count : ℕ) (P : Parties) : Prop where
  recv : P.recv.mState = .default
  send : P.send.mState = .default
  c : ∀ i < n, P.recv.mC.get i =
    read (type.encoded A ctx mulConst n (domain * count) (sparseVector domain count g)) i
  corr : ∀ i < n, P.recv.mA.get i = P.send.mB.get i + ctx.mul (P.recv.mC.get i) delta

/-- Encoding keeps the correlation of the sparse vectors. -/
theorem Sparse.finish_ok {g : SessionDraws ctx} (E : Sparse g delta n domain count P) (X : XorCtx ctx)
    (L : Linear (mulDelta X delta) ctx ctx mulConst mulConst) (hdiv : A.Divides) (hacc : ExConvCode.Agrees ctx acc8)
    (type : MultType) (hn : 2 * n ≤ domain * count) (hN : 160 ≤ domain * count) (hlt : domain * count < 2 ^ 64) :
    ∃ P', finish A ctx mulConst acc8 type P = .ok P' ∧ Encoded A ctx mulConst type g delta n domain count P' := by
  have hzero : (0 : Block) = 0 + mulDelta X delta 0 := by rw [map_zero, add_zero]
  obtain ⟨wA, hwA, -, hA⟩ := compress_ok A mulConst type hacc hn hN hlt E.sizeA
  obtain ⟨wB, hwB, -, hB⟩ := compress_ok A mulConst type hacc hn hN hlt E.sizeB
  obtain ⟨wC, hwC, -, hC⟩ := compress_ok A mulConst type hacc hn hN hlt E.sizeC
  have hcopy (v : AlignedUnVector) : (copyOut (domain * count) v).size = domain * count := Array.size_ofFn
  have hread (v : AlignedUnVector) {x : ℕ} (hx : x < domain * count) : read (copyOut (domain * count) v) x = v.get x :=
    read_ofFn v.get hx
  have hnoise : copyOut (domain * count) P.recv.mC = sparseVector domain count g :=
    ext_read ((hcopy _).trans Array.size_ofFn.symm) fun x hx => by
      rw [hcopy] at hx
      rw [hread _ hx, E.noise x hx]
  have C : Correlated (mulDelta X delta) (domain * count) (copyOut (domain * count) P.recv.mA)
      (copyOut (domain * count) P.send.mB) (copyOut (domain * count) P.recv.mC) :=
    ⟨hcopy _, hcopy _, hcopy _, fun x hx => by
      rw [hread _ hx, hread _ hx, hread _ hx]
      exact E.corr x hx⟩
  have C' := MultType.encoded_preserves L hdiv hn hN hlt hzero type _ _ _ C
  refine ⟨⟨{ P.recv with mA := wA, mC := wC, mBaseC := #[], mBaseA := #[], mState := .default },
    { P.send with mB := wB, mState := .default, mBaseB := #[] }⟩, ?_, rfl, rfl, fun i hi => ?_, fun i hi => ?_⟩
  · rw [← E.recvRequest, ← E.recvSize] at hwA hwC
    rw [← E.sendRequest, ← E.sendSize] at hwB
    rw [finish, Receiver.finish, hwA, ok_bind, hwC, ok_bind, ok_bind, Sender.finish, hwB, ok_bind, ok_bind]
  · rw [hC i hi, hnoise]
  · rw [hA i hi, hB i hi, hC i hi]
    exact C'.corr i (by omega)

end Encoding

/-! ### Runs of sessions -/

structure Session where
  mMultType : MultType
  draws : ProtocolDraws coeffCtxGF128
  delta : Block
  size : ℕ

namespace Session
variable (quotient : MultType → ℕ) (aes : PprfAes) (A : CodeAes)

def params (s : Session) : SyndromeDecoding := syndromeDecodingConfigure quotient s.size s.mMultType

def silentVole (s : Session) (P : Parties) : Except Err (Parties × VoleOutput) :=
  SilentVole.silentVole quotient aes A mulConstGF128 (ExConvCode.accOne8Sse coeffCtxGF128) s.mMultType s.draws s.delta s.size P

def run : List Session → Parties → Except Err (Parties × List VoleOutput)
  | [], P => .ok (P, [])
  | s :: rest, P => do
    let one ← s.silentVole quotient aes A P
    let run ← run rest one.1
    .ok (run.1, one.2 :: run.2)

/-- What a session delivers: the receiver the encoding of its sparse vector, and both shares of its product with
    `delta`. -/
structure Delivered (s : Session) (out : VoleOutput) : Prop where
  sizeC : out.c.size = s.size
  sizeA : out.a.size = s.size
  sizeB : out.b.size = s.size
  c : ∀ i < s.size, read out.c i =
    read (s.mMultType.encoded A coeffCtxGF128 mulConstGF128 s.size (s.params quotient).mNoiseVecSize
      (sparseVector (s.params quotient).mSizePer (s.params quotient).mNumPartitions s.draws.toSessionDraws)) i
  corr : ∀ i < s.size, read out.a i = read out.b i + gf128Mul (read out.c i) s.delta

variable {quotient A}

/-- A session that can have its memory ends, whichever code it takes. -/
theorem silentVole_ok (quotient : MultType → ℕ) (I : Idle P) (s : Session) (hdiv : A.Divides)
    (hmem : (s.params quotient).mNoiseVecSize ≤ maxBlocks) :
    ∃ P' out, s.silentVole quotient aes A P = .ok (P', out) ∧ Idle P' ∧ Delivered quotient A s out := by
  have F := syndromeDecodingConfigure_fits quotient s.size s.mMultType
  have hlt := hmem.trans_lt (by decide : maxBlocks < 2 ^ 64)
  obtain ⟨P₁, h₁, R⟩ := start_ready I quotient s.mMultType s.size
  have hcount := F.partitions
  have hsize := F.sizePer
  obtain ⟨P₂, h₂, W⟩ := R.ensureBaseOts_ok coeffCtxGF128_bit aes s.draws s.delta F.even (by omega) (by omega) F.batches
  obtain ⟨P₃, h₃, E⟩ := W.expand_ok coeffCtxGF128_xor aes (F.size ▸ hmem)
  obtain ⟨P₄, h₄, D⟩ := E.finish_ok coeffCtxGF128_xor (linear_gf128 s.delta) hdiv
    (ExConvCode.accOne8Sse_agrees fun _ _ => rfl) s.mMultType (F.size ▸ F.request) (F.size ▸ F.le_size) (F.size ▸ hlt)
  refine ⟨⟨P₄.recv.clear, P₄.send.clear⟩,
    ⟨copyOut s.size P₄.recv.mC, copyOut s.size P₄.recv.mA, copyOut s.size P₄.send.mB⟩, ?_,
    ⟨D.recv, D.send, rfl, rfl, rfl⟩, Array.size_ofFn, Array.size_ofFn, Array.size_ofFn, fun i hi => ?_, fun i hi => ?_⟩
  · rw [silentVole, SilentVole.silentVole, h₁, ok_bind, h₂, ok_bind, h₃, ok_bind, h₄, ok_bind]
  · rw [read_copyOut _ hi, D.c i hi, params, F.size]
  · rw [read_copyOut _ hi, read_copyOut _ hi, read_copyOut _ hi]
    exact D.corr i hi

/-- The comparison accepts what a session delivers. -/
theorem Delivered.compare_ok {s : Session} {out : VoleOutput} (D : Delivered quotient A s out) :
    compare coeffCtxGF128 s.size s.delta out = .ok () := by
  obtain ⟨_, hrun, -⟩ := Loop.tryRun_induct (fun _ _ => True) (n := s.size) (s := ()) (f := fun i _ =>
    let exp := coeffCtxGF128.mul s.delta (read out.c i)
    let exp := coeffCtxGF128.plus exp (read out.b i)
    if coeffCtxGF128.eq (read out.a i) exp then Except.ok () else Except.error Err.rteLoc) trivial fun i hi _ _ => by
      refine ⟨(), if_pos ?_, trivial⟩
      show (read out.a i == gf128Mul s.delta (read out.c i) + read out.b i) = true
      rw [D.corr i hi, gf128Mul_comm, add_comm, beq_self_eq_true]
  exact hrun

/-- Every run of sessions ends; each of them delivers, whatever code it takes, and its comparison succeeds. -/
theorem run_delivered (I : Idle P) (quotient : MultType → ℕ) (aes : PprfAes) (hdiv : A.Divides) (sessions : List Session)
    (hmem : ∀ s ∈ sessions, (s.params quotient).mNoiseVecSize ≤ maxBlocks) :
    ∃ P' outs, run quotient aes A sessions P = .ok (P', outs) ∧ Idle P' ∧
      List.Forall₂ (fun s out => Delivered quotient A s out ∧ compare coeffCtxGF128 s.size s.delta out = .ok ()) sessions
        outs := by
  induction sessions generalizing P with
  | nil => exact ⟨P, [], rfl, I, .nil⟩
  | cons s rest ih =>
    obtain ⟨P₁, out, hone, I₁, D⟩ := silentVole_ok aes quotient I s hdiv (hmem s List.mem_cons_self)
    obtain ⟨P₂, outs, hrest, I₂, hall⟩ := ih I₁ fun s' hs' => hmem s' (List.mem_cons_of_mem s hs')
    exact ⟨P₂, out :: outs, by rw [run, hone, ok_bind, hrest, ok_bind], I₂, .cons ⟨D, D.compare_ok⟩ hall⟩

/-- A session with one code on `128` blocks and one with another on `1000`. -/
theorem run_delivered_two :
    let g : ProtocolDraws coeffCtxGF128 := ⟨.ones coeffCtxGF128 rfl, fun i => (block 1 i, block 2 i), block 0 7, true,
      ⟨fun _ _ => 0, fun _ => 0⟩, ⟨fun _ _ => 0, fun _ => 0⟩⟩
    let quotient (type : MultType) := if type = .exAcc21 ∨ type = .exConv7x24 then 248 else 173
    let A : CodeAes := ⟨fun k x => k ^^^ x, fun x k => x ^^^ k, fun x m => x / m⟩
    let sessions : List Session := [⟨.exConv7x24, g, block 0 2, 128⟩, ⟨.exAcc21, g, block 0 3, 1000⟩]
    ∃ P' outs, run quotient default A sessions {} = .ok (P', outs) ∧ Idle P' ∧
      List.Forall₂ (fun s out => Delivered quotient A s out ∧ compare coeffCtxGF128 s.size s.delta out = .ok ()) sessions
        outs :=
  run_delivered ⟨rfl, rfl, rfl, rfl, rfl⟩ _ _ (fun _ _ _ => rfl) _ (by decide)

end Session
end SilentVole
end ExtFieldPcg
