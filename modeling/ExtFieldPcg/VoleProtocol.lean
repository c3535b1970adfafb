import ExtFieldPcg.BlockCtx
import ExtFieldPcg.VoleQasd

/-! A session over the base OTs alone: the noisy VOLE and the punctured PRF run as the code runs them, and the session
    is one of those that `VoleSession.lean` has over libOTe. -/

open Buffer

namespace ExtFieldPcg

/-! ### The code -/

/-- Block `i` that a `PRNG` of this seed gives. -/
def PprfAes.prngBlock (A : PprfAes) (seed : Block) (i : ℕ) : Block := Block.ofBytes fun k => A.prng seed (16 * i + k)

/-- What a session draws, its sub-protocols included. -/
structure ProtocolDraws (ctx : CoeffCtx Block) extends SessionDraws ctx where
  /-- The base OTs of the noisy VOLE. -/
  voleOt : ℕ → Block × Block
  /-- `prng.get()`, which the sender expands. -/
  seed : Block
  mEagerSend : Bool
  scratch : Pprf.Scratch Block × Pprf.Scratch Block

variable {ctx : CoeffCtx Block}

namespace Protocol

def genSilentBaseOts (A : PprfAes) (g : ProtocolDraws ctx) (delta : Block) (P : Parties) : Except Err Parties := do
  let recv ← P.recv.sampleBaseChoiceBits g.words
  let recv ← recv.sampleBaseVoleVals g.noise
  let depth := recv.mGen.mDepth
  let msg := Array.ofFn fun i : Fin P.send.mGen.baseOtCount => g.baseOt i
  let recvMsg := Array.ofFn fun i : Fin recv.mGen.baseOtCount =>
    TernaryDpf.key (g.baseOt i) (recv.mGen.mBaseChoices (i / depth) (i % depth))
  let vole ← NoisyVole.run ctx.noisy A.prngBlock g.voleOt recv.mBaseC delta
  let recv ← recv.setSilentBaseOts recvMsg vole.1
  let send ← P.send.setSilentBaseOts ctx msg vole.2
  .ok ⟨recv, send⟩

def ensureBaseOts (A : PprfAes) (g : ProtocolDraws ctx) (delta : Block) (P : Parties) : Except Err Parties :=
  match P.recv.mGen.hasBaseOts, P.send.mGen.hasBaseOts with
  | true, true => .ok P
  | false, false => genSilentBaseOts A g delta P
  | _, _ => .error .blocked

def expand (A : PprfAes) (g : ProtocolDraws ctx) (P : Parties) : Except Err Parties := do
  let recv ← P.recv.beginExpand g.memA g.memC
  let send ← P.send.beginExpand g.memB
  let output ← Pprf.run A ctx.pprf recv.mGen send.mGen send.baseB g.seed .interleaved true g.mEagerSend
    (copyOut recv.mA.size recv.mA, copyOut send.mB.size send.mB) g.scratch
  .ok ⟨recv.finishExpand ctx output.1, send.finishExpand output.2⟩

def beforeEncoding (A : PprfAes) (g : ProtocolDraws ctx) (delta : Block) (n : ℕ) (P : Parties) : Except Err Parties := do
  let P ← P.start n
  let P ← ensureBaseOts A g delta P
  expand A g P

/-- `silentReceive(c, a)` and `silentSend(delta, b)` on vectors of `n` blocks. -/
def silentVole (A : PprfAes) (numVar : ℕ → ℕ) (g : ProtocolDraws ctx) (delta : Block) (n : ℕ) (P : Parties) :
    Except Err (Parties × VoleOutput) := do
  let P ← beforeEncoding A g delta n P
  let P ← P.finish numVar g.toSessionDraws
  .ok (⟨P.recv.clear, P.send.clear⟩, ⟨copyOut n P.recv.mC, copyOut n P.recv.mA, copyOut n P.send.mB⟩)

end Protocol

/-! ### The punctured PRF of a session -/

/-- The PPRF is configured. -/
def RegularPprf.Valid {β : Type} (g : RegularPprf β) : Prop :=
  g.mDomain % 2 = 0 ∧ 2 ≤ g.mDomain ∧ g.mDepth = log2ceil g.mDomain

instance {β : Type} (g : RegularPprf β) : Decidable g.Valid := inferInstanceAs (Decidable (_ ∧ _))

namespace Pprf

variable {gr : RegularPprfReceiver} {gs : RegularPprf (Block × Block)}

theorem paired_of_matched (M : PprfMatched gr gs) (V : gr.Valid) : PprfPaired gr gs :=
  ⟨M.domain, M.depth, M.count, V.1, V.2.1, V.2.2, M.leaf, fun i hi k hk => by
    rw [RegularPprf.baseOt, RegularPprf.baseOt, M.depth]
    exact M.base i hi k hk⟩

theorem valueAt_eq {value : Array Block} {j : ℕ} (hj : j < value.size) : valueAt value j = read value j := by
  rw [valueAt]
  split
  next hone => rw [(by omega : j = 0)]
  next => rfl

/-- A run on matched parties, from any output memory, leaves the leaves of the sender, and the values at the points. -/
theorem run_matched (A : PprfAes) (X : XorCtx ctx) (M : PprfMatched gr gs) (V : gr.Valid) (mEagerSend : Bool) (seed : Block)
    {value : Array Block} (hvalue : value.size = gs.mPntCount) (output : Array Block × Array Block)
    (hrecv : output.1.size = gr.mDomain * gr.mPntCount) (hsend : output.2.size = gr.mDomain * gr.mPntCount)
    (scratch : Scratch Block × Scratch Block) :
    ∃ a b, run A ctx.pprf gr gs value seed .interleaved true mEagerSend output scratch = .ok (a, b) ∧
      a.size = gr.mDomain * gr.mPntCount ∧ b.size = gr.mDomain * gr.mPntCount ∧
      ∀ j < gr.mPntCount, ∀ c < gr.mDomain,
        let leaf := leafAt A ctx.pprf gr.mDepth (treeRoot A seed j) c
        read b (RegularPprfReceiver.interleave gr.mDomain j c) = leaf ∧
        read a (RegularPprfReceiver.interleave gr.mDomain j c) = if c = gr.leafPoint j then leaf + read value j else leaf := by
  obtain ⟨mValue, hprog, hread⟩ := setValue_ok (g := gs) (.inr hvalue)
  obtain ⟨a, b, hrun, ha, hb, hleaves⟩ := run_leaves A X.pprf_exact (paired_of_matched M V) (fun _ => M.batches) true
    mEagerSend seed value hprog hrecv hsend scratch
  refine ⟨a, b, hrun, ha, hb, fun j hj c hc => ⟨(hleaves j hj c hc).1, (hleaves j hj c hc).2.trans ?_⟩⟩
  have hj' : j < gs.mPntCount := M.count.symm ▸ hj
  rw [RegularPprfReceiver.deliveredAt, if_pos rfl, hread j hj', valueAt_eq (hvalue.symm ▸ hj')]
  rfl

theorem read_eq_of_leaves {n count : ℕ} {a a' : Array Block} (hmod : count % 8 = 0) (ha : a.size = n * count)
    (ha' : a'.size = n * count) (h : ∀ j < count, ∀ c < n, read a (RegularPprfReceiver.interleave n j c) =
      read a' (RegularPprfReceiver.interleave n j c)) : a = a' := by
  refine ext_read (ha.trans ha'.symm) fun x hx => ?_
  obtain ⟨j, hj, c, hc, rfl⟩ := place_surj (fun _ : PprfOutputFormat.interleaved = .interleaved => hmod) (hx.trans_eq ha)
  exact h j hj c hc

/-- Whatever the output memory and the scratch memory held, a run on matched parties ends the same. -/
theorem run_memory (A : PprfAes) (X : XorCtx ctx) (M : PprfMatched gr gs) (V : gr.Valid) (mEagerSend : Bool) (seed : Block)
    {value : Array Block} (hvalue : value.size = gs.mPntCount) (output output' : Array Block × Array Block)
    (hrecv : output.1.size = gr.mDomain * gr.mPntCount) (hsend : output.2.size = gr.mDomain * gr.mPntCount)
    (hrecv' : output'.1.size = gr.mDomain * gr.mPntCount) (hsend' : output'.2.size = gr.mDomain * gr.mPntCount)
    (scratch scratch' : Scratch Block × Scratch Block) :
    run A ctx.pprf gr gs value seed .interleaved true mEagerSend output scratch =
      run A ctx.pprf gr gs value seed .interleaved true mEagerSend output' scratch' := by
  obtain ⟨a, b, hrun, ha, hb, h⟩ := run_matched A X M V mEagerSend seed hvalue output hrecv hsend scratch
  obtain ⟨a', b', hrun', ha', hb', h'⟩ := run_matched A X M V mEagerSend seed hvalue output' hrecv' hsend' scratch'
  rw [hrun, hrun', read_eq_of_leaves M.batches ha ha' fun j hj c hc => (h j hj c hc).2.trans (h' j hj c hc).2.symm,
    read_eq_of_leaves M.batches hb hb' fun j hj c hc => (h j hj c hc).1.trans (h' j hj c hc).1.symm]

end Pprf

/-! ### The session over libOTe -/

/-- Outputs of the size that a run checks. -/
def zeroOutput (gr : RegularPprfReceiver) : Array Block × Array Block :=
  (Array.replicate (gr.mDomain * gr.mPntCount) 0, Array.replicate (gr.mDomain * gr.mPntCount) 0)

/-- The noisy VOLE and the punctured PRF as functions of their inputs; a PPRF that is not configured works in the
    clear. -/
def LibOTe.ofRun (A : PprfAes) (B : BitCtx ctx) (g : ProtocolDraws ctx) : LibOTe ctx where
  noisyVole c delta := (NoisyVole.run ctx.noisy A.prngBlock g.voleOt c delta).toOption.getD (#[], #[])
  noisyVole_size c delta := by
    rcases Nat.eq_zero_or_pos c.size with h | h
    · rw [NoisyVole.run_empty g.voleOt h delta]
      exact ⟨h.symm, h.symm⟩
    · obtain ⟨a, b, hrun, ha, hb, -⟩ := NoisyVole.run_spec B.noisy_exact A.prngBlock g.voleOt h delta
      rw [hrun]
      exact ⟨ha, hb⟩
  noisyVole_spec c delta i hi := by
    obtain ⟨a, b, hrun, -, -, h⟩ := NoisyVole.run_spec B.noisy_exact A.prngBlock g.voleOt (i.zero_le.trans_lt hi) delta
    rw [hrun, B.plus]
    exact h i hi
  pprf gr gs value :=
    if gr.Valid then
      (Pprf.run A ctx.pprf gr gs value g.seed .interleaved true g.mEagerSend (zeroOutput gr) g.scratch).toOption.getD
        (#[], #[])
    else (LibOTe.clear B.toXorCtx).pprf gr gs value
  pprf_off gr gs value M hvalue x hx hne := by
    by_cases V : gr.Valid
    · obtain ⟨a, b, hrun, -, -, h⟩ := Pprf.run_matched A B.toXorCtx M V g.mEagerSend g.seed hvalue (zeroOutput gr)
        Array.size_replicate Array.size_replicate g.scratch
      obtain ⟨j, hj, c, hc, rfl⟩ := Pprf.place_surj (fun _ : Pprf.PprfOutputFormat.interleaved = .interleaved => M.batches) hx
      have hpoint : c ≠ gr.leafPoint j := fun hpt => hne j hj ((read_getPoints hj).trans (by rw [hpt]; rfl))
      rw [if_pos V, hrun]
      exact ((h j hj c hc).2.trans (if_neg hpoint)).trans (h j hj c hc).1.symm
    · rw [if_neg V]
      exact (LibOTe.clear B.toXorCtx).pprf_off gr gs value M hvalue x hx hne
  pprf_at gr gs value M hvalue j hj := by
    by_cases V : gr.Valid
    · obtain ⟨a, b, hrun, -, -, h⟩ := Pprf.run_matched A B.toXorCtx M V g.mEagerSend g.seed hvalue (zeroOutput gr)
        Array.size_replicate Array.size_replicate g.scratch
      obtain ⟨hb, ha⟩ := h j hj (gr.leafPoint j) (M.leaf j hj)
      rw [if_pos V, hrun, read_getPoints hj, B.plus]
      exact (ha.trans (if_pos rfl)).trans (congrArg (· + _) hb.symm)
    · rw [if_neg V]
      exact (LibOTe.clear B.toXorCtx).pprf_at gr gs value M hvalue j hj

/-! ### The code refines the session over libOTe -/

variable {A : PprfAes} {B : BitCtx ctx} {g : ProtocolDraws ctx} {delta : Block} {n : ℕ} {P P' : Parties}

namespace SilentWalshVoleReceiver

/-- An expansion begins only on outputs of the size that the PPRF fills. -/
theorem beginExpand_inv {r r' : SilentWalshVoleReceiver} {memA memC : ℕ → Block} (h : r.beginExpand memA memC = .ok r') :
    r'.mGen = r.mGen ∧ r'.mA.size = r.mNoiseVecSize ∧ r.mNoiseVecSize = r.mGen.mDomain * r.mGen.mPntCount := by
  obtain ⟨a, -, h⟩ := bind_eq_ok.mp h
  obtain ⟨a', ha', h⟩ := bind_eq_ok.mp h
  obtain ⟨c, -, h⟩ := bind_eq_ok.mp h
  obtain ⟨c', -, h⟩ := bind_eq_ok.mp h
  obtain ⟨u, hu, h⟩ := bind_eq_ok.mp h
  cases h
  have hsize := (AlignedUnVector.resize_spec ha').1
  refine ⟨rfl, hsize, ?_⟩
  rw [validateExpandFormat] at hu
  split at hu
  · cases hu
  · split at hu
    · cases hu
    next heq => exact hsize.symm.trans (not_not.mp heq)

end SilentWalshVoleReceiver

theorem SilentWalshVoleSender.beginExpand_inv {s s' : SilentWalshVoleSender} {memB : ℕ → Block}
    (h : s.beginExpand memB = .ok s') : s'.mGen = s.mGen ∧ s'.mBaseB = s.mBaseB ∧ s'.mNumPartitions = s.mNumPartitions ∧
      s'.mB.size = s.mGen.mDomain * s.mGen.mPntCount := by
  obtain ⟨b, -, h⟩ := bind_eq_ok.mp h
  obtain ⟨b', hb', h⟩ := bind_eq_ok.mp h
  obtain ⟨u, hu, h⟩ := bind_eq_ok.mp h
  cases h
  refine ⟨rfl, rfl, rfl, ?_⟩
  rw [validateExpandFormat] at hu
  split at hu
  · cases hu
  · split at hu
    · cases hu
    next heq => exact not_not.mp heq

theorem RegularPprf.configure_inv {β : Type} {domainSize pointCount : ℕ} {g : RegularPprf β}
    (h : RegularPprf.configure domainSize pointCount = .ok g) :
    g.mDomain = domainSize ∧ g.mPntCount = pointCount ∧ g.Valid := by
  rw [RegularPprf.configure] at h
  split at h
  · cases h
  next heven =>
    split at h
    · cases h
    next htwo =>
      cases h
      exact ⟨rfl, rfl, by dsimp only; omega, by dsimp only; omega, rfl⟩

/-- The receiver has started on `n` blocks. -/
structure Started (n : ℕ) (r : SilentWalshVoleReceiver) : Prop where
  size : r.mNoiseVecSize = n
  count : r.mNumPartitions = 64
  genDomain : r.mGen.mDomain = n / 64
  genCount : r.mGen.mPntCount = 64
  valid : r.mGen.Valid

theorem Started.configure {r r' : SilentWalshVoleReceiver} (h : r.configure n = .ok r') :
    Started n r' ∧ r'.mRequestSize = n := by
  obtain ⟨gen, hgen, h⟩ := bind_eq_ok.mp h
  cases h
  obtain ⟨hdomain, hcount, hvalid⟩ := RegularPprf.configure_inv hgen
  exact ⟨⟨rfl, rfl, hdomain, hcount, hvalid⟩, rfl⟩

theorem Idle.started (I : Idle P) (h : P.start n = .ok P') : Started n P'.recv := by
  obtain ⟨r, hr, h⟩ := bind_eq_ok.mp h
  obtain ⟨s, -, h⟩ := bind_eq_ok.mp h
  cases h
  rw [SilentWalshVoleReceiver.start, if_pos I.recv] at hr
  obtain ⟨r', hr', h⟩ := bind_eq_ok.mp hr
  obtain ⟨S, hsize⟩ := Started.configure hr'
  dsimp only at h
  rw [hsize, if_neg (lt_irrefl n)] at h
  cases h
  exact S

theorem Started.sampleBaseChoiceBits {r r' : SilentWalshVoleReceiver} (S : Started n r) {words : ℕ → ℕ}
    (h : r.sampleBaseChoiceBits words = .ok r') : Started n r' := by
  rw [SilentWalshVoleReceiver.sampleBaseChoiceBits] at h
  split at h
  · cases h
  · cases h
    exact ⟨S.size, S.count, S.genDomain, S.genCount, S.valid⟩

theorem Started.sampleBaseVoleVals {r r' : SilentWalshVoleReceiver} (S : Started n r) {g : NoiseDraws ctx}
    (h : r.sampleBaseVoleVals g = .ok r') : Started n r' := by
  rw [SilentWalshVoleReceiver.sampleBaseVoleVals] at h
  split at h
  · cases h
  · cases h
    exact ⟨S.size, S.count, S.genDomain, S.genCount, S.valid⟩

theorem Started.setSilentBaseOts {r r' : SilentWalshVoleReceiver} (S : Started n r) {ots a : Array Block}
    (h : r.setSilentBaseOts ots a = .ok r') : Started n r' := by
  rw [SilentWalshVoleReceiver.setSilentBaseOts] at h
  split at h
  · cases h
  · split at h
    · cases h
    · obtain ⟨gen, hgen, h⟩ := bind_eq_ok.mp h
      cases h
      rw [RegularPprf.setBase] at hgen
      split at hgen
      · cases hgen
      · cases hgen
        exact ⟨S.size, S.count, S.genDomain, S.genCount, S.valid⟩

theorem WithBase.size_baseB {domain : ℕ} {g : SessionDraws ctx} (W : WithBase ctx g delta domain P) :
    P.send.baseB.size = P.send.mGen.mPntCount := by
  rw [W.matched.count, W.genCount, ← W.sendCount]
  exact Array.size_ofFn

/-- Base OTs leave the sizes of a receiver as they are. -/
theorem Started.ensureBaseOts (S : Started n P.recv) {L : LibOTe ctx} {g : SessionDraws ctx}
    (h : P.ensureBaseOts L g delta = .ok P') : Started n P'.recv := by
  rw [Parties.ensureBaseOts] at h
  split at h
  · cases h
    exact S
  · obtain ⟨r, hr, h⟩ := bind_eq_ok.mp h
    obtain ⟨r', hr', h⟩ := bind_eq_ok.mp h
    obtain ⟨r'', hr'', h⟩ := bind_eq_ok.mp h
    obtain ⟨s, -, h⟩ := bind_eq_ok.mp h
    cases h
    exact ((S.sampleBaseChoiceBits hr).sampleBaseVoleVals hr').setSilentBaseOts hr''
  · cases h

namespace Protocol

theorem genSilentBaseOts_eq (hcount : 0 < P.recv.mNumPartitions) :
    genSilentBaseOts A g delta P = P.genSilentBaseOts (.ofRun A B g) g.toSessionDraws delta := by
  rw [genSilentBaseOts, Parties.genSilentBaseOts, SilentWalshVoleReceiver.sampleBaseChoiceBits]
  split
  · rfl
  next hstate =>
    rw [ok_bind, ok_bind, SilentWalshVoleReceiver.sampleBaseVoleVals, if_neg hstate, ok_bind, ok_bind]
    have hsize : (Array.ofFn fun i : Fin P.recv.mNumPartitions => g.noise.sample i).size = P.recv.mNumPartitions :=
      Array.size_ofFn
    obtain ⟨a, b, hrun, -⟩ := NoisyVole.run_spec B.noisy_exact A.prngBlock g.voleOt (hcount.trans_eq hsize.symm) delta
    simp only [LibOTe.ofRun, hrun, ok_bind]
    rfl

theorem ensureBaseOts_eq (hcount : 0 < P.recv.mNumPartitions) :
    ensureBaseOts A g delta P = P.ensureBaseOts (.ofRun A B g) g.toSessionDraws delta := by
  unfold ensureBaseOts Parties.ensureBaseOts
  cases P.recv.mGen.hasBaseOts <;> cases P.send.mGen.hasBaseOts
  · exact genSilentBaseOts_eq hcount
  all_goals rfl

/-- The expansion of parties that are matched whenever their sizes fit. -/
theorem expand_eq (h : P.recv.mNoiseVecSize = P.recv.mGen.mDomain * P.recv.mGen.mPntCount →
      PprfMatched P.recv.mGen P.send.mGen ∧ P.recv.mGen.Valid ∧ P.send.baseB.size = P.send.mGen.mPntCount) :
    expand A g P = P.expand (.ofRun A B g) g.toSessionDraws := by
  rw [expand, Parties.expand]
  cases hrecv : P.recv.beginExpand g.memA g.memC with
  | error e => rfl
  | ok r =>
    obtain ⟨hgen, hsize, hfit⟩ := SilentWalshVoleReceiver.beginExpand_inv hrecv
    obtain ⟨M, V, hvalue⟩ := h hfit
    rw [ok_bind, ok_bind]
    cases hsend : P.send.beginExpand g.memB with
    | error e => rfl
    | ok s =>
      obtain ⟨hgen', hbase, hnum, hsize'⟩ := SilentWalshVoleSender.beginExpand_inv hsend
      have hvalue' : s.baseB = P.send.baseB := by rw [SilentWalshVoleSender.baseB, SilentWalshVoleSender.baseB, hbase, hnum]
      rw [M.domain, M.count] at hsize'
      have hmemory := Pprf.run_memory A B.toXorCtx M V g.mEagerSend g.seed hvalue
        (copyOut r.mA.size r.mA, copyOut s.mB.size s.mB) (zeroOutput P.recv.mGen)
        (Array.size_ofFn.trans (hsize.trans hfit)) (Array.size_ofFn.trans hsize') Array.size_replicate Array.size_replicate
        g.scratch g.scratch
      obtain ⟨a, b, hrun, -⟩ := Pprf.run_matched A B.toXorCtx M V g.mEagerSend g.seed hvalue (zeroOutput P.recv.mGen)
        Array.size_replicate Array.size_replicate g.scratch
      rw [ok_bind, ok_bind, hgen, hgen', hvalue', hmemory, hrun, ok_bind, LibOTe.ofRun]
      simp only [if_pos V, hrun]
      rfl

/-- An expansion leaves points, base OTs and base VOLE as they are. -/
theorem expand_frame (h : expand A g P = .ok P') : P'.recv.mBaseA = P.recv.mBaseA ∧
    P'.recv.mBaseC = P.recv.mBaseC ∧ P'.recv.mS = P.recv.mS ∧ P'.recv.mNumPartitions = P.recv.mNumPartitions ∧
    P'.send.mBaseB = P.send.mBaseB := by
  obtain ⟨r, hr, h⟩ := bind_eq_ok.mp h
  obtain ⟨s, hs, h⟩ := bind_eq_ok.mp h
  obtain ⟨out, -, h⟩ := bind_eq_ok.mp h
  cases h
  obtain ⟨-, hbase, -⟩ := SilentWalshVoleSender.beginExpand_inv hs
  obtain ⟨a, -, hr⟩ := bind_eq_ok.mp hr
  obtain ⟨a', -, hr⟩ := bind_eq_ok.mp hr
  obtain ⟨c, -, hr⟩ := bind_eq_ok.mp hr
  obtain ⟨c', -, hr⟩ := bind_eq_ok.mp hr
  obtain ⟨u, -, hr⟩ := bind_eq_ok.mp hr
  cases hr
  exact ⟨rfl, rfl, rfl, rfl, hbase⟩

theorem beforeEncoding_eq (I : Idle P) :
    beforeEncoding A g delta n P = P.beforeEncoding (.ofRun A B g) g.toSessionDraws delta n := by
  rw [beforeEncoding, Parties.beforeEncoding]
  cases hstart : P.start n with
  | error e => rfl
  | ok P₁ =>
    have S := I.started hstart
    rw [ok_bind, ok_bind, ensureBaseOts_eq (B := B) (S.count.symm ▸ (by decide))]
    cases hbase : P₁.ensureBaseOts (.ofRun A B g) g.toSessionDraws delta with
    | error e => rfl
    | ok P₂ =>
      refine expand_eq fun hfit => ?_
      have S' := S.ensureBaseOts hbase
      rw [S'.size, S'.genDomain, S'.genCount] at hfit
      obtain ⟨heven, htwo, -⟩ := S.valid
      rw [S.genDomain] at heven htwo
      rw [hfit] at hstart
      obtain ⟨P₁', hstart', C⟩ := I.start_ok heven htwo
      obtain rfl := Except.ok.inj (hstart.symm.trans hstart')
      obtain ⟨P₂', hbase', W⟩ := C.ensureBaseOts_ok B.toXorCtx (.ofRun A B g) g.toSessionDraws delta (by omega)
      obtain rfl := Except.ok.inj (hbase.symm.trans hbase')
      exact ⟨W.matched, S'.valid, W.size_baseB⟩

/-- A session of idle parties, on any number of blocks, is the session over libOTe. -/
theorem silentVole_eq (I : Idle P) (numVar : ℕ → ℕ) :
    silentVole A numVar g delta n P = P.silentVole (.ofRun A B g) numVar g.toSessionDraws delta n := by
  rw [silentVole, beforeEncoding_eq (B := B) I, Parties.silentVole, Parties.inplace]
  cases P.beforeEncoding (.ofRun A B g) g.toSessionDraws delta n <;> rfl

end Protocol

end ExtFieldPcg
