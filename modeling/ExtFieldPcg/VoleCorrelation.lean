import ExtFieldPcg.F4Ring
import ExtFieldPcg.VoleSession

/-! The correlation of a session, from the configuration to the sparse vectors that are encoded: at every
    index `mA = mB + mC * delta`, and `mC` holds the noise at the interleaved points. -/

open Buffer

namespace ExtFieldPcg

/-- The contexts on blocks that add by XOR. -/
structure XorCtx (ctx : CoeffCtx Block) : Prop where
  plus : ∀ x y, ctx.plus x y = x + y
  minus : ∀ x y, ctx.minus x y = x + y
  zero : ctx.zero = 0
  add_mul : ∀ x y z, ctx.mul (x + y) z = ctx.mul x z + ctx.mul y z

theorem XorCtx.zero_mul {ctx : CoeffCtx Block} (X : XorCtx ctx) (z : Block) : ctx.mul 0 z = 0 := by
  have h := X.add_mul 0 0 z
  rw [add_zero] at h
  rw [h, Block.add_self]

theorem coeffCtxGF128_xor : XorCtx coeffCtxGF128 := ⟨fun _ _ => rfl, fun _ _ => rfl, rfl, add_gf128Mul⟩

theorem coeffCtxGF128F4_xor : XorCtx coeffCtxGF128F4 := ⟨fun _ _ => rfl, fun _ _ => rfl, rfl, add_f4Mul⟩

/-- What the PPRF in the clear puts at `x`: the value of the tree whose point is there. -/
def clearValue (gr : RegularPprfReceiver) (value : Array Block) (x : ℕ) : Block :=
  ((List.range gr.mPntCount).find? fun j => read gr.getPoints j == x).elim 0 (read value)

theorem read_getPoints {gr : RegularPprfReceiver} {j : ℕ} (hj : j < gr.mPntCount) :
    read gr.getPoints j = RegularPprfReceiver.interleave gr.mDomain j (gr.leafPoint j) :=
  read_ofFn (fun j => RegularPprfReceiver.interleave gr.mDomain j (gr.leafPoint j)) hj

theorem clearValue_off {gr : RegularPprfReceiver} (value : Array Block) {x : ℕ}
    (hne : ∀ j < gr.mPntCount, read gr.getPoints j ≠ x) : clearValue gr value x = 0 := by
  have hnone : (List.range gr.mPntCount).find? (fun j => read gr.getPoints j == x) = none := by simpa using hne
  rw [clearValue, hnone, Option.elim_none]

theorem clearValue_at {gr : RegularPprfReceiver} {gs : RegularPprf (Block × Block)} (M : PprfMatched gr gs)
    (value : Array Block) {j : ℕ} (hj : j < gr.mPntCount) :
    clearValue gr value (read gr.getPoints j) = read value j := by
  obtain ⟨i, hi⟩ : ∃ i, (List.range gr.mPntCount).find? (fun i => read gr.getPoints i == read gr.getPoints j) = some i := by
    rw [← Option.isSome_iff_exists, List.find?_isSome]
    exact ⟨j, List.mem_range.mpr hj, beq_self_eq_true _⟩
  have hpoint : read gr.getPoints i = read gr.getPoints j := by
    simpa using List.find?_some (p := fun i => read gr.getPoints i == read gr.getPoints j) hi
  have hlt := List.mem_range.mp (List.mem_of_find?_eq_some hi)
  rw [read_getPoints hlt, read_getPoints hj] at hpoint
  have hij := (RegularPprfReceiver.interleave_inj (M.leaf i hlt) (M.leaf j hj) hpoint).1
  rw [clearValue, hi, Option.elim_some, hij]

/-- The parts of libOTe in the clear: all shares of the sender are zero. -/
def LibOTe.clear {ctx : CoeffCtx Block} (X : XorCtx ctx) : LibOTe ctx where
  noisyVole c delta := (c.map (ctx.mul · delta), Array.replicate c.size 0)
  noisyVole_size c delta := by simp
  noisyVole_spec c delta i hi := by
    rw [read_map _ hi, X.plus]
    exact (zero_add _).symm.trans (congrArg (· + _) (read_replicate_default _ _).symm)
  pprf gr _ value := (Array.ofFn fun x : Fin (gr.mDomain * gr.mPntCount) => clearValue gr value x, #[])
  pprf_off gr gs value M _ x hx hne := by
    rw [read_ofFn (clearValue gr value) hx, clearValue_off value hne]
    rfl
  pprf_at gr gs value M _ j hj := by
    have hlt : read gr.getPoints j < gr.mDomain * gr.mPntCount := by
      rw [read_getPoints hj]
      exact RegularPprfReceiver.interleave_lt (M.leaf j hj) M.batches hj
    rw [read_ofFn (clearValue gr value) hlt, clearValue_at M value hj, X.plus]
    exact (zero_add _).symm

def noisePoint (domain : ℕ) (words : ℕ → ℕ) (j : ℕ) : ℕ := RegularPprfReceiver.interleave domain j (words j % domain)

theorem noisePoint_inj {domain i j : ℕ} {words : ℕ → ℕ} (hdomain : 0 < domain)
    (h : noisePoint domain words i = noisePoint domain words j) : i = j :=
  (RegularPprfReceiver.interleave_inj (Nat.mod_lt _ hdomain) (Nat.mod_lt _ hdomain) h).1

/-- The points are different, so that the sum at an entry has at most one term. -/
theorem eq_sum_noise {domain count x : ℕ} {words : ℕ → ℕ} {sample : ℕ → Block} {y : Block} (hdomain : 0 < domain)
    (hat : ∀ j < count, noisePoint domain words j = x → y = sample j)
    (hoff : (∀ j < count, noisePoint domain words j ≠ x) → y = 0) :
    y = ∑ j ∈ Finset.range count, if noisePoint domain words j = x then sample j else 0 := by
  by_cases h : ∃ j < count, noisePoint domain words j = x
  · obtain ⟨j, hj, rfl⟩ := h
    rw [hat j hj rfl, Finset.sum_eq_single_of_mem j (Finset.mem_range.mpr hj) fun i _ hne =>
      if_neg fun h => hne (noisePoint_inj hdomain h), if_pos rfl]
  · have hne : ∀ j < count, noisePoint domain words j ≠ x := fun j hj hx => h ⟨j, hj, hx⟩
    rw [hoff hne, Finset.sum_eq_zero fun j hj => if_neg (hne j (Finset.mem_range.mp hj))]

theorem noisePoint_lt {domain j : ℕ} (words : ℕ → ℕ) (hdomain : 0 < domain) (hj : j < 64) :
    noisePoint domain words j < domain * 64 :=
  RegularPprfReceiver.interleave_lt (Nat.mod_lt _ hdomain) rfl hj

/-! ### The stages of a session -/

/-- Between two sessions. -/
structure Idle (P : Parties) : Prop where
  recv : P.recv.mState = .default
  send : P.send.mState = .default
  mA : P.recv.mA = .empty
  mC : P.recv.mC = .empty
  mB : P.send.mB = .empty

/-- Both parties are configured for `64` trees of `domain` leaves. -/
structure Configured (domain : ℕ) (P : Parties) : Prop where
  recv : P.recv.mState = .configured
  send : P.send.mState = .configured
  recvSize : P.recv.mNoiseVecSize = domain * 64
  sendSize : P.send.mNoiseVecSize = domain * 64
  recvCount : P.recv.mNumPartitions = 64
  sendCount : P.send.mNumPartitions = 64
  recvGen : P.recv.mGen.toRegularPprf = ⟨domain, log2ceil domain, 64, #[]⟩
  sendGen : P.send.mGen = ⟨domain, log2ceil domain, 64, #[]⟩
  mA : P.recv.mA = .empty
  mC : P.recv.mC = .empty
  mB : P.send.mB = .empty

/-- Base OTs and base VOLE are set: the sum of both shares is the product of noise and `delta`. -/
structure WithBase (ctx : CoeffCtx Block) (g : SessionDraws ctx) (delta : Block) (domain : ℕ) (P : Parties) : Prop where
  recvSize : P.recv.mNoiseVecSize = domain * 64
  sendSize : P.send.mNoiseVecSize = domain * 64
  recvCount : P.recv.mNumPartitions = 64
  sendCount : P.send.mNumPartitions = 64
  genDomain : P.recv.mGen.mDomain = domain
  genCount : P.recv.mGen.mPntCount = 64
  matched : PprfMatched P.recv.mGen P.send.mGen
  points : P.recv.mS = P.recv.mGen.getPoints
  point : ∀ j < 64, read P.recv.mGen.getPoints j = noisePoint domain g.words j
  baseC : ∀ j < 64, read P.recv.mBaseC j = g.noise.sample j
  base : ∀ j < 64, read P.recv.mBaseA j + read P.send.baseB j = ctx.mul (read P.recv.mBaseC j) delta
  mA : P.recv.mA = .empty
  mC : P.recv.mC = .empty
  mB : P.send.mB = .empty

/-- The sparse vectors before they are encoded. -/
structure Expanded (ctx : CoeffCtx Block) (g : SessionDraws ctx) (delta : Block) (domain : ℕ) (P : Parties) : Prop where
  sizeA : P.recv.mA.size = domain * 64
  sizeB : P.send.mB.size = domain * 64
  sizeC : P.recv.mC.size = domain * 64
  capacityA : P.recv.mA.mem.size = domain * 64
  capacityB : P.send.mB.mem.size = domain * 64
  capacityC : P.recv.mC.mem.size = domain * 64
  point : ∀ j < 64, read P.recv.mS j = noisePoint domain g.words j
  baseC : ∀ j < 64, read P.recv.mBaseC j = g.noise.sample j
  noise : ∀ j < 64, P.recv.mC.get (noisePoint domain g.words j) = g.noise.sample j
  zero : ∀ x < domain * 64, (∀ j < 64, noisePoint domain g.words j ≠ x) → P.recv.mC.get x = 0
  corr : ∀ x < domain * 64, P.recv.mA.get x = P.send.mB.get x + ctx.mul (P.recv.mC.get x) delta

variable {ctx : CoeffCtx Block} {L : LibOTe ctx} {g : SessionDraws ctx} {delta : Block} {domain : ℕ} {P : Parties}

theorem SilentWalshVoleReceiver.configure_ok (r : SilentWalshVoleReceiver) (heven : domain % 2 = 0) (hdomain : 2 ≤ domain) :
    r.configure (domain * 64) = .ok { r.configured (domain * 64) with
      mGen := { r.mGen with toRegularPprf := ⟨domain, log2ceil domain, 64, #[]⟩ } } := by
  have hdiv : domain * 64 / 64 = domain := Nat.mul_div_cancel domain (by omega)
  simp only [configure, configured, hdiv, RegularPprf.configure_ok heven hdomain, ok_bind]

theorem SilentWalshVoleSender.configure_ok (s : SilentWalshVoleSender) (heven : domain % 2 = 0) (hdomain : 2 ≤ domain) :
    s.configure (domain * 64) = .ok { s.configured (domain * 64) with
      mGen := ⟨domain, log2ceil domain, 64, #[]⟩ } := by
  have hdiv : domain * 64 / 64 = domain := Nat.mul_div_cancel domain (by omega)
  simp only [configure, configured, hdiv, RegularPprf.configure_ok heven hdomain, ok_bind]

theorem SilentWalshVoleReceiver.start_ok {r r' : SilentWalshVoleReceiver} {n : ℕ} (hstate : r.mState = .default)
    (hconfigure : r.configure n = .ok r') (hsize : r'.mRequestSize = n) : r.start n = .ok r' := by
  simp only [start, hstate, if_true, hconfigure, ok_bind, hsize, lt_irrefl, if_false]

theorem SilentWalshVoleSender.start_ok {s s' : SilentWalshVoleSender} {n : ℕ} (hstate : s.mState = .default)
    (hconfigure : s.configure n = .ok s') (hsize : s'.mRequestSize = n) : s.start n = .ok s' := by
  simp only [start, hstate, if_true, hconfigure, ok_bind, hsize, lt_irrefl, if_false]

theorem Idle.start_ok (I : Idle P) (heven : domain % 2 = 0) (hdomain : 2 ≤ domain) :
    ∃ P', P.start (domain * 64) = .ok P' ∧ Configured domain P' := by
  have hrecv := SilentWalshVoleReceiver.start_ok I.recv (P.recv.configure_ok heven hdomain) rfl
  have hsend := SilentWalshVoleSender.start_ok I.send (P.send.configure_ok heven hdomain) rfl
  refine ⟨_, by rw [Parties.start, hrecv, ok_bind, hsend, ok_bind], ?_⟩
  exact ⟨rfl, rfl, rfl, rfl, rfl, rfl, rfl, rfl, I.mA, I.mC, I.mB⟩

/-! ### Base OTs and base VOLE -/

/-- The PPRF of the receiver once its points are sampled. -/
def receiverGen (domain : ℕ) (words : ℕ → ℕ) (baseOTs : Array Block) : RegularPprfReceiver :=
  ⟨⟨domain, log2ceil domain, 64, baseOTs⟩, fun i j => (words i % domain).testBit j⟩

theorem leafPoint_receiverGen (hdomain : 0 < domain) (words : ℕ → ℕ) (baseOTs : Array Block) (j : ℕ) :
    (receiverGen domain words baseOTs).leafPoint j = words j % domain :=
  RegularPprfReceiver.leafPoint_sampleChoiceBits ⟨⟨domain, log2ceil domain, 64, baseOTs⟩, fun _ _ => false⟩ words
    hdomain rfl j

theorem getPoints_receiverGen (hdomain : 0 < domain) (words : ℕ → ℕ) (baseOTs : Array Block) {j : ℕ} (hj : j < 64) :
    read (receiverGen domain words baseOTs).getPoints j = noisePoint domain words j := by
  refine (read_getPoints hj).trans ?_
  rw [leafPoint_receiverGen hdomain]
  rfl

def sampled (domain : ℕ) (g : SessionDraws ctx) (r : SilentWalshVoleReceiver) : SilentWalshVoleReceiver :=
  { r with
    mNumPartitions := 64
    mGen := receiverGen domain g.words #[]
    mBaseC := Array.ofFn fun i : Fin 64 => g.noise.sample i
    mS := (receiverGen domain g.words #[]).getPoints }

theorem Configured.sample_ok (C : Configured domain P) (g : SessionDraws ctx) :
    (do
      let r ← P.recv.sampleBaseChoiceBits g.words
      r.sampleBaseVoleVals g.noise) = .ok (sampled domain g P.recv) := by
  have hstate : P.recv.mState ≠ .default := by simp [C.recv]
  have hgen : P.recv.mGen.sampleChoiceBits g.words = receiverGen domain g.words #[] := by
    rw [RegularPprfReceiver.sampleChoiceBits, C.recvGen]
    rfl
  rw [SilentWalshVoleReceiver.sampleBaseChoiceBits, if_neg hstate, ok_bind,
    SilentWalshVoleReceiver.sampleBaseVoleVals, if_neg hstate, hgen, C.recvCount]
  rfl

def baseOTs (domain : ℕ) (g : SessionDraws ctx) : Array Block :=
  Array.ofFn fun i : Fin (log2ceil domain * 64) =>
    TernaryDpf.key (g.baseOt i) ((g.words (i / log2ceil domain) % domain).testBit (i % log2ceil domain))

theorem read_baseOTs (g : SessionDraws ctx) {i j : ℕ} (hi : i < 64) (hj : j < log2ceil domain) :
    read (baseOTs domain g) (i * log2ceil domain + j) =
      TernaryDpf.key (g.baseOt (i * log2ceil domain + j)) ((g.words i % domain).testBit j) := by
  have hlt : i * log2ceil domain + j < log2ceil domain * 64 := by
    rw [Nat.mul_comm (log2ceil domain)]
    exact Loop.grid_lt hi hj
  have h := read_ofFn (fun x => TernaryDpf.key (g.baseOt x)
    ((g.words (x / log2ceil domain) % domain).testBit (x % log2ceil domain))) hlt
  rw [Loop.grid_div hj, Loop.grid_mod hj] at h
  exact h

theorem Configured.setRecv_ok (C : Configured domain P) (g : SessionDraws ctx) (baseA : Array Block) :
    (sampled domain g P.recv).setSilentBaseOts (baseOTs domain g) baseA = .ok { sampled domain g P.recv with
      mGen := receiverGen domain g.words (Array.ofFn fun i : Fin ((64 + 7) / 8 * 8 * log2ceil domain) =>
        read (baseOTs domain g) i)
      mBaseA := baseA
      mState := .hasBase } := by
  have hstate : (sampled domain g P.recv).mState ≠ .default := by simp [sampled, C.recv]
  have hgen : (sampled domain g P.recv).mGen = receiverGen domain g.words #[] := rfl
  have hcount : (receiverGen domain g.words #[]).baseOtCount = (baseOTs domain g).size := Array.size_ofFn.symm
  rw [SilentWalshVoleReceiver.setSilentBaseOts, if_neg hstate, hgen, if_neg (not_not.mpr hcount.symm),
    RegularPprf.setBase, if_neg (not_not.mpr hcount), ok_bind]
  rfl

theorem Configured.setSend_ok (C : Configured domain P) (g : SessionDraws ctx) {b : Array Block} (hb : b.size = 64) :
    P.send.setSilentBaseOts ctx (Array.ofFn fun i : Fin (log2ceil domain * 64) => g.baseOt i) b = .ok { P.send with
      mGen := ⟨domain, log2ceil domain, 64, Array.ofFn fun i : Fin (64 * log2ceil domain) =>
        read (Array.ofFn fun i : Fin (log2ceil domain * 64) => g.baseOt i) i⟩
      mBaseB := Array.ofFn fun i : Fin b.size => ctx.minus ctx.zero (read b i) } := by
  have hstate : P.send.mState ≠ .default := by simp [C.send]
  rw [SilentWalshVoleSender.setSilentBaseOts, if_neg hstate, C.sendGen, RegularPprf.baseOtCount, if_neg (by simp),
    if_neg (by simp [hb, C.sendCount]), RegularPprf.setBase, RegularPprf.baseOtCount, if_neg (by simp), ok_bind]

theorem receiverGen_matched (hdomain : 0 < domain) (g : SessionDraws ctx) :
    PprfMatched
      (receiverGen domain g.words (Array.ofFn fun i : Fin ((64 + 7) / 8 * 8 * log2ceil domain) =>
        read (baseOTs domain g) i))
      ⟨domain, log2ceil domain, 64, Array.ofFn fun i : Fin (64 * log2ceil domain) =>
        read (Array.ofFn fun i : Fin (log2ceil domain * 64) => g.baseOt i) i⟩ := by
  refine ⟨rfl, rfl, rfl, by simp [receiverGen], fun j _ => ?_, fun i hi j hj => ?_⟩
  · rw [leafPoint_receiverGen hdomain]
    exact Nat.mod_lt _ hdomain
  · have hlt : i * log2ceil domain + j < 64 * log2ceil domain := Loop.grid_lt hi hj
    have hlt' : i * log2ceil domain + j < log2ceil domain * 64 := by rwa [Nat.mul_comm (log2ceil domain)]
    refine (read_ofFn (read (baseOTs domain g)) hlt).trans ?_
    refine Eq.trans ?_ (congrArg (TernaryDpf.key · _) (read_ofFn
      (read (Array.ofFn fun i : Fin (log2ceil domain * 64) => g.baseOt i)) hlt).symm)
    rw [read_ofFn g.baseOt hlt']
    exact read_baseOTs g hi hj

theorem Configured.ensureBaseOts_ok (C : Configured domain P) (X : XorCtx ctx) (L : LibOTe ctx) (g : SessionDraws ctx)
    (delta : Block) (hdomain : 0 < domain) :
    ∃ P', P.ensureBaseOts L g delta = .ok P' ∧ WithBase ctx g delta domain P' := by
  have hrecv : P.recv.mGen.hasBaseOts = false := by simp [RegularPprf.hasBaseOts, C.recvGen]
  have hsend : P.send.mGen.hasBaseOts = false := by simp [RegularPprf.hasBaseOts, C.sendGen]
  have hcount : P.send.mGen.baseOtCount = log2ceil domain * 64 := by rw [C.sendGen]; rfl
  have hsampled : (sampled domain g P.recv).mBaseC.size = 64 := Array.size_ofFn
  have hvole := L.noisyVole_size (sampled domain g P.recv).mBaseC delta
  have hspec := L.noisyVole_spec (sampled domain g P.recv).mBaseC delta
  rw [hsampled] at hvole hspec
  have hset := C.setRecv_ok g (L.noisyVole (sampled domain g P.recv).mBaseC delta).1
  have hset' := C.setSend_ok g hvole.2
  have hgen : P.genSilentBaseOts L g delta = (do
      let recv ← (sampled domain g P.recv).setSilentBaseOts (baseOTs domain g)
        (L.noisyVole (sampled domain g P.recv).mBaseC delta).1
      let send ← P.send.setSilentBaseOts ctx (Array.ofFn fun i : Fin (log2ceil domain * 64) => g.baseOt i)
        (L.noisyVole (sampled domain g P.recv).mBaseC delta).2
      .ok ⟨recv, send⟩) := by
    rw [Parties.genSilentBaseOts, ← bind_assoc, C.sample_ok g, ok_bind, hcount]
    rfl
  rw [hset, ok_bind, hset', ok_bind] at hgen
  rw [Parties.ensureBaseOts, hrecv, hsend]
  refine ⟨_, hgen, C.recvSize, C.sendSize, rfl, C.sendCount, rfl, rfl, receiverGen_matched hdomain g, rfl,
    fun j hj => getPoints_receiverGen hdomain g.words _ hj, fun j hj => read_ofFn g.noise.sample hj, fun j hj => ?_,
    C.mA, C.mC, C.mB⟩
  generalize L.noisyVole (sampled domain g P.recv).mBaseC delta = vole at hvole hspec
  have hneg : read (Array.ofFn fun i : Fin vole.2.size => ctx.minus ctx.zero (read vole.2 i)) j = read vole.2 j := by
    rw [read_ofFn (fun i => ctx.minus ctx.zero (read vole.2 i)) (hvole.2.symm ▸ hj), X.minus, X.zero, zero_add]
  have hbaseB := read_ofFn (read (Array.ofFn fun i : Fin vole.2.size => ctx.minus ctx.zero (read vole.2 i)))
    (C.sendCount.symm ▸ hj)
  refine (congrArg₂ (· + ·) (hspec j hj) (hbaseB.trans hneg)).trans ?_
  rw [X.plus, add_right_comm, Block.add_self, zero_add]

/-! ### The expansion -/

/-- After `t` rounds of the noise loop the first `t` points `S` are served, all else is as before. -/
structure NoiseAdded (ctx : CoeffCtx Block) (r : SilentWalshVoleReceiver) (S : ℕ → ℕ) (t : ℕ)
    (st : AlignedUnVector × AlignedUnVector) : Prop where
  sizeA : st.1.size = r.mA.size
  sizeC : st.2.size = r.mC.size
  capacityA : st.1.mem.size = r.mA.mem.size
  capacityC : st.2.mem.size = r.mC.mem.size
  atA : ∀ j < t, st.1.get (S j) = ctx.plus (r.mA.get (S j)) (read r.mBaseA j)
  atC : ∀ j < t, st.2.get (S j) = read r.mBaseC j
  offA : ∀ x, (∀ j < t, S j ≠ x) → st.1.get x = r.mA.get x
  offC : ∀ x, (∀ j < t, S j ≠ x) → st.2.get x = r.mC.get x

theorem addNoise_spec {r : SilentWalshVoleReceiver} {S : ℕ → ℕ} {count : ℕ} (hcount : r.mNumPartitions = count)
    (hS : ∀ j < count, read r.mS j = S j) (hinj : ∀ i j, S i = S j → i = j)
    (hA : ∀ j < count, S j < r.mA.size) (hC : ∀ j < count, S j < r.mC.size) :
    NoiseAdded ctx r S count ((r.addNoise ctx).mA, (r.addNoise ctx).mC) := by
  have hstart : NoiseAdded ctx r S 0 (r.mA, r.mC) :=
    ⟨rfl, rfl, rfl, rfl, by simp, by simp, fun _ _ => rfl, fun _ _ => rfl⟩
  rw [SilentWalshVoleReceiver.addNoise, hcount]
  show NoiseAdded ctx r S count (Loop.run count (r.noiseRound ctx) (r.mA, r.mC))
  refine Loop.run_induct (NoiseAdded ctx r S) hstart fun t ht st I => ?_
  have hne (j : ℕ) (hj : j < t) : S t ≠ S j := fun h => by
    have := hinj _ _ h
    omega
  have hoff := I.offA (S t) fun j hj h => hne j hj h.symm
  rw [SilentWalshVoleReceiver.noiseRound, hS t ht]
  refine ⟨I.sizeA, I.sizeC, ?_, ?_, fun j hj => ?_, fun j hj => ?_, fun x hx => ?_, fun x hx => ?_⟩
  · rw [AlignedUnVector.size_mem_set, I.capacityA]
  · rw [AlignedUnVector.size_mem_set, I.capacityC]
  · rcases Nat.lt_succ_iff_lt_or_eq.mp hj with hj | rfl
    · rw [AlignedUnVector.get_set_ne (hne j hj), I.atA j hj]
    · rw [AlignedUnVector.get_set_self (I.sizeA.symm ▸ hA j ht), hoff]
  · rcases Nat.lt_succ_iff_lt_or_eq.mp hj with hj | rfl
    · rw [AlignedUnVector.get_set_ne (hne j hj), I.atC j hj]
    · rw [AlignedUnVector.get_set_self (I.sizeC.symm ▸ hC j ht)]
  · rw [AlignedUnVector.get_set_ne (hx t (by omega)), I.offA x fun j hj => hx j (by omega)]
  · rw [AlignedUnVector.get_set_ne (hx t (by omega)), I.offC x fun j hj => hx j (by omega)]

/-- Expansions that differ by `baseB` at the points are correlated once the noise is added. -/
theorem NoiseAdded.corr {r : SilentWalshVoleReceiver} {S : ℕ → ℕ} {st : AlignedUnVector × AlignedUnVector} {count : ℕ}
    (N : NoiseAdded ctx r S count st) (X : XorCtx ctx) {baseB : Array Block} (x : ℕ) (b : Block) (hzero : r.mC.get x = 0)
    (hat : ∀ j < count, S j = x → r.mA.get x = b + read baseB j)
    (hoff : (∀ j < count, S j ≠ x) → r.mA.get x = b)
    (hbase : ∀ j < count, read r.mBaseA j + read baseB j = ctx.mul (read r.mBaseC j) delta) :
    st.1.get x = b + ctx.mul (st.2.get x) delta := by
  by_cases h : ∃ j < count, S j = x
  · obtain ⟨j, hj, rfl⟩ := h
    rw [N.atA j hj, N.atC j hj, X.plus, hat j hj rfl, ← hbase j hj]
    abel
  · have hne : ∀ j < count, S j ≠ x := fun j hj hx => h ⟨j, hj, hx⟩
    rw [N.offA x hne, N.offC x hne, hoff hne, hzero, X.zero_mul, add_zero]

theorem WithBase.beginRecv_ok (W : WithBase ctx g delta domain P) (hmem : domain * 64 ≤ maxBlocks) (memA memC : ℕ → Block) :
    ∃ wA wC : AlignedUnVector, P.recv.beginExpand memA memC = .ok { P.recv with mA := wA, mC := wC.fill fun _ => 0 } ∧
      (wA.size = domain * 64 ∧ wA.mem.size = domain * 64) ∧ wC.size = domain * 64 ∧ wC.mem.size = domain * 64 := by
  obtain ⟨wA, hwA, hA⟩ := AlignedUnVector.resize_empty hmem memA
  obtain ⟨wC, hwC, hC⟩ := AlignedUnVector.resize_empty hmem memC
  refine ⟨wA, wC, ?_, hA, hC⟩
  rw [SilentWalshVoleReceiver.beginExpand, W.mA, W.mC, W.genDomain, W.genCount]
  simp only [AlignedUnVector.resize_empty_zero, ok_bind, W.recvSize, hwA, hwC, hA.1, validateExpandFormat_ok]

theorem WithBase.beginSend_ok (W : WithBase ctx g delta domain P) (hmem : domain * 64 ≤ maxBlocks) (memB : ℕ → Block) :
    ∃ wB : AlignedUnVector, P.send.beginExpand memB = .ok { P.send with mB := wB } ∧ wB.size = domain * 64 ∧
      wB.mem.size = domain * 64 := by
  obtain ⟨wB, hwB, hB⟩ := AlignedUnVector.resize_empty hmem memB
  refine ⟨wB, ?_, hB⟩
  rw [SilentWalshVoleSender.beginExpand, W.mB, W.matched.domain, W.matched.count, W.genDomain, W.genCount]
  simp only [AlignedUnVector.resize_empty_zero, ok_bind, W.sendSize, hwB, hB.1, validateExpandFormat_ok]

/-- The two expansions differ at the points only, by the shares of the sender. -/
theorem WithBase.pprf_spec (W : WithBase ctx g delta domain P) (X : XorCtx ctx) (L : LibOTe ctx) :
    let out := L.pprf P.recv.mGen P.send.mGen P.send.baseB
    (∀ j < 64, read out.1 (noisePoint domain g.words j) =
      read out.2 (noisePoint domain g.words j) + read P.send.baseB j) ∧
    ∀ x < domain * 64, (∀ j < 64, noisePoint domain g.words j ≠ x) → read out.1 x = read out.2 x := by
  have hvalue : P.send.baseB.size = P.send.mGen.mPntCount := by
    rw [W.matched.count, W.genCount, ← W.sendCount]
    exact Array.size_ofFn
  have hoff := L.pprf_off P.recv.mGen P.send.mGen P.send.baseB W.matched hvalue
  have hat := L.pprf_at P.recv.mGen P.send.mGen P.send.baseB W.matched hvalue
  rw [W.genDomain, W.genCount] at hoff
  rw [W.genCount] at hat
  refine ⟨fun j hj => ?_, fun x hx hne => hoff x hx fun j hj => (W.point j hj).symm ▸ hne j hj⟩
  have h := hat j hj
  rwa [W.point j hj, X.plus] at h

/-- The expansions of both parties, corrected by the base VOLE, are correlated. -/
theorem WithBase.expand_ok (W : WithBase ctx g delta domain P) (X : XorCtx ctx) (L : LibOTe ctx) (hdomain : 0 < domain)
    (hmem : domain * 64 ≤ maxBlocks) : ∃ P', P.expand L g = .ok P' ∧ Expanded ctx g delta domain P' := by
  obtain ⟨wA, wC, hrecv, ⟨hsizeA, hcapA⟩, hsizeC, hcapC⟩ := W.beginRecv_ok hmem g.memA g.memC
  obtain ⟨wB, hsend, hsizeB, hcapB⟩ := W.beginSend_ok hmem g.memB
  obtain ⟨hat, hoff⟩ := W.pprf_spec X L
  obtain ⟨out, hout⟩ : ∃ out, out = L.pprf P.recv.mGen P.send.mGen P.send.baseB := ⟨_, rfl⟩
  rw [← hout] at hat hoff
  let S := noisePoint domain g.words
  let r : SilentWalshVoleReceiver := { P.recv with
    mA := wA.fill (read out.1)
    mC := wC.fill fun _ => 0
    mGen := { P.recv.mGen with mBaseOTs := #[] } }
  have hexpand : P.expand L g = .ok ⟨r.addNoise ctx, { P.send with
      mB := wB.fill (read out.2)
      mGen := { P.send.mGen with mBaseOTs := #[] } }⟩ := by
    rw [Parties.expand, hrecv, ok_bind, hsend, ok_bind]
    subst hout
    rfl
  have N : NoiseAdded ctx r S 64 ((r.addNoise ctx).mA, (r.addNoise ctx).mC) := by
    refine addNoise_spec W.recvCount (fun j hj => ?_) (fun i j => noisePoint_inj hdomain) (fun j hj => ?_) fun j hj => ?_
    · exact (congrArg (read · j) W.points).trans (W.point j hj)
    · exact hsizeA.symm ▸ noisePoint_lt g.words hdomain hj
    · exact hsizeC.symm ▸ noisePoint_lt g.words hdomain hj
  have hzero (x : ℕ) (hx : x < domain * 64) : r.mC.get x = 0 := AlignedUnVector.get_fill wC _ (hsizeC.symm ▸ hx)
  have hA (x : ℕ) (hx : x < domain * 64) : r.mA.get x = read out.1 x := AlignedUnVector.get_fill wA _ (hsizeA.symm ▸ hx)
  have hB (x : ℕ) (hx : x < domain * 64) : (wB.fill (read out.2)).get x = read out.2 x :=
    AlignedUnVector.get_fill wB _ (hsizeB.symm ▸ hx)
  refine ⟨_, hexpand, N.sizeA.trans hsizeA, hsizeB, N.sizeC.trans hsizeC, ?_, ?_, ?_, fun j hj => ?_, W.baseC,
    fun j hj => ?_, fun x hx hne => ?_, fun x hx => ?_⟩
  · exact N.capacityA.trans ((AlignedUnVector.size_mem_fill wA _).trans hcapA)
  · exact (AlignedUnVector.size_mem_fill wB _).trans hcapB
  · exact N.capacityC.trans ((AlignedUnVector.size_mem_fill wC _).trans hcapC)
  · exact (congrArg (read · j) W.points).trans (W.point j hj)
  · exact (N.atC j hj).trans (W.baseC j hj)
  · exact (N.offC x hne).trans (hzero x hx)
  · have hcorr := N.corr X x (read out.2 x) (hzero x hx) (fun j hj hS => by rw [hA x hx, ← hS, hat j hj])
      (fun hne => (hA x hx).trans (hoff x hx hne)) W.base
    rwa [← hB x hx] at hcorr

theorem WithBase.expand_error (W : WithBase ctx g delta domain P) (L : LibOTe ctx) (hmem : maxBlocks < domain * 64) :
    P.expand L g = .error .badAlloc := by
  rw [Parties.expand, SilentWalshVoleReceiver.beginExpand, W.mA, AlignedUnVector.resize_empty_zero, ok_bind, W.recvSize,
    AlignedUnVector.resize_empty_error hmem, error_bind, error_bind]

/-- From idle parties the session reaches its encoding with correlated sparse vectors. -/
theorem Idle.beforeEncoding_ok (I : Idle P) (X : XorCtx ctx) (L : LibOTe ctx) (g : SessionDraws ctx) (delta : Block)
    (heven : domain % 2 = 0) (hdomain : 2 ≤ domain) (hmem : domain * 64 ≤ maxBlocks) :
    ∃ P', P.beforeEncoding L g delta (domain * 64) = .ok P' ∧ Expanded ctx g delta domain P' := by
  obtain ⟨P₁, h₁, C⟩ := I.start_ok heven hdomain
  obtain ⟨P₂, h₂, W⟩ := C.ensureBaseOts_ok X L g delta (by omega)
  obtain ⟨P₃, h₃, E⟩ := W.expand_ok X L (by omega) hmem
  exact ⟨P₃, by rw [Parties.beforeEncoding, h₁, ok_bind, h₂, ok_bind, h₃], E⟩

theorem Idle.beforeEncoding_error (I : Idle P) (X : XorCtx ctx) (L : LibOTe ctx) (g : SessionDraws ctx) (delta : Block)
    (heven : domain % 2 = 0) (hdomain : 2 ≤ domain) (hmem : maxBlocks < domain * 64) :
    P.beforeEncoding L g delta (domain * 64) = .error .badAlloc := by
  obtain ⟨P₁, h₁, C⟩ := I.start_ok heven hdomain
  obtain ⟨P₂, h₂, W⟩ := C.ensureBaseOts_ok X L g delta (by omega)
  rw [Parties.beforeEncoding, h₁, ok_bind, h₂, ok_bind, W.expand_error L hmem]

end ExtFieldPcg
