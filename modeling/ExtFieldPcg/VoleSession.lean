import ExtFieldPcg.SilentWalshVole

/-! One session of the silent VOLE between a receiver and a sender, over the base OTs, the noisy VOLE and the
    punctured PRF of libOTe. -/

open Buffer

namespace ExtFieldPcg

/-! ### What libOTe delivers -/

/-- Sender and receiver of the PPRF are set up for the same trees, and each base OT of the receiver is the one
    that its choice bit selects. -/
structure PprfMatched (gr : RegularPprfReceiver) (gs : RegularPprf (Block × Block)) : Prop where
  domain : gs.mDomain = gr.mDomain
  depth : gs.mDepth = gr.mDepth
  count : gs.mPntCount = gr.mPntCount
  batches : gr.mPntCount % 8 = 0
  leaf : ∀ j < gr.mPntCount, gr.leafPoint j < gr.mDomain
  base : ∀ i < gr.mPntCount, ∀ j < gr.mDepth, read gr.mBaseOTs (i * gr.mDepth + j) =
    TernaryDpf.key (read gs.mBaseOTs (i * gr.mDepth + j)) (gr.mBaseChoices i j)

/-- The parts of libOTe that a session calls, as functions of their inputs; their randomness is fixed. -/
structure LibOTe (ctx : CoeffCtx Block) where
  /-- Base VOLE on the values `c` and `delta`: `a` of the receiver and `b` of the sender. -/
  noisyVole : Array Block → Block → Array Block × Array Block
  noisyVole_size : ∀ c delta, (noisyVole c delta).1.size = c.size ∧ (noisyVole c delta).2.size = c.size
  noisyVole_spec : ∀ c delta, ∀ i < c.size,
    read (noisyVole c delta).1 i = ctx.plus (read (noisyVole c delta).2 i) (ctx.mul (read c i) delta)
  /-- The expansions of receiver and sender, programmed to the values of the sender. -/
  pprf : RegularPprfReceiver → RegularPprf (Block × Block) → Array Block → Array Block × Array Block
  pprf_off : ∀ gr gs value, PprfMatched gr gs → value.size = gs.mPntCount →
    ∀ x < gr.mDomain * gr.mPntCount, (∀ j < gr.mPntCount, read gr.getPoints j ≠ x) →
      read (pprf gr gs value).1 x = read (pprf gr gs value).2 x
  pprf_at : ∀ gr gs value, PprfMatched gr gs → value.size = gs.mPntCount → ∀ j < gr.mPntCount,
    read (pprf gr gs value).1 (read gr.getPoints j) =
      ctx.plus (read (pprf gr gs value).2 (read gr.getPoints j)) (read value j)

/-! ### The session -/

/-- The random values of one session, and what fresh memory holds in it. -/
structure SessionDraws (ctx : CoeffCtx Block) where
  /-- The words that the points are drawn from. -/
  words : ℕ → ℕ
  noise : NoiseDraws ctx
  /-- The base OTs of the sender. -/
  baseOt : ℕ → Block × Block
  memA : ℕ → Block
  memB : ℕ → Block
  memC : ℕ → Block
  growA : ℕ → Block
  growB : ℕ → Block
  growC : ℕ → Block

/-- A session that draws `block(0, 1)` for every noise value and zero elsewhere. -/
def SessionDraws.ones (ctx : CoeffCtx Block) (h : ctx.eq ctx.zero (ctx.fromBlock (block 0 1)) = false) :
    SessionDraws ctx where
  words _ := 0
  noise := ⟨fun _ _ => block 0 1, fun _ => ⟨0, h⟩⟩
  baseOt _ := default
  memA _ := 0
  memB _ := 0
  memC _ := 0
  growA _ := 0
  growB _ := 0
  growC _ := 0

structure Parties where
  recv : SilentWalshVoleReceiver := {}
  send : SilentWalshVoleSender := {}

structure VoleOutput where
  c : Array Block
  a : Array Block
  b : Array Block

variable {ctx : CoeffCtx Block}

namespace Parties

/-- Both parties configure, unless they are, and check the size. -/
def start (P : Parties) (n : ℕ) : Except Err Parties := do
  let recv ← P.recv.start n
  let send ← P.send.start n
  .ok ⟨recv, send⟩

def genSilentBaseOts (L : LibOTe ctx) (g : SessionDraws ctx) (delta : Block) (P : Parties) : Except Err Parties := do
  let recv ← P.recv.sampleBaseChoiceBits g.words
  let recv ← recv.sampleBaseVoleVals g.noise
  let depth := recv.mGen.mDepth
  let msg := Array.ofFn fun i : Fin P.send.mGen.baseOtCount => g.baseOt i
  let recvMsg := Array.ofFn fun i : Fin recv.mGen.baseOtCount =>
    TernaryDpf.key (g.baseOt i) (recv.mGen.mBaseChoices (i / depth) (i % depth))
  let vole := L.noisyVole recv.mBaseC delta
  let recv ← recv.setSilentBaseOts recvMsg vole.1
  let send ← P.send.setSilentBaseOts ctx msg vole.2
  .ok ⟨recv, send⟩

/-- Both parties run `genSilentBaseOts` when they have no base OTs; one alone would wait for the other. -/
def ensureBaseOts (L : LibOTe ctx) (g : SessionDraws ctx) (delta : Block) (P : Parties) : Except Err Parties :=
  match P.recv.mGen.hasBaseOts, P.send.mGen.hasBaseOts with
  | true, true => .ok P
  | false, false => P.genSilentBaseOts L g delta
  | _, _ => .error .blocked

/-- Both parties expand their PPRF, and the receiver adds its noise. -/
def expand (L : LibOTe ctx) (g : SessionDraws ctx) (P : Parties) : Except Err Parties := do
  let recv ← P.recv.beginExpand g.memA g.memC
  let send ← P.send.beginExpand g.memB
  let output := L.pprf recv.mGen send.mGen send.baseB
  .ok ⟨recv.finishExpand ctx output.1, send.finishExpand output.2⟩

def finish (numVar : ℕ → ℕ) (g : SessionDraws ctx) (P : Parties) : Except Err Parties := do
  let recv ← P.recv.finish numVar g.growA g.growC
  let send ← P.send.finish numVar g.growB
  .ok ⟨recv, send⟩

/-- Both `Inplace` functions on the size `n`, up to the encoding. -/
def beforeEncoding (L : LibOTe ctx) (g : SessionDraws ctx) (delta : Block) (n : ℕ) (P : Parties) : Except Err Parties := do
  let P ← P.start n
  let P ← P.ensureBaseOts L g delta
  P.expand L g

/-- `silentReceiveInplace(n)` and `silentSendInplace(delta, n)`. -/
def inplace (L : LibOTe ctx) (numVar : ℕ → ℕ) (g : SessionDraws ctx) (delta : Block) (n : ℕ) (P : Parties) :
    Except Err Parties := do
  let P ← P.beforeEncoding L g delta n
  P.finish numVar g

/-- `silentReceive(c, a)` and `silentSend(delta, b)` on vectors of `n` blocks. -/
def silentVole (L : LibOTe ctx) (numVar : ℕ → ℕ) (g : SessionDraws ctx) (delta : Block) (n : ℕ) (P : Parties) :
    Except Err (Parties × VoleOutput) := do
  let P ← P.inplace L numVar g delta n
  .ok (⟨P.recv.clear, P.send.clear⟩, ⟨copyOut n P.recv.mC, copyOut n P.recv.mA, copyOut n P.send.mB⟩)

end Parties
end ExtFieldPcg
